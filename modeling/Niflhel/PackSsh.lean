import Niflhel.GoText
import Niflhel.ShellWords

/-!
# Packaging on a worker

`niflhel-pack-ssh` copies its inputs to a worker with `scp` and runs commands there with `ssh`,
which hands the text of a command to the shell of the worker. `quote` protects the arguments in
these texts.
-/

namespace Niflhel.PackSsh
open GoText ShellWords

/-- A quote becomes a quote within double quotes, between two parts in single quotes. -/
def escape (s : List Char) : List Char :=
  s.flatMap fun c =>
    if c = singleQuote then [singleQuote, doubleQuote, singleQuote, doubleQuote, singleQuote]
    else [c]

def quote (s : String) : String :=
  String.ofList (singleQuote :: escape s.toList ++ [singleQuote])

example : quote "a'b;$(x)" = "'a'\"'\"'b;$(x)'" := by decide

structure Flags where
  image : String
  output : String
  kernel : String
  kernelImage : String

inductive Step where
  | execute (name : String) (args : List String)
  | mkdirAll (path : String)
  deriving DecidableEq

def ssh (host command : String) : Step := .execute "ssh" ["-oBatchMode=yes", "--", host, command]

def scp (source target : String) : Step :=
  .execute "scp" ["-oBatchMode=yes", "--", source, target]

def isHost (host : String) : Bool :=
  match host.toList with
  | [] => false
  | c :: rest => (c.isAlphanum || c = '_') &&
      rest.all fun c => c.isAlphanum || "_.@-".toList.contains c

def makeCommand (remote : String) : String := "mkdir -m 700 " ++ quote remote

def removeCommand (remote : String) : String := "rm -rf -- " ++ quote remote

def packCommand (remote : String) (f : Flags) : String :=
  "NIFLHEL_ISOLATED_BUILD_WORKER=1 /usr/local/bin/niflhel-pack" ++
    " --image " ++ quote (remote ++ "/image.tar") ++ " --output " ++ quote (remote ++ "/output") ++
    if f.kernel ≠ "" then " --kernel " ++ quote (remote ++ "/kernel")
    else " --kernel-image " ++ quote f.kernelImage

/-- What is done with the directory of the worker, and the error at the end. -/
def work (host remote : String) (f : Flags) : List Step × Option String :=
  let upload := [scp f.image (host ++ ":" ++ remote ++ "/image.tar")]
  let pack := [ssh host (packCommand remote f), .mkdirAll f.output] ++
    ["kernel", "rootfs.ext4"].map fun name =>
      scp (host ++ ":" ++ remote ++ "/output/" ++ name) (pathJoin f.output name)
  if f.kernel ≠ "" then
    (upload ++ [scp f.kernel (host ++ ":" ++ remote ++ "/kernel")] ++ pack, none)
  else if f.kernelImage = "" then (upload, some "kernel or kernel-image required")
  else (upload ++ pack, none)

def perform (outcome : Step → Option String) (last : Option String) :
    List Step → List Step × Option String
  | [] => ([], last)
  | s :: rest =>
    match outcome s with
    | some e => ([s], some e)
    | none => (s :: (perform outcome last rest).1, (perform outcome last rest).2)

/-- The function `run` with a new identifier. The directory is removed at the end if it could be
made. -/
def run (outcome : Step → Option String) (host : String) (f : Flags) (id : String) :
    List Step × Option String :=
  if !isHost host then ([], some "set NIFLHEL_BUILD_SSH to an SSH host alias or user@host")
  else if f.image = "" ∨ f.output = "" then ([], some "--image and --output required")
  else
    let remote := "/tmp/niflhel-pack-" ++ id
    match outcome (ssh host (makeCommand remote)) with
    | some e => ([ssh host (makeCommand remote)], some e)
    | none =>
      let done := perform outcome (work host remote f).2 (work host remote f).1
      (ssh host (makeCommand remote) :: done.1 ++ [ssh host (removeCommand remote)], done.2)

section
variable {s : List Char} {ts : List Token} {w : Word}

/-- Within single quotes, the escaped text adds exactly its characters to the word. -/
theorem scan_escape (hs : '\x00' ∉ s) :
    scan ⟨ts, some w, .single⟩ (escape s) = some ⟨ts, some (w ++ literal s), .single⟩ := by
  induction s generalizing w with
  | nil => simp [escape, literal, scan]
  | cons c s ih =>
    obtain ⟨hc, hs⟩ := not_or.1 (List.mem_cons.not.1 hs)
    have hstep : ∀ rest : List Char, scan ⟨ts, some w, .single⟩
        ((if c = singleQuote then [singleQuote, doubleQuote, singleQuote, doubleQuote, singleQuote]
          else [c]) ++ rest) = scan ⟨ts, some (w ++ [(c, false)]), .single⟩ rest := by
      intro rest
      split_ifs with hquote
      · -- out of the single quotes, a quote within double quotes, and back
        subst hquote
        simp [scan_cons, step, plainStep, State.push, singleQuote, doubleQuote, backslash, expands]
      · rw [List.singleton_append, scan_cons, step, if_neg (Ne.symm hc)]
        simp [hquote, State.push]
    rw [escape, List.flatMap_cons, hstep, ← escape, ih hs]
    simp [literal]

theorem scan_quote {s : String} (hs : '\x00' ∉ s.toList) :
    scan ⟨ts, none, .plain⟩ (quote s).toList = some ⟨ts, some (literal s.toList), .plain⟩ := by
  have hopen : step ⟨ts, none, .plain⟩ singleQuote = some ⟨ts, some [], .single⟩ := rfl
  rw [quote, String.toList_ofList, List.cons_append, scan_cons, hopen, Option.bind_some,
    scan_append, scan_escape hs, List.nil_append, Option.bind_some]
  simp [scan, step, State.push, singleQuote]

end

theorem reads_quote {s : String} (hs : '\x00' ∉ s.toList) :
    Reads ((quote s).toList ++ [' ']) [s.toList] := by
  rw [Reads, scan_append, start, scan_quote hs]
  simp [scan, step, plainStep, State.delimit, singleQuote, doubleQuote, backslash, isBlank]

theorem parse_append_quote {text : List Char} {ws : List (List Char)} {s : String}
    (htext : Reads text ws) (hs : '\x00' ∉ s.toList) : parse (text ++ (quote s).toList) =
      some ((ws ++ [s.toList]).map fun w => .word (literal w)) := by
  rw [parse, scan_append, htext, Option.bind_some, scan_quote hs]
  simp [State.finish, State.delimit]

def packWords (remote : String) (f : Flags) : List String :=
  ["NIFLHEL_ISOLATED_BUILD_WORKER=1", "/usr/local/bin/niflhel-pack", "--image",
    remote ++ "/image.tar", "--output", remote ++ "/output"] ++
    if f.kernel ≠ "" then ["--kernel", remote ++ "/kernel"] else ["--kernel-image", f.kernelImage]

def commandOf (words : List String) : List Token := words.map fun w => .word (literal w.toList)

theorem parse_makeCommand {remote : String} (h : '\x00' ∉ remote.toList) :
    parse (makeCommand remote).toList = some (commandOf ["mkdir", "-m", "700", remote]) := by
  have htext : Reads "mkdir -m 700 ".toList ["mkdir".toList, "-m".toList, "700".toList] := by decide
  rw [makeCommand, String.toList_append, parse_append_quote htext h]
  rfl

theorem parse_removeCommand {remote : String} (h : '\x00' ∉ remote.toList) :
    parse (removeCommand remote).toList = some (commandOf ["rm", "-rf", "--", remote]) := by
  have htext : Reads "rm -rf -- ".toList ["rm".toList, "-rf".toList, "--".toList] := by decide
  rw [removeCommand, String.toList_append, parse_append_quote htext h]
  rfl

theorem parse_packCommand {remote : String} {f : Flags} (h : '\x00' ∉ remote.toList)
    (hf : '\x00' ∉ f.kernelImage.toList) :
    parse (packCommand remote f).toList = some (commandOf (packWords remote f)) := by
  have hin : ∀ name : String, '\x00' ∉ name.toList → '\x00' ∉ (remote ++ name).toList := by
    intro name hname
    rw [String.toList_append, List.mem_append, not_or]
    exact ⟨h, hname⟩
  have hpack : Reads "NIFLHEL_ISOLATED_BUILD_WORKER=1 /usr/local/bin/niflhel-pack --image ".toList
      ["NIFLHEL_ISOLATED_BUILD_WORKER=1".toList, "/usr/local/bin/niflhel-pack".toList,
        "--image".toList] := by decide +kernel
  have houtput : Reads "--output ".toList ["--output".toList] := by decide
  have htext := ((hpack.append (reads_quote (hin "/image.tar" (by decide)))).append houtput).append
    (reads_quote (hin "/output" (by decide)))
  unfold packCommand packWords
  split_ifs with hkernel
  · have hflag : Reads "--kernel ".toList ["--kernel".toList] := by decide
    have hparse := parse_append_quote (htext.append hflag) (hin "/kernel" (by decide))
    simpa [commandOf] using hparse
  · have hflag : Reads "--kernel-image ".toList ["--kernel-image".toList] := by decide
    have hparse := parse_append_quote (htext.append hflag) hf
    simpa [commandOf] using hparse

theorem mem_perform {outcome : Step → Option String} {last : Option String} {steps : List Step}
    {s : Step} (h : s ∈ (perform outcome last steps).1) : s ∈ steps := by
  induction steps with
  | nil => cases h
  | cons t steps ih =>
    unfold perform at h
    cases houtcome : outcome t with
    | some e =>
      rw [houtcome] at h
      exact List.mem_cons.2 (.inl (List.mem_singleton.1 h))
    | none =>
      rw [houtcome] at h
      exact List.mem_cons.2 ((List.mem_cons.1 h).imp_right ih)

theorem command_of_run {outcome : Step → Option String} {host : String} {f : Flags} {id : String}
    {command : String} (h : ssh host command ∈ (run outcome host f id).1) :
    command = makeCommand ("/tmp/niflhel-pack-" ++ id) ∨
      command = packCommand ("/tmp/niflhel-pack-" ++ id) f ∨
      command = removeCommand ("/tmp/niflhel-pack-" ++ id) := by
  have hwork : ∀ remote, ssh host command ∈ (work host remote f).1 →
      command = packCommand remote f := by
    intro remote hmem
    unfold work at hmem
    split_ifs at hmem
    · simpa [ssh, scp] using hmem
    · simp [ssh, scp] at hmem
    · simpa [ssh, scp] using hmem
  unfold run at h
  split_ifs at h with hhost hfiles
  · cases h
  · cases h
  · dsimp only at h
    split at h
    · exact .inl (by simpa [ssh] using h)
    · simp only [List.cons_append, List.mem_cons, List.mem_append, List.not_mem_nil, or_false] at h
      rcases h with h | h | h
      · exact .inl (by simpa [ssh] using h)
      · exact .inr (.inl (hwork _ (mem_perform h)))
      · exact .inr (.inr (by simpa [ssh] using h))

/-- At the beginning of a word and before a blank or the end, the quoted text is one word with
the value of the text. So every command for the worker is a single command with the words it
was built from. -/
theorem quote_exact :
    (∀ (s : String) (before after : List Char) (ts : List Token), '\x00' ∉ s.toList →
      scan start before = some ⟨ts, none, .plain⟩ → (∀ c ∈ after.head?, isBlank c = true) →
      parse (before ++ (quote s).toList ++ after) =
          (scan ⟨ts ++ [.word (literal s.toList)], none, .plain⟩ after).bind State.finish ∧
        Word.value (literal s.toList) = some s.toList) ∧
    ∀ (outcome : Step → Option String) (host : String) (f : Flags) (id command : String),
      '\x00' ∉ f.kernelImage.toList → '\x00' ∉ id.toList →
      ssh host command ∈ (run outcome host f id).1 →
      parse command.toList ∈
        [["mkdir", "-m", "700", "/tmp/niflhel-pack-" ++ id], packWords ("/tmp/niflhel-pack-" ++ id) f,
          ["rm", "-rf", "--", "/tmp/niflhel-pack-" ++ id]].map (some ∘ commandOf) := by
  constructor
  · intro s before after ts hs hbefore hafter
    refine ⟨?_, value_literal _⟩
    rw [parse, scan_append, scan_append, hbefore, Option.bind_some, scan_quote hs, Option.bind_some]
    cases after with
    | nil => simp [scan, State.finish, State.delimit]
    | cons c after =>
      have hblank : isBlank c = true := hafter c rfl
      have hstep : ∀ ts' word, step ⟨ts', word, .plain⟩ c =
          some ⟨State.delimit ⟨ts', word, .plain⟩, none, .plain⟩ := by
        intro ts' word
        rcases (by simpa [isBlank] using hblank : c = ' ' ∨ c = '\t') with rfl | rfl <;> rfl
      rw [scan_cons, scan_cons, hstep, hstep]
      rfl
  · intro outcome host f id command hf hid h
    have hremote : '\x00' ∉ ("/tmp/niflhel-pack-" ++ id).toList := by
      rw [String.toList_append, List.mem_append, not_or]
      exact ⟨by decide, hid⟩
    rcases command_of_run h with rfl | rfl | rfl
    · simp [parse_makeCommand hremote]
    · simp [parse_packCommand hremote hf]
    · simp [parse_removeCommand hremote]

/-- A kernel image that tries to run a command. -/
theorem quote_exact_injection :
    parse ("echo ".toList ++ (quote "a'; reboot '").toList ++ " b".toList) =
        some (commandOf ["echo", "a'; reboot '", "b"]) ∧
      parse (packCommand "/tmp/niflhel-pack-7" ⟨"i", "o", "", "a'; reboot '"⟩).toList ∈
        [["mkdir", "-m", "700", "/tmp/niflhel-pack-7"],
          packWords "/tmp/niflhel-pack-7" ⟨"i", "o", "", "a'; reboot '"⟩,
          ["rm", "-rf", "--", "/tmp/niflhel-pack-7"]].map (some ∘ commandOf) := by
  constructor
  · exact (quote_exact.1 "a'; reboot '" "echo ".toList " b".toList (commandOf ["echo"]) (by decide)
      (by decide) (by simp [isBlank])).1.trans (by decide +kernel)
  · exact quote_exact.2 (fun _ => none) "worker" ⟨"i", "o", "", "a'; reboot '"⟩ "7" _ (by decide)
      (by decide) (by decide +kernel)

end Niflhel.PackSsh
