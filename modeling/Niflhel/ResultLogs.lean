import Mathlib.Algebra.Order.BigOperators.Group.Finset
import Niflhel.ResultLookup
import Niflhel.Traces

/-!
# The logs of removed sandboxes

`saveResult` links the logs of a sandbox into the results directory before it writes the record,
and pruning looks at records only. A call that fails in between leaves logs that no later pruning
deletes. If none does, every log belongs to a record, and after a pruning the directory holds at
most 256 MiB, none of it older than a day.
-/

namespace Niflhel.Results
open GoText

/-- What becomes of `fsutil.JSON`: it can fail before or after it renames the file into place. -/
inductive JSONWrite where
  | failed
  | unsynced
  | written
  deriving DecidableEq

structure Save where
  id : String
  name : String
  exit : Exit
  /-- The logs in the directory of the sandbox: `application` and the extension. -/
  logs : String → Option File
  mkdirAllFails : Bool
  /-- A link fails for another reason than a missing source or an existing target. -/
  linkFails : String → Bool
  json : JSONWrite
  jsonSize : ℕ
  jsonTime : ℤ
  now : ℤ

namespace Save
variable (x : Save)

/-- A link; a missing source and an existing target are ignored. -/
def link (dir : Dir) (ext : String) : Dir :=
  match x.logs ext, dir.lookup (x.id ++ ext) with
  | some source, none => Directory.put dir (x.id ++ ext) source
  | _, _ => dir

def linkLogs : List String → Dir → Bool × Dir
  | [], dir => (true, dir)
  | ext :: rest, dir => if x.linkFails ext then (false, dir) else linkLogs rest (x.link dir ext)

def record : File := ⟨true, x.jsonTime, x.jsonSize, some ⟨x.exit, x.id, x.name⟩⟩

end Save

def saveResult (S : Sorter) (x : Save) (dir : Dir) : Bool × Dir :=
  if x.mkdirAllFails then (false, dir)
  else
    match x.linkLogs logExts dir with
    | (false, dir) => (false, dir)
    | (true, dir) =>
      match x.json with
      | .failed => (false, dir)
      | .unsynced => (false, Directory.put dir (x.id ++ ".json") x.record)
      | .written =>
        (true, pruneResultsLocked noFaults S x.now (Directory.put dir (x.id ++ ".json") x.record))

inductive ResultMove where
  | save (x : Save)
  | prune (now : ℤ)

/-- The directory, and the time of the pruning if the last step ended with one. -/
structure ResultState where
  dir : Dir
  pruned : Option ℤ
  deriving DecidableEq

def resultStep (S : Sorter) (s : ResultState) : ResultMove → ResultState
  | .save x =>
    let (ok, dir) := saveResult S x s.dir
    ⟨dir, if ok then some x.now else none⟩
  | .prune now => ⟨pruneResultsLocked noFaults S now s.dir, some now⟩

structure Owned (dir : Dir) : Prop where
  nodup : (dir.map Prod.fst).Nodup
  record : ∀ name ∈ dir.map Prod.fst, ∃ id, ∃ ext ∈ exts, name = id ++ ext ∧
    id ++ ".json" ∈ dir.map Prod.fst

def dirBytes (dir : Dir) : ℕ := (dir.map fun f => f.2.size).sum

/-- A directory as it should be after a pruning: the logs belong to records, no record is older
than a day, and all files together have at most 256 MiB. -/
structure Tidy (now : ℤ) (dir : Dir) : Prop where
  logs : ∀ id, ∀ ext ∈ logExts, id ++ ext ∈ dir.map Prod.fst → id ++ ".json" ∈ dir.map Prod.fst
  young : ∀ id file, (id ++ ".json", file) ∈ dir → now - file.modTime < resultRetention
  small : dirBytes dir ≤ 256 * 2 ^ 20

section
variable {S : Sorter} {now : ℤ} {dir : Dir}

def sizeAt (dir : Dir) (name : String) : ℕ := ((dir.lookup name).map File.size).getD 0

theorem dirBytes_eq (hdir : (dir.map Prod.fst).Nodup) :
    dirBytes dir = ((dir.map Prod.fst).map (sizeAt dir)).sum := by
  rw [dirBytes, List.map_map]
  refine congrArg List.sum (List.map_congr_left fun f hf => ?_)
  simp [sizeAt, Directory.lookup_of_mem hdir hf]

theorem sum_bytes_eq (dir : Dir) (l : List Saved) :
    (l.map fun v => bytes noFaults dir v.id).sum = ((filesOf l).map (sizeAt dir)).sum := by
  induction l with
  | nil => rfl
  | cons v l ih =>
    have hfiles : filesOf (v :: l) = (exts.map fun ext => v.id ++ ext) ++ filesOf l := rfl
    rw [List.map_cons, List.sum_cons, ih, hfiles, List.map_append, List.sum_append, List.map_map]
    rfl

/-- A sum over different names is at most one over names that include all with a weight. -/
theorem sum_le_of_support {l m : List String} {f : String → ℕ} (hl : l.Nodup) (hm : m.Nodup)
    (h : ∀ x ∈ l, f x ≠ 0 → x ∈ m) : (l.map f).sum ≤ (m.map f).sum := by
  rw [← List.sum_toFinset f hl, ← List.sum_toFinset f hm]
  refine Finset.sum_le_sum_of_ne_zero fun x hx hne => ?_
  exact List.mem_toFinset.2 (h x (List.mem_toFinset.1 hx) hne)

theorem filesOf_nodup {l : List Saved} (h : (l.map Saved.id).Nodup) : (filesOf l).Nodup := by
  refine List.nodup_flatMap.2 ⟨fun v _ => ?_, ?_⟩
  · refine List.Nodup.map_on (fun x hx y hy hxy => (ext_append_inj hx hy hxy).2) (by decide)
  · refine (List.pairwise_map.1 h).imp fun {v w} hne => ?_
    intro name hv hw
    obtain ⟨x, hx, rfl⟩ := List.mem_map.1 hv
    obtain ⟨y, hy, hname⟩ := List.mem_map.1 hw
    exact hne (ext_append_inj hx hy hname.symm).1

/-- The saved results are counted once, so that their sizes fit if those of the files do. -/
theorem sum_bytes_le (hdir : (dir.map Prod.fst).Nodup) :
    ((listing noFaults dir).map fun v => bytes noFaults dir v.id).sum ≤ dirBytes dir := by
  rw [sum_bytes_eq, dirBytes_eq hdir]
  refine sum_le_of_support (filesOf_nodup (listing_ids_nodup hdir)) hdir fun name _ hne => ?_
  by_contra hnot
  have hnone : dir.lookup name = none := by
    refine List.lookup_eq_none_iff.2 fun f hf => ?_
    simpa using fun he => hnot (List.mem_map.2 ⟨f, hf, he.symm⟩)
  exact hne (by rw [sizeAt, hnone]; rfl)

theorem mem_listing_of_record {id : String} (h : id ++ ".json" ∈ dir.map Prod.fst) :
    id ∈ (listing noFaults dir).map Saved.id := by
  obtain ⟨⟨name, file⟩, hmem, rfl⟩ := List.mem_map.1 h
  have hsaved : saved noFaults dir (id ++ ".json", file) =
      some ⟨id, file.modTime, savedSize noFaults dir id file.size⟩ := by
    have hsuffix : hasSuffix (id ++ ".json") ".json" = true := hasSuffix_iff.2 ⟨id, rfl⟩
    simp [saved, hsuffix, trimSuffix_append, noFaults]
  have hlisted := (listing_perm noFaults dir).mem_iff.2 (List.mem_filterMap.2 ⟨_, hmem, hsaved⟩)
  exact List.mem_map.2 ⟨_, hlisted, rfl⟩

theorem Owned.dirBytes_le (h : Owned dir) :
    dirBytes dir ≤ ((listing noFaults dir).map fun v => bytes noFaults dir v.id).sum := by
  rw [sum_bytes_eq, dirBytes_eq h.nodup]
  refine sum_le_of_support h.nodup (filesOf_nodup (listing_ids_nodup h.nodup)) fun name hname _ => ?_
  obtain ⟨id, ext, hext, rfl, hrecord⟩ := h.record name hname
  exact (mem_filesOf hext).2 (mem_listing_of_record hrecord)

/-- Pruning deletes the logs of a result with its record. -/
theorem Owned.keep (h : Owned dir) (gone : List Saved) :
    Owned (Directory.keep (fun name => decide (name ∉ filesOf gone)) dir) := by
  have hnames : ∀ name, name ∈ (Directory.keep (fun name => decide (name ∉ filesOf gone)) dir).map
      Prod.fst ↔ name ∈ dir.map Prod.fst ∧ name ∉ filesOf gone := by
    intro name
    simp only [Directory.keep, List.mem_map, List.mem_filter, decide_eq_true_eq]
    constructor
    · rintro ⟨f, ⟨hf, hgone⟩, rfl⟩
      exact ⟨⟨f, hf, rfl⟩, hgone⟩
    · rintro ⟨⟨f, hf, rfl⟩, hgone⟩
      exact ⟨f, ⟨hf, hgone⟩, rfl⟩
  refine ⟨Directory.nodup_keep _ h.nodup, fun name hname => ?_⟩
  obtain ⟨hmem, hgone⟩ := (hnames name).1 hname
  obtain ⟨id, ext, hext, rfl, hrecord⟩ := h.record name hmem
  refine ⟨id, ext, hext, rfl, (hnames _).2 ⟨hrecord, fun hin => hgone ?_⟩⟩
  exact (mem_filesOf hext).2 ((mem_filesOf (by decide)).1 hin)

theorem sizeAt_keep_le (p : String → Bool) (name : String) :
    sizeAt (Directory.keep p dir) name ≤ sizeAt dir name := by
  unfold sizeAt
  cases hkeep : (Directory.keep p dir).lookup name with
  | none => exact Nat.zero_le _
  | some file => rw [(Directory.lookup_keep_eq_some hkeep).2]

theorem bytes_keep_le (p : String → Bool) (id : String) :
    bytes noFaults (Directory.keep p dir) id ≤ bytes noFaults dir id := by
  exact List.sum_le_sum fun ext _ => sizeAt_keep_le p (id ++ ext)

theorem Owned.prune (h : Owned dir) (hlt : dirBytes dir < 2 ^ 63) :
    Owned (pruneResultsLocked noFaults S now dir) ∧
      Tidy now (pruneResultsLocked noFaults S now dir) := by
  have hsum := Nat.lt_of_le_of_lt (sum_bytes_le h.nodup) hlt
  obtain ⟨gone, kept, hsplit, hpruned, hkept, -⟩ :=
    @pruned_suffix noFaults now dir S (fun _ => rfl) h.nodup hsum
  have hlisted := listing_kept h.nodup (hsplit ▸ S.perm (listing noFaults dir))
  have howned := h.keep gone
  rw [hpruned]
  refine ⟨howned, ⟨fun id ext hext hlog => ?_, fun id file hfile => ?_, ?_⟩⟩
  · obtain ⟨id', ext', hext', hname, hrecord⟩ := howned.record _ hlog
    have hmem : ext ∈ exts := List.mem_cons_of_mem _ hext
    exact (ext_append_inj hmem hext' hname).1 ▸ hrecord
  · obtain ⟨v, hv, rfl⟩ := List.mem_map.1
      (mem_listing_of_record (List.mem_map.2 ⟨_, hfile, rfl⟩))
    obtain ⟨file', hfile', -, hat, -⟩ := mem_listing hv
    have hsame : file' = file := Option.some.inj
      ((Directory.lookup_of_mem howned.nodup hfile').symm.trans
        (Directory.lookup_of_mem howned.nodup hfile))
    rw [← hsame, ← hat]
    exact hkept.young v (hlisted.mem_iff.1 hv)
  · calc dirBytes (Directory.keep (fun name => decide (name ∉ filesOf gone)) dir)
      ≤ ((listing noFaults (Directory.keep (fun name => decide (name ∉ filesOf gone)) dir)).map
          fun v => bytes noFaults
            (Directory.keep (fun name => decide (name ∉ filesOf gone)) dir) v.id).sum :=
        howned.dirBytes_le
      _ = (kept.map fun v => bytes noFaults
            (Directory.keep (fun name => decide (name ∉ filesOf gone)) dir) v.id).sum :=
        (hlisted.map _).sum_eq
      _ ≤ (kept.map fun v => bytes noFaults dir v.id).sum :=
        List.sum_le_sum fun v _ => bytes_keep_le _ v.id
      _ ≤ 256 * 2 ^ 20 := hkept.small

theorem mem_names_put {name n : String} {file : File} :
    n ∈ (Directory.put dir name file).map Prod.fst ↔ n = name ∨ n ∈ dir.map Prod.fst := by
  constructor
  · intro h
    obtain ⟨f, hf, rfl⟩ := List.mem_map.1 h
    rcases List.mem_cons.1 hf with rfl | hf
    · exact .inl rfl
    · exact .inr (List.mem_map.2 ⟨f, List.mem_of_mem_filter hf, rfl⟩)
  · intro h
    by_cases hn : n = name
    · exact List.mem_map.2 ⟨(name, file), List.mem_cons_self .., hn.symm⟩
    · obtain ⟨f, hf, rfl⟩ := List.mem_map.1 (h.resolve_left hn)
      exact List.mem_map.2 ⟨f, List.mem_cons_of_mem _ (List.mem_filter.2 ⟨hf, by simpa using hn⟩),
        rfl⟩

theorem dirBytes_put_le (name : String) (file : File) :
    dirBytes (Directory.put dir name file) ≤ dirBytes dir + file.size := by
  have hle : dirBytes (dir.filter fun f => f.1 != name) ≤ dirBytes dir :=
    (List.filter_sublist.map _).sum_le_sum fun _ _ => Nat.zero_le _
  have hput : dirBytes (Directory.put dir name file) =
      file.size + dirBytes (dir.filter fun f => f.1 != name) := by
    simp [dirBytes, Directory.put]
  omega

structure Extends (id : String) (dir dir' : Dir) (extra : ℕ) : Prop where
  nodup : (dir'.map Prod.fst).Nodup
  old : ∀ name ∈ dir.map Prod.fst, name ∈ dir'.map Prod.fst
  new : ∀ name ∈ dir'.map Prod.fst, name ∈ dir.map Prod.fst ∨ ∃ ext ∈ exts, name = id ++ ext
  size : dirBytes dir' ≤ dirBytes dir + extra

theorem Extends.refl (h : (dir.map Prod.fst).Nodup) (id : String) : Extends id dir dir 0 :=
  ⟨h, fun _ hn => hn, fun _ hn => .inl hn, Nat.le_refl _⟩

theorem Extends.put {id : String} {dir' : Dir} {extra : ℕ} (h : Extends id dir dir' extra)
    {ext : String} (hext : ext ∈ exts) (file : File) :
    Extends id dir (Directory.put dir' (id ++ ext) file) (extra + file.size) where
  nodup := Directory.nodup_put _ _ h.nodup
  old name hname := mem_names_put.2 (.inr (h.old name hname))
  new name hname := by
    rcases mem_names_put.1 hname with rfl | hname
    · exact .inr ⟨ext, hext, rfl⟩
    · exact h.new name hname
  size := by
    have hput := @dirBytes_put_le dir' (id ++ ext) file
    have hsize := h.size
    omega

variable {x : Save}

def Save.logSize (x : Save) (ext : String) : ℕ := ((x.logs ext).map File.size).getD 0

theorem Extends.link {dir' : Dir} {extra : ℕ} (h : Extends x.id dir dir' extra) {ext : String}
    (hext : ext ∈ exts) : Extends x.id dir (x.link dir' ext) (extra + x.logSize ext) := by
  unfold Save.link Save.logSize
  split
  · rename_i source hsource _
    rw [hsource]
    exact h.put hext source
  · exact ⟨h.nodup, h.old, h.new, h.size.trans (by omega)⟩

theorem Owned.extended (h : Owned dir) {dir' : Dir} {extra : ℕ}
    (hx : Extends x.id dir dir' extra) : Owned (Directory.put dir' (x.id ++ ".json") x.record) := by
  refine ⟨Directory.nodup_put _ _ hx.nodup, fun name hname => ?_⟩
  have hown : x.id ++ ".json" ∈ (Directory.put dir' (x.id ++ ".json") x.record).map Prod.fst :=
    mem_names_put.2 (.inl rfl)
  rcases mem_names_put.1 hname with rfl | hname
  · exact ⟨x.id, ".json", by decide, rfl, hown⟩
  · rcases hx.new name hname with hold | ⟨ext, hext, rfl⟩
    · obtain ⟨id, ext, hext, rfl, hrecord⟩ := h.record name hold
      exact ⟨id, ext, hext, rfl, mem_names_put.2 (.inr (hx.old _ hrecord))⟩
    · exact ⟨x.id, ext, hext, rfl, hown⟩

def Save.adds (x : Save) (dir : Dir) (ext : String) : Bool :=
  (x.logs ext).isSome && (dir.lookup (x.id ++ ext)).isNone

theorem link_eq_self {ext : String} (h : x.adds dir ext = false) : x.link dir ext = dir := by
  unfold Save.link
  split
  · rename_i source hsource hfree
    simp [Save.adds, hsource, hfree] at h
  · rfl

/-- The call does not fail between linking a log and renaming the record into place. -/
def Save.complete (x : Save) (dir : Dir) : Bool :=
  x.mkdirAllFails || x.linkFails ".log" ||
    if x.linkFails ".log.1" then !x.adds dir ".log"
    else x.json != .failed || (!x.adds dir ".log" && !x.adds dir ".log.1")

def Save.size (x : Save) : ℕ := x.logSize ".log" + x.logSize ".log.1" + x.jsonSize

/-- After a call that is complete the files are owned, and the directory is tidy if the call ended
with a pruning. -/
theorem Owned.save (h : Owned dir) (hcomplete : x.complete dir = true)
    (hlt : dirBytes dir + x.size < 2 ^ 63) : Owned (saveResult S x dir).2 ∧
      ((saveResult S x dir).1 = true → Tidy x.now (saveResult S x dir).2) := by
  unfold Save.complete at hcomplete
  unfold saveResult
  cases hmkdir : x.mkdirAllFails with
  | true => exact ⟨h, by rintro ⟨⟩⟩
  | false =>
    simp only [hmkdir, Bool.false_or] at hcomplete
    simp only [Bool.false_eq_true, if_false, logExts, Save.linkLogs]
    cases hfirst : x.linkFails ".log" with
    | true => exact ⟨h, by rintro ⟨⟩⟩
    | false =>
      simp only [hfirst, Bool.false_or] at hcomplete
      cases hsecond : x.linkFails ".log.1" with
      | true =>
        simp only [hsecond, if_true, Bool.not_eq_true'] at hcomplete
        rw [link_eq_self hcomplete]
        exact ⟨h, by rintro ⟨⟩⟩
      | false =>
        simp only [hsecond, Bool.false_eq_true, if_false] at hcomplete
        have hlinked := ((Extends.refl h.nodup x.id).link (show ".log" ∈ exts by decide)).link
          (show ".log.1" ∈ exts by decide)
        have howned := h.extended hlinked
        cases hjson : x.json with
        | failed =>
          simp only [hjson, bne_self_eq_false, Bool.false_or, Bool.and_eq_true,
            Bool.not_eq_true'] at hcomplete
          have hdir := link_eq_self hcomplete.1
          rw [hdir, link_eq_self hcomplete.2]
          exact ⟨h, by rintro ⟨⟩⟩
        | unsynced => exact ⟨howned, by rintro ⟨⟩⟩
        | written =>
          have hsize := (hlinked.put (show ".json" ∈ exts by decide) x.record).size
          have hbound : dirBytes (Directory.put (x.link (x.link dir ".log") ".log.1")
              (x.id ++ ".json") x.record) < 2 ^ 63 := by
            refine Nat.lt_of_le_of_lt hsize ?_
            simp only [Save.size] at hlt
            simp only [Save.record]
            omega
          exact (howned.prune hbound).imp_right fun htidy _ => htidy

def stepOk (s : ResultState) : ResultMove → Bool
  | .save x => x.complete s.dir && decide (dirBytes s.dir + x.size < 2 ^ 63)
  | .prune _ => decide (dirBytes s.dir < 2 ^ 63)

def resultRun (S : Sorter) (moves : List ResultMove) : Option ResultState :=
  Traces.run (fun s m => some (resultStep S s m)) stepOk ⟨[], none⟩ moves

theorem owned_step {s : ResultState} {m : ResultMove} (h : Owned s.dir) (hok : stepOk s m = true) :
    Owned (resultStep S s m).dir ∧
      ∀ now, (resultStep S s m).pruned = some now → Tidy now (resultStep S s m).dir := by
  cases m with
  | save x =>
    simp only [stepOk, Bool.and_eq_true, decide_eq_true_eq] at hok
    obtain ⟨howned, htidy⟩ := @Owned.save S s.dir x h hok.1 hok.2
    refine ⟨howned, fun now hnow => ?_⟩
    simp only [resultStep] at hnow
    split at hnow
    · rename_i hsaved
      cases hnow
      exact htidy hsaved
    · cases hnow
  | prune now =>
    obtain ⟨howned, htidy⟩ := @Owned.prune S now s.dir h (by simpa [stepOk] using hok)
    refine ⟨howned, fun now' hnow => ?_⟩
    cases hnow
    exact htidy

theorem owned_nil : Owned [] := ⟨List.nodup_nil, nofun⟩

/-- If no save fails between linking a log and writing the record, the directory is tidy after
every pruning. -/
theorem tidy_while_complete {moves : List ResultMove} {s : ResultState}
    (hrun : resultRun S moves = some s) : ∀ now, s.pruned = some now → Tidy now s.dir := by
  have hinv : Owned s.dir ∧ ∀ now, s.pruned = some now → Tidy now s.dir := by
    refine @Traces.run_invariant _ _ _ _
      (fun s => Owned s.dir ∧ ∀ now, s.pruned = some now → Tidy now s.dir)
      (fun s m s' hs hok hstep => ?_) moves ⟨[], none⟩ s ⟨owned_nil, nofun⟩ hrun
    cases hstep
    exact owned_step hs.1 hok
  exact hinv.2

end

def sampleSave (json : JSONWrite) : Save where
  id := "00000000000000000000000000000001"
  name := "job"
  exit := ⟨some 0, "", false, 0⟩
  logs ext := if ext = ".log" then some ⟨true, 0, 5000, none⟩ else none
  mkdirAllFails := false
  linkFails _ := false
  json := json
  jsonSize := 100
  jsonTime := 0
  now := 0

def laterSave : Save :=
  { sampleSave .written with id := "00000000000000000000000000000002", jsonTime := 10, now := 10 }

/-- A day later the first result is gone with its log, and the second one is kept. -/
theorem tidy_while_complete_sample :
    ∃ dir, resultRun byTime [.save (sampleSave .written), .save laterSave,
        .prune (resultRetention + 5)] = some ⟨dir, some (resultRetention + 5)⟩ ∧
      dir.map Prod.fst = ["00000000000000000000000000000002.json",
        "00000000000000000000000000000002.log"] ∧ Tidy (resultRetention + 5) dir := by
  have hrun : (resultRun byTime [.save (sampleSave .written), .save laterSave,
      .prune (resultRetention + 5)]).map (fun s => (s.pruned, s.dir.map Prod.fst)) =
        some (some (resultRetention + 5), ["00000000000000000000000000000002.json",
          "00000000000000000000000000000002.log"]) := by
    decide +kernel
  obtain ⟨⟨dir, pruned⟩, hs, hfacts⟩ := Option.map_eq_some_iff.1 hrun
  obtain ⟨rfl, hnames⟩ := Prod.mk.inj hfacts
  exact ⟨dir, hs, hnames, tidy_while_complete hs _ rfl⟩

/-- The record is not written: the log stays, after every pruning. -/
theorem unrecorded_log_stays : ¬ Tidy (2 * resultRetention)
      (resultStep byTime (resultStep byTime ⟨[], none⟩ (.save (sampleSave .failed)))
        (.prune (2 * resultRetention))).dir := by
  intro h
  have hrecord := h.logs "00000000000000000000000000000001" ".log" (by decide) (by decide +kernel)
  exact absurd hrecord (by decide +kernel)

end Niflhel.Results
