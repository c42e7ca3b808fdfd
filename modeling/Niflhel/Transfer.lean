import Niflhel.Base
import Niflhel.Tar

/-!
# Copying files through a session

The frames of a session are pumped into a pipe and extracted as an archive. The pump
closes the pipe with the error of `Recv`, so that a connection cut at a frame boundary,
where `Recv` answers `io.EOF`, looks to the extraction like the regular end of the data.
The file system is a parameter: any of its calls may fail, and it keeps what was done
before a failure.
-/

namespace Niflhel
open GoText

namespace Filecopy

def maxBytes : ℤ := 512 * 2 ^ 20

/-- The bytes the extraction reads at most; reaching the bound is an error. -/
def streamLimit : ℕ := 512 * 2 ^ 20 + 16 * 2 ^ 20 + 1

def clean (s : String) : Except String String :=
  let s := pathClean (trimPrefix s "/")
  if s = ".." ∨ hasPrefix s "../" ∨ containsRune s (Char.ofNat 0) then
    .error "copy path escapes root"
  else .ok s

structure FileSystem (σ : Type) where
  mkdir : σ → String → σ × Option String
  openFile : σ → String → ℕ → σ × Option String
  write : σ → String → Bytes → σ × Option String
  close : σ → String → σ × Option String

def isDir (h : Tar.Header) : Bool := h.typeflag == 53

def isRegular (h : Tar.Header) : Bool := h.typeflag == 48 || h.typeflag == 0

variable {σ : Type}

def extractFile (fs : FileSystem σ) (st : σ) (p : String) (h : Tar.Header) (e : Tar.Ending)
    (b : Bytes) : σ × Option String :=
  match fs.mkdir st (pathDir p) with
  | (st, some m) => (st, some m)
  | (st, none) =>
    match fs.openFile st p (h.mode % 512) with
    | (st, some m) => (st, some m)
    | (st, none) =>
      let content := b.take h.size.toNat
      let (st, writeErr) := fs.write st p content
      let (st, closeErr) := fs.close st p
      match writeErr with
      | some m => (st, some m)
      | none => if content.length < h.size.toNat then (st, some (Tar.truncated e)) else (st, closeErr)

def finish (e : Tar.Ending) (limited : Bool) : Option String :=
  match e with
  | .error m => some m
  | .eof => if limited then some "archive size limit" else none

/-- The loop of `extract`, with `n` entries and `maxBytes - total` bytes still allowed. -/
def extractLoop (F : Tar.Format) (fs : FileSystem σ) (dest : String) (e : Tar.Ending)
    (limited : Bool) (n : ℕ) (total : ℤ) (pad : ℕ) (b : Bytes) (st : σ) : σ × Option String :=
  match Tar.next F e (b.length + 1) pad [] b with
  | .eof => (st, finish e limited)
  | .failed m => (st, some m)
  | .ok h rest =>
    match n with
    | 0 => (st, some "copy file count limit")
    | n + 1 =>
      match clean h.name with
      | .error _ => (st, some "unsafe archive path")
      | .ok name =>
        if hasPrefix h.name "/" then (st, some "unsafe archive path")
        else if isDir h then
          match fs.mkdir st (pathJoin dest name) with
          | (st, some m) => (st, some m)
          | (st, none) => extractLoop F fs dest e limited n total (Tar.padding 0) rest st
        else if isRegular h then
          if h.size < 0 ∨ h.size > maxBytes - total then (st, some "copy size limit")
          else match extractFile fs st (pathJoin dest name) h e rest with
            | (st, some m) => (st, some m)
            | (st, none) => extractLoop F fs dest e limited n (total + h.size)
                (Tar.padding h.size.toNat) (rest.drop h.size.toNat) st
        else (st, some "copy supports regular files and directories only")

def extract (F : Tar.Format) (fs : FileSystem σ) (st : σ) (dest : String) (src : Tar.Source) :
    σ × Option String :=
  match clean dest with
  | .error m => (st, some m)
  | .ok dest =>
    if streamLimit ≤ src.bytes.length then
      extractLoop F fs dest .eof true 10000 0 0 (src.bytes.take streamLimit) st
    else extractLoop F fs dest src.ending false 10000 0 0 src.bytes st

def safeName (name : String) : Bool := (clean name).toOption.isSome && !hasPrefix name "/"

def fileBytes (entries : List (Tar.Header × Bytes)) : ℤ :=
  (entries.map fun e => if isDir e.1 then 0 else e.1.size).sum

/-- Entries the extraction accepts when `n` of them, and `maxBytes - total` bytes, are
still allowed. -/
structure Safe (n : ℕ) (total : ℤ) (entries : List (Tar.Header × Bytes)) : Prop where
  count : entries.length ≤ n
  names : ∀ e ∈ entries, safeName e.1.name = true
  kinds : ∀ e ∈ entries, isDir e.1 = true ∨ isRegular e.1 = true
  size : total + fileBytes entries ≤ maxBytes

def storeFile (fs : FileSystem σ) (st : σ) (p : String) (h : Tar.Header) (content : Bytes) : σ :=
  let st := (fs.mkdir st (pathDir p)).1
  let st := (fs.openFile st p (h.mode % 512)).1
  let st := (fs.write st p content).1
  (fs.close st p).1

def storeEntry (fs : FileSystem σ) (dest : String) (st : σ) (e : Tar.Header × Bytes) : σ :=
  let p := pathJoin dest (pathClean (trimPrefix e.1.name "/"))
  if isDir e.1 then (fs.mkdir st p).1 else storeFile fs st p e.1 e.2

section
variable {F : Tar.Format} {fs : FileSystem σ} {dest : String} {n pad : ℕ} {total : ℤ} {b : Bytes}
  {st : σ} {h : Tar.Header}

theorem clean_eq_ok {s name : String} (h : clean s = .ok name) :
    name = pathClean (trimPrefix s "/") := by
  unfold clean at h
  dsimp only at h
  split at h
  · cases h
  · exact (Except.ok.inj h).symm

theorem contentSize_of_isDir (hd : isDir h = true) : Tar.contentSize h = 0 := by
  have hflag : h.typeflag = 53 := by simpa [isDir] using hd
  simp [Tar.contentSize, hflag, Tar.isHeaderOnly]

theorem contentSize_of_isRegular (hr : isRegular h = true) : Tar.contentSize h = h.size := by
  have hflag : h.typeflag = 48 ∨ h.typeflag = 0 := by simpa [isRegular] using hr
  rcases hflag with hflag | hflag <;> simp [Tar.contentSize, hflag, Tar.isHeaderOnly]

theorem extractFile_none {e : Tar.Ending} {p : String} (hx : (extractFile fs st p h e b).2 = none) :
    h.size.toNat ≤ b.length ∧
      (extractFile fs st p h e b).1 = storeFile fs st p h (b.take h.size.toNat) := by
  unfold extractFile storeFile at *
  rcases hm : fs.mkdir st (pathDir p) with ⟨st₁, _ | m⟩
  · rcases ho : fs.openFile st₁ p (h.mode % 512) with ⟨st₂, _ | m⟩
    · rcases hw : fs.write st₂ p (b.take h.size.toNat) with ⟨st₃, _ | m⟩
      · simp only [hm, ho, hw] at hx ⊢
        split at hx
        · cases hx
        · rename_i hlen
          rw [if_neg hlen]
          refine ⟨?_, rfl⟩
          rw [List.length_take] at hlen
          omega
      · simp [hm, ho, hw] at hx
    · simp [hm, ho] at hx
  · simp [hm] at hx

variable {entries : List (Tar.Header × Bytes)}

theorem Safe.cons_dir {content : Bytes}
    (hs : Safe n total entries) (hn : safeName h.name = true) (hd : isDir h = true) :
    Safe (n + 1) total ((h, content) :: entries) where
  count := Nat.succ_le_succ hs.count
  names := List.forall_mem_cons.2 ⟨hn, hs.names⟩
  kinds := List.forall_mem_cons.2 ⟨Or.inl hd, hs.kinds⟩
  size := by simpa [fileBytes, hd] using hs.size

theorem Safe.cons_file {content : Bytes}
    (hs : Safe n (total + h.size) entries) (hn : safeName h.name = true)
    (hd : isDir h = false) (hr : isRegular h = true) :
    Safe (n + 1) total ((h, content) :: entries) where
  count := Nat.succ_le_succ hs.count
  names := List.forall_mem_cons.2 ⟨hn, hs.names⟩
  kinds := List.forall_mem_cons.2 ⟨Or.inr hr, hs.kinds⟩
  size := by
    have := hs.size
    simp only [fileBytes, List.map_cons, List.sum_cons, hd, Bool.false_eq_true, if_false] at this ⊢
    omega

/-- A successful loop has read whole entries up to a clean end, and stored them all. -/
theorem extractLoop_none (ht : total ≤ maxBytes)
    (hx : (extractLoop F fs dest .eof false n total pad b st).2 = none) :
    ∃ entries, Tar.Archive F pad b entries ∧ Safe n total entries ∧
      (extractLoop F fs dest .eof false n total pad b st).1 =
        entries.foldl (storeEntry fs dest) st := by
  induction n generalizing total pad b st with
  | zero =>
    unfold extractLoop at hx ⊢
    cases hnext : Tar.next F .eof (b.length + 1) pad [] b with
    | failed | ok => simp [hnext] at hx
    | eof =>
      have harch := (Tar.next_eq_found (o := none) (Nat.lt_succ_self _)).1 hnext
      exact ⟨[], .nil harch, ⟨le_rfl, nofun, nofun, by simpa [fileBytes] using ht⟩, rfl⟩
  | succ n ih =>
    unfold extractLoop at hx ⊢
    cases hnext : Tar.next F .eof (b.length + 1) pad [] b with
    | failed m => simp [hnext] at hx
    | eof =>
      have harch := (Tar.next_eq_found (o := none) (Nat.lt_succ_self _)).1 hnext
      exact ⟨[], .nil harch, ⟨Nat.zero_le _, nofun, nofun, by simpa [fileBytes] using ht⟩, rfl⟩
    | ok h rest =>
      have harch := (Tar.next_eq_found (o := some (h, rest)) (Nat.lt_succ_self _)).1 hnext
      simp only [hnext] at hx ⊢
      cases hc : clean h.name with
      | error m => simp [hc] at hx
      | ok name =>
        obtain rfl := clean_eq_ok hc
        simp only [hc] at hx ⊢
        split at hx
        · cases hx
        rename_i hslash
        rw [if_neg hslash]
        have hsafe : safeName h.name = true := by
          simp [safeName, hc, Except.toOption, hslash]
        split at hx
        · rename_i hd
          rw [if_pos hd]
          rcases hm : fs.mkdir st (pathJoin dest (pathClean (trimPrefix h.name "/")))
            with ⟨st₁, _ | m⟩
          · simp only [hm] at hx ⊢
            obtain ⟨entries, hrest, hfit, hst⟩ := ih ht hx
            have hempty : (([] : Bytes).length : ℤ) = Tar.contentSize h := by
              rw [contentSize_of_isDir hd]
              rfl
            refine ⟨(h, []) :: entries, .cons harch hempty hrest,
              hfit.cons_dir hsafe hd, ?_⟩
            · rw [hst, List.foldl_cons]
              simp [storeEntry, hd, hm]
          · simp [hm] at hx
        rename_i hd
        rw [if_neg hd]
        split at hx
        · rename_i hr
          rw [if_pos hr]
          split at hx
          · cases hx
          rename_i hsize
          rw [if_neg hsize]
          rw [not_or] at hsize
          rcases hf : extractFile fs st (pathJoin dest (pathClean (trimPrefix h.name "/")))
            h .eof rest with ⟨st₁, _ | m⟩
          · obtain ⟨hlen, hstore⟩ := extractFile_none (by rw [hf] : _ = none)
            simp only [hf] at hx hstore ⊢
            obtain ⟨entries, hrest, hfit, hst⟩ := ih (by omega) hx
            have hcontent : (rest.take h.size.toNat).length = h.size.toNat :=
              List.length_take_of_le hlen
            rw [← List.take_append_drop h.size.toNat rest] at harch
            refine ⟨(h, rest.take h.size.toNat) :: entries, .cons harch ?_ ?_,
              hfit.cons_file hsafe (by simpa using hd) hr, ?_⟩
            · rw [contentSize_of_isRegular hr, hcontent]
              omega
            · rw [hcontent]
              exact hrest
            · rw [hst, List.foldl_cons, hstore]
              simp [storeEntry, hd]
          · simp [hf] at hx
        · cases hx

/-- Success needs a clean end of a stream below the limit. -/
theorem extractLoop_ending {e : Tar.Ending} {limited : Bool}
    (hx : (extractLoop F fs dest e limited n total pad b st).2 = none) :
    e = .eof ∧ limited = false := by
  have hfinish : finish e limited = none → e = .eof ∧ limited = false := by
    cases e with
    | error m => exact nofun
    | eof => cases limited <;> simp [finish]
  induction n generalizing total pad b st with
  | zero =>
    unfold extractLoop at hx
    split at hx
    · exact hfinish hx
    · cases hx
    · cases hx
  | succ n ih =>
    unfold extractLoop at hx
    split at hx
    · exact hfinish hx
    · cases hx
    · dsimp only at hx
      split at hx
      · cases hx
      split at hx
      · cases hx
      split at hx
      · split at hx
        · cases hx
        · exact ih hx
      split at hx
      · split at hx
        · cases hx
        split at hx
        · cases hx
        · exact ih hx
      · cases hx

structure Permissive (fs : FileSystem σ) : Prop where
  mkdir : ∀ st p, (fs.mkdir st p).2 = none
  openFile : ∀ st p mode, (fs.openFile st p mode).2 = none
  write : ∀ st p content, (fs.write st p content).2 = none
  close : ∀ st p, (fs.close st p).2 = none

theorem eq_of_snd_eq_none {x : σ × Option String} (hx : x.2 = none) : x = (x.1, none) :=
  Prod.ext rfl hx

theorem Permissive.extractFile (hp : Permissive fs) {e : Tar.Ending} {p : String}
    (hb : h.size.toNat ≤ b.length) : (Filecopy.extractFile fs st p h e b).2 = none := by
  have hwrite := fun st₂ => hp.write st₂ p (b.take h.size.toNat)
  have hlen : ¬ (b.take h.size.toNat).length < h.size.toNat := by
    rw [List.length_take]
    omega
  simp only [Filecopy.extractFile]
  rw [eq_of_snd_eq_none (hp.mkdir st (pathDir p))]
  simp only
  rw [eq_of_snd_eq_none (hp.openFile (fs.mkdir st (pathDir p)).1 p (h.mode % 512))]
  simp only [hwrite, if_neg hlen]
  exact hp.close _ p

theorem fileBytes_nonneg (ha : Tar.Archive F pad b entries)
    (hk : ∀ e ∈ entries, isDir e.1 = true ∨ isRegular e.1 = true) : 0 ≤ fileBytes entries := by
  induction ha with
  | nil _ => simp [fileBytes]
  | @cons pad b content rest h entries hnext hsize _ ih =>
    obtain ⟨hkind, hrest⟩ := List.forall_mem_cons.1 hk
    have hmore := ih hrest
    unfold fileBytes at hmore ⊢
    simp only [List.map_cons, List.sum_cons]
    split
    · omega
    · rename_i hd
      have hreg := contentSize_of_isRegular (hkind.resolve_left hd)
      dsimp only at hreg
      omega

theorem extractLoop_of_archive (hp : Permissive fs)
    (ha : Tar.Archive F pad b entries) (hs : Safe n total entries) :
    (extractLoop F fs dest .eof false n total pad b st).2 = none := by
  induction ha generalizing n total st with
  | nil hnext =>
    unfold extractLoop
    rw [hnext.next_eq (Nat.lt_succ_self _)]
    rfl
  | @cons pad b content rest h entries hnext hsize hrest ih =>
    have hcount := hs.count
    obtain ⟨n, rfl⟩ : ∃ m, n = m + 1 := ⟨n - 1, by simp at hcount; omega⟩
    obtain ⟨hname, hnames⟩ := List.forall_mem_cons.1 hs.names
    obtain ⟨hkind, hkinds⟩ := List.forall_mem_cons.1 hs.kinds
    have hbytes := hs.size
    have hmore := fileBytes_nonneg hrest hkinds
    have hclean : ∃ name, clean h.name = .ok name ∧ hasPrefix h.name "/" = false := by
      cases hc : clean h.name with
      | error m => simp [safeName, hc, Except.toOption] at hname
      | ok name => exact ⟨name, rfl, by simpa [safeName, hc, Except.toOption] using hname⟩
    obtain ⟨name, hc, hslash⟩ := hclean
    unfold extractLoop
    rw [hnext.next_eq (Nat.lt_succ_self _)]
    simp only [Tar.Read.found, hc, hslash, Bool.false_eq_true, if_false]
    simp only [fileBytes, List.map_cons, List.sum_cons] at hbytes
    unfold fileBytes at hmore
    split
    · rename_i hd
      rw [if_pos hd] at hbytes
      have hnil : content = [] := by
        rw [contentSize_of_isDir hd] at hsize
        exact List.length_eq_zero_iff.1 (by omega)
      subst hnil
      rw [eq_of_snd_eq_none (hp.mkdir st (pathJoin dest name))]
      exact ih ⟨by simpa using hcount, hnames, hkinds, by unfold fileBytes; omega⟩
    · rename_i hd
      rw [if_neg hd] at hbytes
      have hr : isRegular h = true := hkind.resolve_left hd
      rw [contentSize_of_isRegular hr] at hsize
      have hlen : h.size.toNat = content.length := by omega
      rw [if_pos hr, if_neg (by omega)]
      have hfits : h.size.toNat ≤ (content ++ rest).length := by
        rw [List.length_append]
        omega
      rw [eq_of_snd_eq_none (hp.extractFile hfits)]
      simp only [hlen, List.drop_left]
      exact ih ⟨by simpa using hcount, hnames, hkinds, by unfold fileBytes; omega⟩

def Acceptable (F : Tar.Format) (b : Bytes) : Prop :=
  b.length < streamLimit ∧ ∃ entries, Tar.Archive F 0 b entries ∧ Safe 10000 0 entries

/-- A successful extraction read an acceptable archive that ended cleanly and stored every
entry of it. -/
theorem extract_none {src : Tar.Source} (hx : (extract F fs st dest src).2 = none) :
    src.ending = .eof ∧ src.bytes.length < streamLimit ∧
      ∃ entries, Tar.Archive F 0 src.bytes entries ∧ Safe 10000 0 entries ∧
        (extract F fs st dest src).1 =
          entries.foldl (storeEntry fs (pathClean (trimPrefix dest "/"))) st := by
  unfold extract at hx ⊢
  cases hc : clean dest with
  | error m => simp [hc] at hx
  | ok name =>
    obtain rfl := clean_eq_ok hc
    simp only [hc] at hx ⊢
    split at hx
    · cases (extractLoop_ending hx).2
    · rename_i hlimit
      obtain ⟨hend, -⟩ := extractLoop_ending hx
      rw [hend] at hx
      rw [if_neg hlimit, hend]
      have hmax : (0 : ℤ) ≤ maxBytes := by decide
      exact ⟨rfl, by omega, extractLoop_none hmax hx⟩

theorem extract_of_acceptable (hp : Permissive fs) (hb : Acceptable F b) {name : String}
    (hc : clean dest = .ok name) : (extract F fs st dest ⟨b, .eof⟩).2 = none := by
  obtain ⟨hlen, entries, harch, hsafe⟩ := hb
  simp only [extract, hc]
  rw [if_neg (by omega)]
  exact extractLoop_of_archive hp harch hsafe

end

end Filecopy

/-- The goroutine that feeds the pipe: frames of type `data` until the terminal one. With
`reports` an `error` frame ends the stream with its message. What `Recv` answers after the
last frame is handed on. -/
def pump (terminal : String) (reports : Bool) (invalid : String) :
    List Frame → Tar.Ending → Tar.Source
  | [], e => ⟨[], e⟩
  | f :: rest, e =>
    if f.type = terminal then ⟨[], .eof⟩
    else if reports ∧ f.type = "error" then ⟨[], .error f.message⟩
    else if f.type ≠ "data" then ⟨[], .error invalid⟩
    else
      let more := pump terminal reports invalid rest e
      ⟨f.data ++ more.bytes, more.ending⟩

def copyOutPump : List Frame → Tar.Ending → Tar.Source := pump "exit" true "invalid copy frame"

def copyInPump : List Frame → Tar.Ending → Tar.Source := pump "eof" false "invalid copy frame"

def loadPump : List Frame → Tar.Ending → Tar.Source := pump "eof" false "invalid upload frame"

def copyOut {σ : Type} (F : Tar.Format) (fs : Filecopy.FileSystem σ) (st : σ)
    (frames : List Frame) (e : Tar.Ending) : σ × Option String :=
  Filecopy.extract F fs st "." (copyOutPump frames e)

def Received (terminal : String) (frames : List Frame) : Prop :=
  ∃ before f after, frames = before ++ f :: after ∧ f.type = terminal ∧
    ∀ g ∈ before, g.type = "data"

/-- The connection was cut at a frame boundary while only data had arrived. -/
def CutInData (frames : List Frame) (e : Tar.Ending) : Prop :=
  (∀ f ∈ frames, f.type = "data") ∧ e = .eof

def payload (frames : List Frame) : Bytes := (frames.map Frame.data).flatten

section
variable {terminal invalid : String} {reports : Bool} {frames : List Frame} {e : Tar.Ending}

theorem received_cons {f : Frame} : Received terminal (f :: frames) ↔
    f.type = terminal ∨ (f.type = "data" ∧ Received terminal frames) := by
  constructor
  · rintro ⟨before, g, after, heq, hg, hbefore⟩
    cases before with
    | nil =>
      obtain ⟨rfl, _⟩ := List.cons.inj heq
      exact Or.inl hg
    | cons x before =>
      obtain ⟨rfl, htail⟩ := List.cons.inj heq
      obtain ⟨hx, hrest⟩ := List.forall_mem_cons.1 hbefore
      exact Or.inr ⟨hx, before, g, after, htail, hg, hrest⟩
  · rintro (h | ⟨hd, before, g, after, rfl, hg, hbefore⟩)
    · exact ⟨[], f, frames, rfl, h, nofun⟩
    · exact ⟨f :: before, g, after, rfl, hg, List.forall_mem_cons.2 ⟨hd, hbefore⟩⟩

theorem not_received_of_data (ht : terminal ≠ "data") (hd : ∀ f ∈ frames, f.type = "data") :
    ¬ Received terminal frames := by
  rintro ⟨before, f, after, rfl, hf, _⟩
  exact ht (hf.symm.trans (hd f (by simp)))

/-- The extraction sees a clean end after the terminal frame, and when the connection is
cut in the data. -/
theorem pump_ending_eq_eof (ht : terminal ≠ "data") :
    (pump terminal reports invalid frames e).ending = .eof ↔
      Received terminal frames ∨ CutInData frames e := by
  induction frames with
  | nil =>
    have hnone : ¬ Received terminal [] := not_received_of_data ht nofun
    simp [pump, CutInData, hnone]
  | cons f rest ih =>
    rw [received_cons]
    unfold pump
    by_cases hterm : f.type = terminal
    · simp [hterm]
    rw [if_neg hterm]
    by_cases hdata : f.type = "data"
    · have herr : ¬ (reports = true ∧ f.type = "error") := by
        rw [hdata]
        simp
      rw [if_neg herr, if_neg (not_not.2 hdata)]
      simp only [ih, CutInData, hdata, hdata ▸ hterm, List.forall_mem_cons, true_and, false_or]
    · have hno : ¬ CutInData (f :: rest) e := fun h => hdata (h.1 f List.mem_cons_self)
      split
      · simp [hterm, hdata, hno]
      · simp [hterm, hdata, hno]

theorem pump_of_data (ht : terminal ≠ "data") (hd : ∀ f ∈ frames, f.type = "data") :
    pump terminal reports invalid frames e = ⟨payload frames, e⟩ := by
  induction frames with
  | nil => rfl
  | cons f rest ih =>
    obtain ⟨hf, hrest⟩ := List.forall_mem_cons.1 hd
    have hterm : f.type ≠ terminal := fun h => ht (h.symm.trans hf)
    have herr : ¬ (reports = true ∧ f.type = "error") := by
      rw [hf]
      simp
    unfold pump
    rw [if_neg hterm, if_neg herr, if_neg (not_not.2 hf), ih hrest]
    simp [payload]

theorem clean_end_iff (ht : terminal ≠ "data") :
    ((pump terminal reports invalid frames e).ending = .eof → Received terminal frames) ↔
      ¬ CutInData frames e := by
  rw [pump_ending_eq_eof ht]
  constructor
  · intro h hcut
    exact not_received_of_data ht hcut.1 (h (Or.inr hcut))
  · rintro hcut (h | h)
    · exact h
    · exact absurd h hcut

end

def Filecopy.permissive : Filecopy.FileSystem Unit :=
  ⟨fun _ _ => ((), none), fun _ _ _ => ((), none), fun _ _ _ => ((), none), fun _ _ => ((), none)⟩

/-- A copy from a container that is reported successful has stored every entry it
received. It received the terminal frame unless the connection was cut in the data, between
two entries of an acceptable archive. The other two transfers see a clean end before the
terminal frame exactly when the connection is cut in the data. -/
theorem transfers_complete_iff (F : Tar.Format) (frames : List Frame) (e : Tar.Ending) :
    (∀ (σ : Type) (fs : Filecopy.FileSystem σ) (st : σ), (copyOut F fs st frames e).2 = none →
      ∃ entries, Tar.Archive F 0 (copyOutPump frames e).bytes entries ∧
        (copyOut F fs st frames e).1 = entries.foldl (Filecopy.storeEntry fs ".") st) ∧
    ((∀ (σ : Type) (fs : Filecopy.FileSystem σ) (st : σ), (copyOut F fs st frames e).2 = none →
        Received "exit" frames) ↔
      ¬ (CutInData frames e ∧ Filecopy.Acceptable F (payload frames))) ∧
    (((copyInPump frames e).ending = .eof → Received "eof" frames) ↔ ¬ CutInData frames e) ∧
    (((loadPump frames e).ending = .eof → Received "eof" frames) ↔ ¬ CutInData frames e) := by
  have hexit : "exit" ≠ "data" := by decide
  have hdot : Filecopy.clean "." = .ok "." := by decide
  refine ⟨fun σ fs st hx => ?_, ⟨fun h => ?_, fun hcut σ fs st hx => ?_⟩,
    clean_end_iff (by decide), clean_end_iff (by decide)⟩
  · obtain ⟨_, _, entries, harch, _, hst⟩ := Filecopy.extract_none hx
    have hroot : pathClean (trimPrefix "." "/") = "." := by decide
    rw [hroot] at hst
    exact ⟨entries, harch, hst⟩
  · rintro ⟨hcut, hacc⟩
    apply not_received_of_data hexit hcut.1
    apply h Unit Filecopy.permissive ()
    unfold copyOut copyOutPump
    rw [pump_of_data hexit hcut.1, hcut.2]
    exact Filecopy.extract_of_acceptable ⟨fun _ _ => rfl, fun _ _ _ => rfl, fun _ _ _ => rfl,
      fun _ _ => rfl⟩ hacc hdot
  · obtain ⟨hend, hlen, entries, harch, hsafe, _⟩ := Filecopy.extract_none hx
    rcases (pump_ending_eq_eof hexit).1 hend with hreceived | hdata
    · exact hreceived
    · have hbytes : (copyOutPump frames e).bytes = payload frames := by
        unfold copyOutPump
        rw [pump_of_data hexit hdata.1]
      rw [hbytes] at hlen harch
      exact absurd ⟨hdata, hlen, entries, harch, hsafe⟩ hcut

namespace Transfer

def format : Tar.Format where
  parse _ block := some ⟨String.ofList ((block.take 1).map fun c => Char.ofNat c.toNat), 53, 0, 0⟩
  valid _ _ := true

def recorder : Filecopy.FileSystem (List String) :=
  ⟨fun made p => (p :: made, none), fun made _ _ => (made, none), fun made _ _ => (made, none),
    fun made _ => (made, none)⟩

def entry (c : UInt8) : Frame := { type := "data", data := c :: List.replicate 511 0 }

def sent : List Frame := [entry 97, entry 98, { type := "exit" }]

end Transfer

open Transfer in
/-- After the first entry the connection is cut: the copy is reported successful with one
of the two entries. An upload cut there ends cleanly as well. -/
theorem cut_copy_succeeds : copyOut format recorder [] sent .eof = (["b", "a"], none) ∧
      copyOut format recorder [] (sent.take 1) .eof = (["a"], none) ∧
      ¬ Received "exit" (sent.take 1) ∧
      (copyInPump (sent.take 1) .eof).ending = .eof ∧ ¬ Received "eof" (sent.take 1) ∧
      (loadPump (sent.take 1) .eof).ending = .eof := by
  have hdata : ∀ f ∈ sent.take 1, f.type = "data" := by decide
  refine ⟨by decide +kernel, by decide +kernel, not_received_of_data (by decide) hdata,
    by decide +kernel, not_received_of_data (by decide) hdata, by decide +kernel⟩

end Niflhel
