import Mathlib.Algebra.BigOperators.Group.List.Basic
import Mathlib.Data.List.TakeWhile
import Niflhel.Api
import Niflhel.Numbering

/-!
# Application logs

A journal keeps the most recent frames of an application in memory and in two files,
`path + ".1"` and `path`. The files are read and written without errors, one line for each
frame; the length of the encoded line is a parameter. Sequence numbers are consecutive, in
memory and in the files, as long as the counter does not wrap.
-/

namespace Niflhel
open Numbering

structure Journal where
  frames : List Frame := []
  bytes : ℕ := 0
  seq : UInt64 := 0
  deriving DecidableEq, Repr

namespace Journal

def limit : ℕ := 8 * 2 ^ 20
def chunkSize : ℕ := 32 * 2 ^ 10
def batchSize : ℕ := 256 * 2 ^ 10
/-- The longest line that `Open` scans, with its newline. -/
def maxLine : ℕ := 2 ^ 20

structure Written (f : Frame) : Prop where
  nonempty : f.data ≠ []
  short : f.data.length ≤ chunkSize
  kind : f.type.length ≤ 6
  message : f.message = ""
  code : f.code = none

/-- The JSON encoder: the frames that `Write` makes stay far below the limit of `Open`. -/
structure Encoding where
  size : Frame → ℕ
  fits : ∀ f, Written f → size f ≤ maxLine

def lineEncoding : Encoding where
  size f := (f.data.length + 2) / 3 * 4 + 512
  fits f hf := by
    have hshort := hf.short
    unfold chunkSize at hshort
    unfold maxLine
    omega

def cost (f : Frame) : ℕ := f.data.length + 128

def evict : List Frame → ℕ → List Frame × ℕ
  | f :: g :: rest, bytes =>
    if bytes > limit then evict (g :: rest) (bytes - cost f) else (f :: g :: rest, bytes)
  | frames, bytes => (frames, bytes)

def append (j : Journal) (f : Frame) : Journal :=
  let (frames, bytes) := evict (j.frames ++ [f]) (j.bytes + cost f)
  { j with frames := frames, bytes := bytes }

def textBytes (s : String) : List UInt8 := s.toUTF8.data.toList

def gapMessage : String := "older application logs were rotated"

def gap (first : UInt64) : Frame :=
  { type := "gap", message := gapMessage, sequence := first - 1 }

/-- The frames after a sequence number, until a batch is full. -/
def collect (after : UInt64) : ℕ → List Frame → List Frame
  | _, [] => []
  | size, f :: rest =>
    if f.sequence > after then
      if size + f.data.length ≥ batchSize then [f]
      else f :: collect after (size + f.data.length) rest
    else collect after size rest

def misses (j : Journal) (after : UInt64) : Bool :=
  match j.frames with
  | f :: _ => after + 1 < f.sequence
  | [] => false

def read (j : Journal) (after : UInt64) : List Frame :=
  (match j.frames with
    | f :: _ => if after + 1 < f.sequence then [gap f.sequence] else []
    | [] => []) ++ collect after 0 j.frames

/-- The lines of `path + ".1"` and of `path`; a missing file has none. -/
structure Files where
  old : List Frame := []
  cur : List Frame := []
  deriving DecidableEq, Repr

def Files.lines (files : Files) : List Frame := files.old ++ files.cur

def Files.full (enc : Encoding) (files : Files) : Bool := (files.cur.map enc.size).sum > limit

def Files.rotate (files : Files) : Files := ⟨files.cur, []⟩

def Files.add (files : Files) (f : Frame) : Files := { files with cur := files.cur ++ [f] }

def Files.store (enc : Encoding) (files : Files) (f : Frame) : Files :=
  (if files.full enc then files.rotate else files).add f

def load (j : Journal) (f : Frame) : Journal :=
  { j.append f with seq := if f.sequence > j.seq then f.sequence else j.seq }

/-- A scanner stops at the first line that is too long. -/
def scan (enc : Encoding) (j : Journal) (file : List Frame) : Journal :=
  (file.takeWhile fun f => enc.size f ≤ maxLine).foldl load j

def openFiles (enc : Encoding) (files : Files) : Journal :=
  scan enc (scan enc {} files.old) files.cur

def pieces : ℕ → List UInt8 → List (List UInt8)
  | 0, _ => []
  | n + 1, b => if b = [] then [] else b.take chunkSize :: pieces n (b.drop chunkSize)

def stamp (kind : String) (time : Time) : UInt64 → List (List UInt8) → List Frame
  | _, [] => []
  | seq, b :: rest =>
    { type := kind, data := b, sequence := seq + 1, time := time } :: stamp kind time (seq + 1) rest

def newFrames (j : Journal) (kind : String) (b : List UInt8) (time : Time) : List Frame :=
  stamp kind time j.seq (pieces b.length b)

def record (j : Journal) (f : Frame) : Journal := { j.append f with seq := f.sequence }

def write (j : Journal) (kind : String) (b : List UInt8) (time : Time) : Journal :=
  (j.newFrames kind b time).foldl record j

def writeFiles (enc : Encoding) (j : Journal) (files : Files) (kind : String) (b : List UInt8)
    (time : Time) : Files :=
  (j.newFrames kind b time).foldl (Files.store enc) files

section eviction
variable {frames : List Frame} {bytes : ℕ} {f : Frame} {j : Journal}

theorem evict_suffix : (evict frames bytes).1 <:+ frames := by
  fun_induction evict frames bytes with
  | case1 f g rest bytes hfull ih => exact ih.trans (List.suffix_cons f (g :: rest))
  | case2 | case3 => exact List.suffix_rfl

theorem append_suffix : (j.append f).frames <:+ j.frames ++ [f] := evict_suffix

/-- Adding frames one by one, where each addition may drop the oldest. -/
theorem foldl_suffix {σ : Type} (g : σ → Frame → σ) (view : σ → List Frame)
    (h : ∀ s f, view (g s f) <:+ view s ++ [f]) (s : σ) (fs : List Frame) :
    view (fs.foldl g s) <:+ view s ++ fs := by
  induction fs generalizing s with
  | nil => simp
  | cons f fs ih =>
    obtain ⟨front, hfront⟩ := h s f
    refine (ih (g s f)).trans ⟨front, ?_⟩
    rw [← List.append_assoc, hfront, List.append_assoc, List.singleton_append]

theorem evict_bytes (h : bytes = (frames.map cost).sum) :
    (evict frames bytes).2 = ((evict frames bytes).1.map cost).sum ∧
      ((evict frames bytes).2 ≤ limit ∨ (evict frames bytes).1.length ≤ 1) := by
  fun_induction evict frames bytes with
  | case1 f g rest bytes hfull ih =>
    apply ih
    rw [h, List.map_cons, List.sum_cons]
    omega
  | case2 f g rest bytes hfit => exact ⟨h, Or.inl (by omega)⟩
  | case3 frames bytes hshort =>
    refine ⟨h, Or.inr ?_⟩
    match frames, hshort with
    | [], _ => simp
    | [f], _ => simp
    | f :: g :: rest, hshort => exact absurd rfl (hshort f g rest)

end eviction

def number (f : Frame) : ℕ := f.sequence.toNat

theorem number_lt (f : Frame) : number f < 2 ^ 64 := f.sequence.toNat_lt

theorem toNat_succ {n : UInt64} (h : n.toNat + 1 < 2 ^ 64) : (n + 1).toNat = n.toNat + 1 := by
  rw [UInt64.toNat_add, UInt64.toNat_one]
  omega

theorem toNat_pred {n : UInt64} (h : 1 ≤ n.toNat) : (n - 1).toNat + 1 = n.toNat := by
  have hle : 1 ≤ n := UInt64.le_iff_toNat_le.2 h
  rw [UInt64.toNat_sub_of_le _ _ hle, UInt64.toNat_one]
  omega

section writing
variable {b p : List UInt8} {ps : List (List UInt8)} {kind : String} {time : Time} {seq : UInt64}
  {n : ℕ} {f : Frame}

theorem mem_pieces (h : p ∈ pieces n b) : p ≠ [] ∧ p.length ≤ chunkSize := by
  induction n generalizing b with
  | zero => cases h
  | succ n ih =>
    unfold pieces at h
    split_ifs at h with hb
    · cases h
    · rcases List.mem_cons.1 h with rfl | h
      · refine ⟨?_, List.length_take_le _ _⟩
        simpa [chunkSize] using hb
      · exact ih h

theorem pieces_short (hb : b ≠ []) (hlen : b.length ≤ chunkSize) : pieces b.length b = [b] := by
  obtain ⟨n, hn⟩ : ∃ n, b.length = n + 1 := Nat.exists_eq_succ_of_ne_zero (by simpa using hb)
  have hrest : pieces n (b.drop chunkSize) = [] := by
    rw [List.drop_of_length_le hlen]
    cases n <;> rfl
  rw [hn, pieces, if_neg hb, List.take_of_length_le hlen, hrest]

theorem length_stamp : (stamp kind time seq ps).length = ps.length := by
  induction ps generalizing seq with
  | nil => rfl
  | cons p ps ih => simp [stamp, ih]

theorem consecutive_stamp (h : seq.toNat + ps.length < 2 ^ 64) :
    Consecutive number (seq.toNat + 1) (stamp kind time seq ps) := by
  induction ps generalizing seq with
  | nil => trivial
  | cons p ps ih =>
    rw [List.length_cons] at h
    have hsucc : (seq + 1).toNat = seq.toNat + 1 := toNat_succ (by omega)
    refine ⟨hsucc, ?_⟩
    have hroom : (seq + 1).toNat + ps.length < 2 ^ 64 := by omega
    have hi := ih hroom
    rwa [hsucc] at hi

theorem mem_stamp (h : f ∈ stamp kind time seq ps) :
    f.type = kind ∧ f.data ∈ ps ∧ f.message = "" ∧ f.code = none := by
  induction ps generalizing seq with
  | nil => cases h
  | cons p ps ih =>
    rcases List.mem_cons.1 h with rfl | h
    · exact ⟨rfl, List.mem_cons_self .., rfl, rfl⟩
    · obtain ⟨hkind, hdata, hrest⟩ := ih h
      exact ⟨hkind, List.mem_cons_of_mem p hdata, hrest⟩

theorem written_newFrames {j : Journal} (hkind : kind.length ≤ 6)
    (h : f ∈ j.newFrames kind b time) : Written f ∧ f.type = kind := by
  obtain ⟨rfl, hdata, hmessage, hcode⟩ := mem_stamp h
  obtain ⟨hne, hlen⟩ := mem_pieces hdata
  exact ⟨⟨hne, hlen, hkind, hmessage, hcode⟩, rfl⟩

/-- A frame's data makes one frame again, and no data makes none. -/
theorem newFrames_short {j : Journal} (hb : b ≠ []) (hlen : b.length ≤ chunkSize) :
    j.newFrames kind b time =
      [{ type := kind, data := b, sequence := j.seq + 1, time := time }] := by
  unfold newFrames
  rw [pieces_short hb hlen]
  rfl

theorem foldl_record_seq {j : Journal} {fs : List Frame}
    (h : Consecutive number (j.seq.toNat + 1) fs) :
    (fs.foldl record j).seq.toNat = j.seq.toNat + fs.length := by
  induction fs generalizing j with
  | nil => rfl
  | cons f fs ih =>
    have hseq : (j.record f).seq.toNat = j.seq.toNat + 1 := h.1
    have hi := ih (j := j.record f) (by rw [hseq]; exact h.2)
    rw [List.foldl_cons, hi, hseq, List.length_cons]
    omega

theorem write_seq {j : Journal} (h : j.seq.toNat + (pieces b.length b).length < 2 ^ 64) :
    (j.write kind b time).seq.toNat = j.seq.toNat + (pieces b.length b).length := by
  have hfs : Consecutive number (j.seq.toNat + 1) (j.newFrames kind b time) := consecutive_stamp h
  unfold write
  rw [foldl_record_seq hfs]
  exact congrArg _ length_stamp

end writing

structure Kept (files : Files) (j : Journal) : Prop where
  memory : UpTo number j.seq.toNat j.frames
  lines : UpTo number j.seq.toNat files.lines
  started : files.lines = [] → j.seq = 0
  written : ∀ f ∈ j.frames, Written f
  stored : ∀ f ∈ files.lines, Written f

section kept
variable {enc : Encoding} {files : Files} {j : Journal} {f : Frame} {fs : List Frame}

theorem kept_empty : Kept {} {} := ⟨upTo_nil, upTo_nil, fun _ => rfl, by simp, by simp [Files.lines]⟩

theorem store_suffix : (files.store enc f).lines <:+ files.lines ++ [f] := by
  unfold Files.store
  split
  · refine ⟨files.old, ?_⟩
    simp [Files.lines, Files.add, Files.rotate]
  · refine ⟨[], ?_⟩
    simp [Files.lines, Files.add]

theorem mem_store : f ∈ (files.store enc f).lines := by
  unfold Files.store Files.lines Files.add
  simp

theorem Kept.record (h : Kept files j) (hf : number f = j.seq.toNat + 1) (hw : Written f) :
    Kept (files.store enc f) (j.record f) := by
  have hseq : (j.record f).seq.toNat = j.seq.toNat + 1 := hf
  have hmem : (j.record f).frames <:+ j.frames ++ [f] := append_suffix
  refine ⟨?_, ?_, fun hnil => ?_, fun g hg => ?_, fun g hg => ?_⟩
  · rw [hseq]
    exact (h.memory.append hf).suffix hmem
  · rw [hseq]
    exact (h.lines.append hf).suffix store_suffix
  · have hmem : f ∈ (files.store enc f).lines := mem_store
    rw [hnil] at hmem
    cases hmem
  · rcases List.mem_append.1 (hmem.subset hg) with hg | hg
    · exact h.written g hg
    · rwa [List.mem_singleton.1 hg]
  · rcases List.mem_append.1 (store_suffix.subset hg) with hg | hg
    · exact h.stored g hg
    · rwa [List.mem_singleton.1 hg]

theorem Kept.recordAll (h : Kept files j) (hfs : Consecutive number (j.seq.toNat + 1) fs)
    (hw : ∀ f ∈ fs, Written f) :
    Kept (fs.foldl (Files.store enc) files) (fs.foldl Journal.record j) := by
  induction fs generalizing files j with
  | nil => exact h
  | cons f fs ih =>
    obtain ⟨hf, hrest⟩ := hfs
    have hseq : (j.record f).seq.toNat = j.seq.toNat + 1 := hf
    refine ih (h.record hf (hw f (List.mem_cons_self ..))) (by rwa [hseq]) ?_
    exact fun g hg => hw g (List.mem_cons_of_mem f hg)

theorem Kept.write {kind : String} {b : List UInt8} {time : Time} (h : Kept files j)
    (hkind : kind.length ≤ 6) (hroom : j.seq.toNat + (pieces b.length b).length < 2 ^ 64) :
    Kept (j.writeFiles enc files kind b time) (j.write kind b time) := by
  have hfs : Consecutive number (j.seq.toNat + 1) (j.newFrames kind b time) :=
    consecutive_stamp hroom
  exact h.recordAll hfs fun f hf => (written_newFrames hkind hf).1

theorem mem_write {kind : String} {b : List UInt8} {time : Time}
    (hf : f ∈ (j.write kind b time).frames) : f ∈ j.frames ∨ f ∈ j.newFrames kind b time :=
  List.mem_append.1
    ((foldl_suffix record frames (fun _ _ => append_suffix) j _).subset hf)

theorem mem_writeFiles {kind : String} {b : List UInt8} {time : Time}
    (hf : f ∈ (j.writeFiles enc files kind b time).lines) :
    f ∈ files.lines ∨ f ∈ j.newFrames kind b time :=
  List.mem_append.1
    ((foldl_suffix (Files.store enc) Files.lines (fun _ _ => store_suffix) files _).subset hf)

theorem foldl_load_seq {first : ℕ} (hfs : Consecutive number first fs) (hj : j.seq.toNat < first)
    (hne : fs ≠ []) : (fs.foldl load j).seq.toNat + 1 = first + fs.length := by
  induction fs generalizing j first with
  | nil => exact absurd rfl hne
  | cons f fs ih =>
    obtain ⟨rfl, hrest⟩ := hfs
    have hseq : (j.load f).seq = f.sequence := if_pos (UInt64.lt_iff_toNat_lt.2 hj)
    rw [List.foldl_cons, List.length_cons]
    by_cases hnil : fs = []
    · subst hnil
      rw [List.foldl_nil, hseq]
      rfl
    · have hi := ih hrest (j := j.load f) (by rw [hseq]; exact Nat.lt_succ_self _) hnil
      omega

theorem openFiles_of_fits (h : ∀ f ∈ files.lines, enc.size f ≤ maxLine) :
    openFiles enc files = files.lines.foldl load {} := by
  have hwhole : ∀ l : List Frame, (∀ f ∈ l, enc.size f ≤ maxLine) →
      l.takeWhile (fun f => decide (enc.size f ≤ maxLine)) = l := by
    intro l hl
    rw [List.takeWhile_eq_self_iff]
    exact fun f hf => decide_eq_true (hl f hf)
  unfold openFiles scan
  rw [hwhole files.old fun f hf => h f (List.mem_append_left _ hf),
    hwhole files.cur fun f hf => h f (List.mem_append_right _ hf), ← List.foldl_append]
  rfl

theorem openFiles_eq (h : ∀ f ∈ files.lines, Written f) :
    openFiles enc files = files.lines.foldl load {} :=
  openFiles_of_fits fun f hf => enc.fits f (h f hf)

theorem openFiles_suffix (h : ∀ f ∈ files.lines, Written f) :
    (openFiles enc files).frames <:+ files.lines := by
  rw [openFiles_eq h]
  exact foldl_suffix load frames (fun _ _ => append_suffix) {} files.lines

theorem mem_scan {file : List Frame} (hf : f ∈ (scan enc j file).frames) : f ∈ j.frames ∨ f ∈ file := by
  have hsuffix := foldl_suffix load frames (fun _ _ => append_suffix) j
    (file.takeWhile fun f => enc.size f ≤ maxLine)
  refine (List.mem_append.1 (hsuffix.subset hf)).imp_right fun hf => ?_
  exact (List.takeWhile_prefix _).subset hf

theorem mem_openFiles (hf : f ∈ (openFiles enc files).frames) : f ∈ files.lines := by
  refine List.mem_append.2 ((mem_scan hf).imp_left fun hf => ?_)
  exact (mem_scan hf).resolve_left List.not_mem_nil

theorem Kept.reopen (h : Kept files j) :
    Kept files (openFiles enc files) ∧ (openFiles enc files).seq = j.seq := by
  have hsuffix : (openFiles enc files).frames <:+ files.lines := openFiles_suffix h.stored
  have hseq : (openFiles enc files).seq = j.seq := by
    rw [openFiles_eq h.stored]
    obtain ⟨first, hlines, hlen, hpos⟩ := h.lines
    by_cases hnil : files.lines = []
    · rw [h.started hnil, hnil]
      rfl
    · have hlast := foldl_load_seq hlines (j := {}) hpos hnil
      exact UInt64.toNat_inj.1 (by omega)
  refine ⟨⟨?_, ?_, fun hnil => ?_, fun f hf => h.stored f (hsuffix.subset hf), h.stored⟩, hseq⟩
  · rw [hseq]
    exact h.lines.suffix hsuffix
  · rw [hseq]
    exact h.lines
  · rw [hseq]
    exact h.started hnil

end kept

/-- A journal that has loaded `l` keeps the longest end of it that fits. -/
structure Loaded (l : List Frame) (j : Journal) : Prop where
  suffix : j.frames <:+ l
  bytes : j.bytes = (j.frames.map cost).sum
  bounded : j.bytes ≤ limit ∨ j.frames.length ≤ 1
  longest : ∀ t, t <:+ l → (t.map cost).sum ≤ limit → t <:+ j.frames

section loaded
variable {enc : Encoding} {l t frames : List Frame} {bytes : ℕ} {j : Journal} {f : Frame}

theorem suffix_evict (h : bytes = (frames.map cost).sum) (ht : t <:+ frames)
    (hfits : (t.map cost).sum ≤ limit) : t <:+ (evict frames bytes).1 := by
  fun_induction evict frames bytes with
  | case1 f g rest bytes hfull ih =>
    rcases List.suffix_cons_iff.1 ht with rfl | ht
    · omega
    · apply ih _ ht
      rw [h, List.map_cons, List.sum_cons]
      omega
  | case2 | case3 => exact ht

theorem loaded_empty : Loaded [] {} := by
  refine ⟨List.suffix_rfl, rfl, Or.inl (Nat.zero_le _), fun t ht _ => ht⟩

theorem Loaded.append (h : Loaded l j) : Loaded (l ++ [f]) (j.append f) := by
  have hcost : j.bytes + cost f = ((j.frames ++ [f]).map cost).sum := by simp [h.bytes]
  obtain ⟨hbytes, hbounded⟩ := evict_bytes hcost
  refine ⟨?_, hbytes, hbounded, fun t ht hfits => ?_⟩
  · obtain ⟨front, hfront⟩ := h.suffix
    refine append_suffix.trans ⟨front, ?_⟩
    rw [← List.append_assoc, hfront]
  · refine suffix_evict hcost ?_ hfits
    rcases List.suffix_concat_iff.1 ht with rfl | ⟨t', rfl, ht'⟩
    · exact List.nil_suffix
    · have hrest : (t'.map cost).sum ≤ limit := by
        rw [List.map_append, List.sum_append] at hfits
        omega
      obtain ⟨front, hfront⟩ := h.longest t' ht' hrest
      refine ⟨front, ?_⟩
      rw [← List.append_assoc, hfront]

theorem Loaded.load (h : Loaded l j) : Loaded (l ++ [f]) (j.load f) :=
  ⟨h.append.suffix, h.append.bytes, h.append.bounded, h.append.longest⟩

theorem Loaded.record (h : Loaded l j) : Loaded (l ++ [f]) (j.record f) :=
  ⟨h.append.suffix, h.append.bytes, h.append.bounded, h.append.longest⟩

theorem loaded_foldl {fs : List Frame} (h : Loaded l j) : Loaded (l ++ fs) (fs.foldl Journal.load j) := by
  induction fs generalizing l j with
  | nil => rwa [List.append_nil]
  | cons f fs ih =>
    have hnext : Loaded (l ++ [f] ++ fs) (fs.foldl Journal.load (j.load f)) := ih h.load
    rwa [List.append_assoc, List.singleton_append] at hnext

theorem loaded_of_fits {files : Files} (h : ∀ f ∈ files.lines, enc.size f ≤ maxLine) :
    Loaded files.lines (openFiles enc files) := by
  rw [openFiles_of_fits h]
  exact loaded_foldl loaded_empty

theorem loaded_openFiles {files : Files} (h : ∀ f ∈ files.lines, Written f) :
    Loaded files.lines (openFiles enc files) :=
  loaded_of_fits fun f hf => enc.fits f (h f hf)

theorem cost_le_of_short (h : f.data.length ≤ chunkSize) : cost f ≤ limit := by
  unfold chunkSize at h
  unfold cost limit
  omega

theorem cost_le_limit (h : Written f) : cost f ≤ limit := cost_le_of_short h.short

theorem Loaded.ne_nil (h : Loaded l j) (hne : l ≠ []) (hcost : ∀ f ∈ l, cost f ≤ limit) :
    j.frames ≠ [] := by
  obtain ⟨init, f, rfl⟩ := (List.eq_nil_or_concat' l).resolve_left hne
  have hlast : [f] <:+ j.frames := by
    apply h.longest [f] (List.suffix_append init [f])
    simpa using hcost f (by simp)
  intro hnil
  rw [hnil] at hlast
  cases List.suffix_nil.1 hlast

theorem Loaded.fits (h : Loaded l j) (hcost : ∀ f ∈ l, cost f ≤ limit) :
    (j.frames.map cost).sum ≤ limit := by
  rw [← h.bytes]
  rcases h.bounded with hle | hlen
  · exact hle
  · rw [h.bytes]
    match hframes : j.frames, hlen with
    | [], _ => exact Nat.zero_le _
    | [f], _ =>
      have hf : f ∈ l := h.suffix.subset (by simp [hframes])
      simpa using hcost f hf

/-- Loading an end of `l` keeps an end of what loading `l` keeps. -/
theorem Loaded.mono {l' : List Frame} {j' : Journal} (h : Loaded l j) (h' : Loaded l' j')
    (hsuffix : l' <:+ l) (hcost : ∀ f ∈ l, cost f ≤ limit) : j'.frames <:+ j.frames := by
  apply h.longest j'.frames (h'.suffix.trans hsuffix)
  exact h'.fits fun f hf => hcost f (hsuffix.subset hf)

end loaded

section reading
variable {j : Journal} {after : UInt64} {n size : ℕ} {fs : List Frame}

theorem collect_prefix : collect after size fs <+: fs.filter fun f => decide (after.toNat < number f) := by
  induction fs generalizing size with
  | nil => exact List.prefix_rfl
  | cons f fs ih =>
    have hlt : f.sequence > after ↔ after.toNat < number f := UInt64.lt_iff_toNat_lt
    unfold collect
    by_cases hf : after.toNat < number f
    · rw [if_pos (hlt.2 hf), List.filter_cons_of_pos (by simpa using hf)]
      split
      · exact List.cons_prefix_cons.2 ⟨rfl, List.nil_prefix⟩
      · exact List.cons_prefix_cons.2 ⟨rfl, ih⟩
    · rw [if_neg (mt hlt.1 hf), List.filter_cons_of_neg (by simpa using hf)]
      exact ih

theorem collect_ne_nil (h : ∃ f ∈ fs, after.toNat < number f) : collect after size fs ≠ [] := by
  induction fs generalizing size with
  | nil => simp at h
  | cons f fs ih =>
    have hlt : f.sequence > after ↔ after.toNat < number f := UInt64.lt_iff_toNat_lt
    unfold collect
    by_cases hf : after.toNat < number f
    · rw [if_pos (hlt.2 hf)]
      split <;> simp
    · rw [if_neg (mt hlt.1 hf)]
      obtain ⟨g, hg, hafter⟩ := h
      rcases List.mem_cons.1 hg with rfl | hg
      · exact absurd hafter hf
      · exact ih ⟨g, hg, hafter⟩

theorem mem_collect {f : Frame} (h : f ∈ collect after size fs) :
    f ∈ fs ∧ after.toNat < number f := by
  have hf := collect_prefix.subset h
  rw [List.mem_filter] at hf
  exact ⟨hf.1, of_decide_eq_true hf.2⟩

/-- If the frame after the given one is kept, the batch begins with it. -/
theorem read_retained (h : UpTo number n j.frames) (hmiss : j.misses after = false) :
    j.read after = collect after 0 j.frames ∧
      Consecutive number (after.toNat + 1) (j.read after) := by
  have hread : j.read after = collect after 0 j.frames := by
    unfold misses at hmiss
    unfold read
    split at hmiss
    · rw [if_neg (of_decide_eq_false hmiss), List.nil_append]
    · rfl
  refine ⟨hread, ?_⟩
  rw [hread]
  obtain ⟨first, hfirst, hlen, hpos⟩ := h
  cases hframes : j.frames with
  | nil => trivial
  | cons f rest =>
    have hle : ¬ (after + 1).toNat < number f := by
      simp only [misses, hframes, decide_eq_false_iff_not] at hmiss
      exact mt UInt64.lt_iff_toNat_lt.2 hmiss
    have hf : number f = first := by
      rw [hframes] at hfirst
      exact hfirst.1
    have hmax : max first (after.toNat + 1) = after.toNat + 1 := by
      rw [UInt64.toNat_add, UInt64.toNat_one] at hle
      omega
    have hfilter := hfirst.filter after.toNat
    rw [hmax, hframes] at hfilter
    exact hfilter.of_prefix collect_prefix

/-- Otherwise the batch is a gap followed by the first frames kept. -/
theorem read_missed (h : UpTo number n j.frames) (hmiss : j.misses after = true)
    (hafter : after.toNat + 1 < 2 ^ 64) :
    ∃ first batch, j.read after = gap first :: batch ∧ batch ≠ [] ∧ after.toNat + 1 < first.toNat ∧
      Consecutive number first.toNat batch ∧ ∀ f ∈ batch, f ∈ j.frames := by
  unfold misses at hmiss
  split at hmiss
  · rename_i f rest hframes
    have hlt : after.toNat + 1 < number f := by
      have hlt := UInt64.lt_iff_toNat_lt.1 (of_decide_eq_true hmiss)
      rwa [toNat_succ hafter] at hlt
    obtain ⟨first, hfirst, hlen, hpos⟩ := h
    have hf : number f = first := by
      rw [hframes] at hfirst
      exact hfirst.1
    have hmax : max first (after.toNat + 1) = number f := by omega
    have hfilter := hfirst.filter after.toNat
    rw [hmax] at hfilter
    refine ⟨f.sequence, collect after 0 j.frames, ?_, ?_, hlt, hfilter.of_prefix collect_prefix,
      fun g hg => (mem_collect hg).1⟩
    · unfold read
      rw [hframes]
      exact congrArg (· ++ _) (if_pos (of_decide_eq_true hmiss))
    · exact collect_ne_nil ⟨f, by simp [hframes], by omega⟩
  · cases hmiss

/-- A batch is in the order of the numbers, and comes after the given number. -/
theorem read_ascending (h : UpTo number n j.frames) (hafter : after.toNat + 1 < 2 ^ 64) :
    (j.read after).Pairwise (fun f g => number f < number g) ∧
      ∀ f ∈ j.read after, after.toNat < number f ∧ number f ≤ n := by
  cases hmiss : j.misses after with
  | false =>
    obtain ⟨hread, hbatch⟩ := read_retained h hmiss
    refine ⟨hbatch.pairwise, fun f hf => ⟨(hbatch.bounds hf).1, ?_⟩⟩
    rw [hread] at hf
    exact (h.bounds (mem_collect hf).1).2
  | true =>
    obtain ⟨first, batch, hread, hne, hlt, hbatch, hin⟩ := read_missed h hmiss hafter
    have hgap : number (gap first) + 1 = first.toNat := toNat_pred (by omega)
    have hlow : ∀ f ∈ batch, number (gap first) < number f := fun f hf => by
      have hb := (hbatch.bounds hf).1
      omega
    rw [hread]
    refine ⟨List.pairwise_cons.2 ⟨hlow, hbatch.pairwise⟩, fun f hf => ?_⟩
    rcases List.mem_cons.1 hf with rfl | hf
    · obtain ⟨g, rest, rfl⟩ := List.exists_cons_of_ne_nil hne
      have hg := hlow g (List.mem_cons_self ..)
      have hle := (h.bounds (hin g (List.mem_cons_self ..))).2
      omega
    · have hb := (hbatch.bounds hf).1
      exact ⟨by omega, (h.bounds (hin f hf)).2⟩

/-- Nothing kept is left out of a batch before one of its frames. -/
theorem mem_read_of_le {f g : Frame} (h : UpTo number n j.frames) (hf : f ∈ j.frames)
    (hlow : after.toNat < number f) (hg : g ∈ j.read after) (hle : number f ≤ number g) :
    f ∈ j.read after := by
  obtain ⟨first, hfirst, _, hone⟩ := h
  obtain ⟨rest, hrest⟩ : collect after 0 j.frames <+:
    j.frames.filter fun f => decide (after.toNat < number f) := collect_prefix
  have hmem : f ∈ collect after 0 j.frames ++ rest := by
    rw [hrest, List.mem_filter]
    exact ⟨hf, decide_eq_true hlow⟩
  rcases List.mem_append.1 hmem with hmem | hmem
  · exact List.mem_append_right _ hmem
  exfalso
  rcases List.mem_append.1 hg with hg | hg
  · -- A gap is numbered before all frames kept.
    split at hg
    · rename_i head tail hframes
      split_ifs at hg with hmiss
      · obtain rfl := List.mem_singleton.1 hg
        have hhead : number head = first := by
          rw [hframes] at hfirst
          exact hfirst.1
        have hnum : number (gap head.sequence) + 1 = number head := toNat_pred (by
          change 1 ≤ number head
          omega)
        have hbound := (hfirst.bounds hf).1
        omega
      · cases hg
    · cases hg
  · have hsorted := hfirst.pairwise.filter fun f => decide (after.toNat < number f)
    rw [← hrest, List.pairwise_append] at hsorted
    have hlt := hsorted.2.2 g hg f hmem
    omega

theorem read_eq_nil (h : ∀ f ∈ j.frames, number f ≤ after.toNat) (hafter : after.toNat + 1 < 2 ^ 64) :
    j.read after = [] := by
  have hcollect : collect after 0 j.frames = [] := by
    rw [List.eq_nil_iff_forall_not_mem]
    intro f hf
    obtain ⟨hmem, hlt⟩ := mem_collect hf
    have hle := h f hmem
    omega
  unfold read
  rw [hcollect, List.append_nil]
  split
  · rename_i f rest hframes
    refine if_neg fun hlt => ?_
    have hle := h f (by simp [hframes])
    have hlt := UInt64.lt_iff_toNat_lt.1 hlt
    rw [toNat_succ hafter] at hlt
    change after.toNat + 1 < number f at hlt
    omega
  · rfl

theorem le_of_read_eq_nil {f : Frame} (h : j.read after = []) (hf : f ∈ j.frames) :
    number f ≤ after.toNat := by
  by_contra hlt
  have hne : collect after 0 j.frames ≠ [] := collect_ne_nil ⟨f, hf, by omega⟩
  exact hne (List.append_eq_nil_iff.1 h).2

end reading

end Journal
end Niflhel
