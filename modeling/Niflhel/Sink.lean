import Niflhel.Base
import Niflhel.Journal

/-!
# The console log

`Sink` appends what it reads to a file. When a chunk would take the file past the limit, the file
replaces the one before it, `path.1`, and a new file is begun. Every file operation may fail, and
a failed write may have written a part of the chunk.
-/

namespace Niflhel.Sink
open Journal

inductive Op where
  | openFile
  | stat
  | close
  | remove
  | rename
  | truncate
  | sync
  deriving DecidableEq

structure Faults where
  op : Op → Option String
  write : Option (ℕ × String)

def noFaults : Faults := ⟨fun _ => none, none⟩

structure State where
  file : Option Bytes
  old : Option Bytes
  size : ℕ

def bufferSize : ℕ := 32 * 2 ^ 10

def rotate (x : Faults) (s : State) : State × Option String :=
  if let some e := x.op .close then (s, some e)
  -- A missing file is no error.
  else if let some e := s.old.bind fun _ => x.op .remove then (s, some e)
  else if let some e := x.op .rename then ({ s with old := none }, some e)
  else if let some e := x.op .truncate then ({ s with file := none, old := s.file }, some e)
  else (⟨some [], s.file, 0⟩, none)

def write (x : Faults) (s : State) (chunk : Bytes) : State × Option String :=
  match x.write with
  | some (n, e) => ({ s with file := s.file.map (· ++ chunk.take n) }, some e)
  | none => ({ s with file := s.file.map (· ++ chunk), size := s.size + chunk.length }, none)

def accept (x : Faults) (s : State) (chunk : Bytes) : State × Option String :=
  if s.size + chunk.length > limit then
    match rotate x s with
    | (s, some e) => (s, some e)
    | (s, none) => write x s chunk
  else write x s chunk

/-- The loop, with the faults at each chunk and the error that ends the input. -/
def loop (faults : ℕ → Faults) (final : Option String) : State → List Bytes → State × Option String
  | s, [] =>
    match final with
    | some e => (s, some e)
    | none => (s, (faults 0).op .sync)
  | s, chunk :: rest =>
    match accept (faults 0) s chunk with
    | (s, some e) => (s, some e)
    | (s, none) => loop (fun n => faults (n + 1)) final s rest

def sink (x : Faults) (faults : ℕ → Faults) (final : Option String) (file old : Option Bytes)
    (chunks : List Bytes) : State × Option String :=
  if let some e := x.op .openFile then (⟨file, old, 0⟩, some e)
  else
    let content := file.getD []
    if let some e := x.op .stat then (⟨some content, old, 0⟩, some e)
    else loop faults final ⟨some content, old, content.length⟩ chunks

def State.kept (s : State) : Bytes := s.old.getD [] ++ s.file.getD []

/-- The files after `input`, from a file `file` and an older one `old`. -/
structure Bounded (old file input : Bytes) (s : State) : Prop where
  size : ∃ content, s.file = some content ∧ s.size = content.length
  file_le : (s.file.getD []).length ≤ limit
  old_le : (s.old.getD []).length ≤ limit
  suffix : s.kept <:+ old ++ file ++ input
  /-- Nothing has been dropped, or the older file is almost full. -/
  full : s.file = some (file ++ input) ∨ limit < (s.old.getD []).length + bufferSize

section
variable {old file input chunk : Bytes} {s : State}

theorem accept_noFaults : accept noFaults s chunk =
    if s.size + chunk.length > limit then (⟨some chunk, s.file, chunk.length⟩, none)
    else (⟨s.file.map (· ++ chunk), s.old, s.size + chunk.length⟩, none) := by
  have hremove : (s.old.bind fun _ => noFaults.op .remove) = none := by
    cases s.old <;> rfl
  have hrotate : rotate noFaults s = (⟨some [], s.file, 0⟩, none) := by
    unfold rotate
    rw [hremove]
    rfl
  unfold accept
  rw [hrotate]
  simp [write, noFaults]

theorem Bounded.accept (h : Bounded old file input s) (hchunk : chunk.length ≤ bufferSize) :
    Bounded old file (input ++ chunk) (accept noFaults s chunk).1 := by
  obtain ⟨content, hcontent, hsize⟩ := h.size
  have hfile := h.file_le
  have hsuffix := h.suffix
  have hfull := h.full
  rw [State.kept, hcontent] at hsuffix
  rw [hcontent] at hfile hfull
  simp only [Option.getD_some] at hsuffix hfile
  have hbuffer : bufferSize ≤ limit := by decide
  rw [accept_noFaults, hsize, hcontent]
  split_ifs with hlimit
  · refine ⟨⟨chunk, rfl, rfl⟩, ?_, hfile, ?_, .inr ?_⟩
    · exact hchunk.trans hbuffer
    · -- The older file is dropped, and what is left is still at the end.
      have hcurrent : content <:+ old ++ file ++ input := (List.suffix_append _ _).trans hsuffix
      rw [← List.append_assoc]
      exact List.suffix_append_self_iff.2 hcurrent
    · change limit < content.length + bufferSize
      omega
  · refine ⟨⟨content ++ chunk, rfl, by simp⟩, ?_, h.old_le, ?_, ?_⟩
    · change (content ++ chunk).length ≤ limit
      rw [List.length_append]
      omega
    · rw [State.kept, ← List.append_assoc]
      change s.old.getD [] ++ (content ++ chunk) <:+ _
      rw [← List.append_assoc]
      exact List.suffix_append_self_iff.2 hsuffix
    · refine hfull.imp (fun hall => ?_) id
      rw [Option.some.inj hall, Option.map_some, List.append_assoc]

theorem Bounded.loop {final : Option String} {chunks : List Bytes} (h : Bounded old file input s)
    (hchunks : ∀ chunk ∈ chunks, chunk.length ≤ bufferSize) :
    Bounded old file (input ++ chunks.flatten) (loop (fun _ => noFaults) final s chunks).1 := by
  induction chunks generalizing input s with
  | nil =>
    rw [List.flatten_nil, List.append_nil]
    cases final <;> exact h
  | cons chunk chunks ih =>
    obtain ⟨hchunk, hchunks⟩ := List.forall_mem_cons.1 hchunks
    have hnext := h.accept hchunk
    have hok : (Sink.accept noFaults s chunk).2 = none := by
      rw [accept_noFaults]
      split_ifs <;> rfl
    unfold Sink.loop
    rw [show Sink.accept noFaults s chunk = ((Sink.accept noFaults s chunk).1, none) from
      Prod.ext rfl hok, List.flatten_cons, ← List.append_assoc]
    exact ih hnext hchunks

end

/-- After every chunk both files are within the limit, they hold the end of what they held and of
the input, and if the input has filled the file, all but the last part of a file. -/
theorem sink_bounded (file old : Option Bytes) (chunks : List Bytes) (final : Option String)
    (hfile : (file.getD []).length ≤ limit) (hold : (old.getD []).length ≤ limit)
    (hchunks : ∀ chunk ∈ chunks, 1 ≤ chunk.length ∧ chunk.length ≤ bufferSize) :
    let s := (sink noFaults (fun _ => noFaults) final file old chunks).1
    (s.file.getD []).length ≤ limit ∧ (s.old.getD []).length ≤ limit ∧
      s.kept <:+ old.getD [] ++ file.getD [] ++ chunks.flatten ∧
      (limit < (file.getD []).length + chunks.flatten.length →
        limit - bufferSize ≤ s.kept.length) := by
  have hstart : Bounded (old.getD []) (file.getD []) []
      ⟨some (file.getD []), old, (file.getD []).length⟩ :=
    ⟨⟨_, rfl, rfl⟩, hfile, hold, by simp [State.kept], .inl (by simp)⟩
  have h := @Bounded.loop _ _ _ _ final chunks hstart fun chunk hmem => (hchunks chunk hmem).2
  have hsink : sink noFaults (fun _ => noFaults) final file old chunks = loop (fun _ => noFaults)
      final ⟨some (file.getD []), old, (file.getD []).length⟩ chunks := rfl
  rw [hsink]
  refine ⟨h.file_le, h.old_le, h.suffix, fun hinput => ?_⟩
  have hkept : ∀ s : State, s.kept.length = (s.old.getD []).length + (s.file.getD []).length :=
    fun _ => List.length_append
  have hle := h.file_le
  rcases h.full with hall | hfull
  · rw [hall] at hle
    simp only [Option.getD_some, List.length_append] at hle
    omega
  · rw [hkept]
    omega

theorem sink_rotates {full chunk : Bytes} (old : Option Bytes)
    (hover : limit < full.length + chunk.length) :
    (sink noFaults (fun _ => noFaults) none (some full) old [chunk]).1 =
      ⟨some chunk, some full, chunk.length⟩ := by
  change (loop (fun _ => noFaults) none ⟨some full, old, full.length⟩ [chunk]).1 = _
  rw [loop, accept_noFaults, if_pos hover]
  rfl

theorem sink_bounded_rotation : let full : Bytes := List.replicate limit 1
    let s := (sink noFaults (fun _ => noFaults) none (some full) (some [0]) [[2, 3]]).1
    s.file = some [2, 3] ∧ s.old = some full ∧ s.kept <:+ [0] ++ full ++ [2, 3] ∧
      limit - bufferSize ≤ s.kept.length := by
  have hlength : (List.replicate limit 1 : Bytes).length = limit := List.length_replicate
  generalize (List.replicate limit 1 : Bytes) = full at hlength ⊢
  have hover : limit < full.length + ([2, 3] : Bytes).length := by simp [hlength]
  have hbounds := sink_bounded (some full) (some [0]) [[2, 3]] none hlength.le (by decide) (by decide)
  have hmoved := sink_rotates (some [0]) hover
  exact ⟨congrArg State.file hmoved, congrArg State.old hmoved, hbounds.2.2.1, hbounds.2.2.2 hover⟩

end Niflhel.Sink
