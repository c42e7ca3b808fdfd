import Mathlib.Data.List.Basic
import Mathlib.Data.List.TakeWhile

/-!
# Buffered line reading

The `ReadSlice` and `ReadLine` methods of Go's `bufio.Reader` over a source that delivers its
bytes in pieces. A read of the source yields at most one piece, as much of it as there is room in
the buffer. What a method returns depends only on the bytes that are still to be read, not on the
pieces.
-/

namespace LineReader

abbrev newline : UInt8 := 10

abbrev carriage : UInt8 := 13

structure Reader where
  size : ℕ
  buffer : List UInt8
  pieces : List (List UInt8)
  deriving DecidableEq

def newReader (size : ℕ) (pieces : List (List UInt8)) : Reader := ⟨max size 16, [], pieces⟩

def Reader.fill (r : Reader) : Option Reader :=
  match r.pieces with
  | [] => none
  | p :: rest =>
    let room := r.size - r.buffer.length
    if p.length ≤ room then some { r with buffer := r.buffer ++ p, pieces := rest }
    else some { r with buffer := r.buffer ++ p.take room, pieces := p.drop room :: rest }

inductive Slice where
  /-- A line with its newline. -/
  | line
  /-- The buffer is full without a newline. -/
  | full
  /-- The source has ended. -/
  | ended
  deriving DecidableEq

def readSlice : ℕ → Reader → Slice × List UInt8 × Reader
  | n, r =>
    match r.buffer.dropWhile (· != newline) with
    | _ :: rest =>
      (.line, r.buffer.takeWhile (· != newline) ++ [newline], { r with buffer := rest })
    | [] =>
      if r.size ≤ r.buffer.length then (.full, r.buffer, { r with buffer := [] })
      else match n with
        | 0 => (.ended, r.buffer, { r with buffer := [] })
        | n + 1 =>
          match r.fill with
          | none => (.ended, r.buffer, { r with buffer := [] })
          | some r => readSlice n r

def Reader.reads (r : Reader) : ℕ := r.pieces.flatten.length + r.pieces.length

/-- A line without its end, and whether it is only the beginning of one; `none` at the end. -/
def readLine (r : Reader) : Option (List UInt8 × Bool) × Reader :=
  match readSlice r.reads r with
  | (.full, line, r) =>
    -- A carriage return may belong to the end of the line.
    if line.getLast? = some carriage then
      (some (line.dropLast, true), { r with buffer := carriage :: r.buffer })
    else (some (line, true), r)
  | (.line, line, r) =>
    let line := line.dropLast
    (some (if line.getLast? = some carriage then line.dropLast else line, false), r)
  | (.ended, line, r) => if line = [] then (none, r) else (some (line, false), r)

def Reader.pending (r : Reader) : List UInt8 := r.buffer ++ r.pieces.flatten

theorem fill_spec {r : Reader} (hroom : r.buffer.length < r.size) (hmore : r.pieces.flatten ≠ []) :
    ∃ r', r.fill = some r' ∧ r'.pending = r.pending ∧ r'.size = r.size ∧
      r'.buffer.length ≤ r'.size ∧ r'.reads < r.reads := by
  obtain ⟨size, buffer, pieces⟩ := r
  cases pieces with
  | nil => exact absurd rfl hmore
  | cons p rest => ?_
  dsimp only at hroom
  by_cases hfit : p.length ≤ size - buffer.length
  · refine ⟨⟨size, buffer ++ p, rest⟩, if_pos hfit, by simp [Reader.pending], rfl, ?_, ?_⟩
    · simp only [List.length_append]
      omega
    · simp only [Reader.reads, List.flatten_cons, List.length_append, List.length_cons]
      omega
  · refine ⟨⟨size, buffer ++ p.take (size - buffer.length), p.drop (size - buffer.length) :: rest⟩,
      if_neg hfit, ?_, rfl, ?_, ?_⟩
    · change buffer ++ p.take _ ++ (p.drop _ :: rest).flatten = buffer ++ (p :: rest).flatten
      rw [List.flatten_cons, List.flatten_cons, List.append_assoc, ← List.append_assoc (p.take _),
        List.take_append_drop]
    · simp only [List.length_append, List.length_take]
      omega
    · simp only [Reader.reads, List.flatten_cons, List.length_append, List.length_cons,
        List.length_drop]
      omega

section
variable {r : Reader} {l rest : List UInt8}

theorem buffer_cases (hpending : r.pending = l ++ newline :: rest) :
    (∃ more, r.buffer = l ++ newline :: more ∧ rest = more ++ r.pieces.flatten) ∨
      ∃ more, l = r.buffer ++ more ∧ r.pieces.flatten = more ++ newline :: rest := by
  rcases List.append_eq_append_iff.1 hpending with ⟨more, hl, hflat⟩ | ⟨more, hbuffer, hrest⟩
  · exact .inr ⟨more, hl, hflat⟩
  · cases more with
    | nil => exact .inr ⟨[], by simpa using hbuffer.symm, by simpa using hrest.symm⟩
    | cons c more =>
      cases hrest
      exact .inl ⟨more, hbuffer, rfl⟩

theorem takeWhile_line (hl : newline ∉ l) (more : List UInt8) :
    (l ++ newline :: more).takeWhile (· != newline) = l ∧
      (l ++ newline :: more).dropWhile (· != newline) = newline :: more := by
  have hne : ∀ c ∈ l, (c != newline) = true := by
    intro c hc
    simpa using ne_of_mem_of_not_mem hc hl
  constructor
  · rw [List.takeWhile_append_of_pos hne]
    simp
  · rw [List.dropWhile_append_of_pos hne]
    simp

structure Leaves (r r' : Reader) (pending : List UInt8) : Prop where
  size : r'.size = r.size
  buffer : r'.buffer.length ≤ r'.size
  pending : r'.pending = pending

theorem Leaves.of_size {r₁ : Reader} (h : r₁.size = r.size) {r' : Reader} {pending : List UInt8} :
    Leaves r₁ r' pending ↔ Leaves r r' pending :=
  ⟨fun ⟨a, b, c⟩ => ⟨a.trans h, b, c⟩, fun ⟨a, b, c⟩ => ⟨a.trans h.symm, b, c⟩⟩

theorem readSlice_line {n : ℕ} {more : List UInt8} (hbuffer : r.buffer.length ≤ r.size)
    (hmore : r.buffer = l ++ newline :: more) (hrest : rest = more ++ r.pieces.flatten)
    (hl : newline ∉ l) : l.length < r.size ∧
      ∃ r', readSlice n r = (.line, l ++ [newline], r') ∧ Leaves r r' rest := by
  obtain ⟨htake, hdrop⟩ := takeWhile_line hl more
  rw [hmore, List.length_append, List.length_cons] at hbuffer
  refine ⟨by omega, { r with buffer := more }, ?_, rfl, ?_, hrest.symm⟩
  · unfold readSlice
    rw [hmore, hdrop, htake]
  · change more.length ≤ r.size
    omega

/-- With a line to come, `ReadSlice` returns the line, or as much of it as the buffer holds. -/
theorem readSlice_spec {n : ℕ} (hn : r.reads ≤ n) (hbuffer : r.buffer.length ≤ r.size)
    (hpending : r.pending = l ++ newline :: rest) (hl : newline ∉ l) :
    (l.length < r.size ∧ ∃ r', readSlice n r = (.line, l ++ [newline], r') ∧ Leaves r r' rest) ∨
      (r.size ≤ l.length ∧ ∃ r', readSlice n r = (.full, l.take r.size, r') ∧ r'.buffer = [] ∧
        Leaves r r' (l.drop r.size ++ newline :: rest)) := by
  induction n generalizing r with
  | zero =>
    rcases buffer_cases hpending with ⟨more, hmore, hrest⟩ | ⟨more, hmore, hflat⟩
    · exact .inl (readSlice_line hbuffer hmore hrest hl)
    · -- Something is to come, so that a read is left.
      have hlen := congrArg List.length hflat
      simp only [List.length_append, List.length_cons] at hlen
      unfold Reader.reads at hn
      omega
  | succ n ih =>
    rcases buffer_cases hpending with ⟨more, hmore, hrest⟩ | ⟨more, hmore, hflat⟩
    · exact .inl (readSlice_line hbuffer hmore hrest hl)
    · have hnone : r.buffer.dropWhile (· != newline) = [] := by
        rw [List.dropWhile_eq_nil_iff]
        intro c hc
        simpa using ne_of_mem_of_not_mem (hmore ▸ List.mem_append_left more hc) hl
      unfold readSlice
      rw [hnone]
      by_cases hfull : r.size ≤ r.buffer.length
      · rw [if_pos hfull]
        have hsize : r.size = r.buffer.length := le_antisymm hfull hbuffer
        refine .inr ⟨?_, { r with buffer := [] }, ?_, rfl, rfl, Nat.zero_le _, ?_⟩
        · rw [hmore, List.length_append]
          omega
        · rw [hmore, hsize, List.take_left]
        · rw [hmore, hsize, List.drop_left]
          exact hflat
      · rw [if_neg hfull]
        obtain ⟨r₁, hfill, hsame, hsize, hle, hreads⟩ :=
          fill_spec (not_le.1 hfull) (by simp [hflat])
        rw [hfill, ← hsize]
        have hnext := ih (by omega) hle (hsame.trans hpending)
        simpa only [Leaves.of_size hsize] using hnext

/-- With a line to come that does not end in a carriage return, `ReadLine` returns the line, or a
beginning of it and leaves the rest. -/
theorem readLine_spec (hsize : 2 ≤ r.size) (hbuffer : r.buffer.length ≤ r.size)
    (hpending : r.pending = l ++ newline :: rest) (hl : newline ∉ l)
    (hend : l.getLast? ≠ some carriage) :
    (∃ r', readLine r = (some (l, false), r') ∧ Leaves r r' rest) ∨
      ∃ part more r', l = part ++ more ∧ part ≠ [] ∧ readLine r = (some (part, true), r') ∧
        Leaves r r' (more ++ newline :: rest) := by
  unfold readLine
  rcases readSlice_spec le_rfl hbuffer hpending hl with ⟨-, r', hread, hr'⟩ |
    ⟨hlen, r', hread, hempty, hr'⟩
  · rw [hread]
    refine .inl ⟨r', ?_, hr'⟩
    simp only [List.dropLast_concat, if_neg hend]
  · rw [hread]
    have htake : (l.take r.size).length = r.size := List.length_take_of_le hlen
    have hsplit : l = l.take r.size ++ l.drop r.size := (List.take_append_drop _ _).symm
    refine .inr ?_
    by_cases hcr : (l.take r.size).getLast? = some carriage
    · have hback := List.dropLast_append_getLast? carriage hcr
      refine ⟨(l.take r.size).dropLast, carriage :: l.drop r.size, _, ?_, ?_, if_pos hcr, hr'.size,
        ?_, ?_⟩
      · rw [← List.singleton_append, ← List.append_assoc, hback, ← hsplit]
      · rw [← List.length_pos_iff, List.length_dropLast, htake]
        omega
      · rw [hempty]
        change 1 ≤ r'.size
        rw [hr'.size]
        omega
      · exact congrArg (carriage :: ·) hr'.pending
    · refine ⟨l.take r.size, l.drop r.size, r', hsplit, ?_, if_neg hcr, hr'⟩
      rw [← List.length_pos_iff, htake]
      omega

end

end LineReader
