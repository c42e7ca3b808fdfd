import Niflhel.Transfer

/-!
# Extractions that wait

An extraction reads its stream while it comes in. Given the bytes so far it either asks for
more of them, whatever ends the stream, or it has failed, whatever follows.
-/

namespace Niflhel
namespace Filecopy
open GoText

variable {σ : Type}

/-- Whether the extraction needs more than the bytes so far: it ends with whatever error ends
the stream. Two errors tell this from an error of its own. -/
def asks (F : Tar.Format) (fs : FileSystem σ) (st : σ) (dest : String) (b : Bytes) : Bool :=
  (extract F fs st dest ⟨b, .error "first"⟩).2 = some "first" ∧
    (extract F fs st dest ⟨b, .error "second"⟩).2 = some "second"

section
variable {F : Tar.Format} {fs : FileSystem σ} {dest : String} {n pad : ℕ} {total : ℤ} {b : Bytes}
  {st : σ} {h : Tar.Header} {p : String}

theorem extractFile_asks_or : (∀ m, (extractFile fs st p h (.error m) b).2 = some m) ∨
    ∃ x, ∀ e, extractFile fs st p h e b = x := by
  unfold extractFile
  split
  · exact Or.inr ⟨_, fun _ => rfl⟩
  · split
    · exact Or.inr ⟨_, fun _ => rfl⟩
    · dsimp only
      split
      · exact Or.inr ⟨_, fun _ => rfl⟩
      · by_cases hshort : (b.take h.size.toNat).length < h.size.toNat
        · left
          intro m
          rw [if_pos hshort]
          rfl
        · right
          simp only [if_neg hshort]
          exact ⟨_, fun _ => rfl⟩

theorem extractLoop_asks_or :
    (∀ m, (extractLoop F fs dest (.error m) false n total pad b st).2 = some m) ∨
      ∃ m, ∀ e, (extractLoop F fs dest e false n total pad b st).2 = some m := by
  induction n using Nat.strong_induction_on generalizing total pad b st with
  | _ n ih =>
    have hnext : Tar.Blocks (Tar.next F · (b.length + 1) pad [] b) ∨
        Tar.Decides (Tar.next F · (b.length + 1) pad [] b) := Tar.next_blocks_or
    unfold extractLoop
    rcases hnext with hblock | ⟨x, hx⟩
    · left
      intro m
      simp only [hblock m]
    simp only [hx]
    cases x with
    | eof => exact Or.inl fun m => rfl
    | failed m => exact Or.inr ⟨m, fun _ => rfl⟩
    | ok h rest => ?_
    cases n with
    | zero => exact Or.inr ⟨_, fun _ => rfl⟩
    | succ n => ?_
    dsimp only
    split
    · exact Or.inr ⟨_, fun _ => rfl⟩
    split
    · exact Or.inr ⟨_, fun _ => rfl⟩
    split
    · split
      · exact Or.inr ⟨_, fun _ => rfl⟩
      · exact ih n n.lt_succ_self
    split
    · split
      · exact Or.inr ⟨_, fun _ => rfl⟩
      · rename_i name _ _ _ _ _
        have hfile : (∀ m, (extractFile fs st (pathJoin dest name) h (.error m) rest).2 = some m) ∨
            ∃ x, ∀ e, extractFile fs st (pathJoin dest name) h e rest = x := extractFile_asks_or
        rcases hfile with hasks | ⟨⟨st', r⟩, hx⟩
        · left
          intro m
          have hpair : extractFile fs st (pathJoin dest name) h (.error m) rest =
              ((extractFile fs st (pathJoin dest name) h (.error m) rest).1, some m) :=
            Prod.ext rfl (hasks m)
          rw [hpair]
        · simp only [hx]
          cases r with
          | some m => exact Or.inr ⟨m, fun _ => rfl⟩
          | none => exact ih n n.lt_succ_self
    · exact Or.inr ⟨_, fun _ => rfl⟩

/-- Given the bytes so far, the extraction asks for more or has failed. -/
theorem extract_asks_or : (∀ m, (extract F fs st dest ⟨b, .error m⟩).2 = some m) ∨
    ∃ m, ∀ e, (extract F fs st dest ⟨b, e⟩).2 = some m := by
  cases hc : clean dest with
  | error m => exact Or.inr ⟨m, fun e => by simp [extract, hc]⟩
  | ok name =>
    by_cases hlimit : streamLimit ≤ b.length
    · -- The limit is reached, and the rest of the stream is not looked at.
      right
      simp only [extract, hc, if_pos hlimit]
      cases hx : (extractLoop F fs name .eof true 10000 0 0 (b.take streamLimit) st).2 with
      | none => cases (extractLoop_ending hx).2
      | some m => exact ⟨m, fun _ => rfl⟩
    · simp only [extract, hc, if_neg hlimit]
      exact extractLoop_asks_or

/-- The test tells which: an extraction that it finds waiting reports whatever error ends the
stream, and any other one has failed, however the stream ends. -/
theorem asks_exact : (asks F fs st dest b = true ∧
      ∀ m, (extract F fs st dest ⟨b, .error m⟩).2 = some m) ∨
    (asks F fs st dest b = false ∧ ∃ m, ∀ e, (extract F fs st dest ⟨b, e⟩).2 = some m) := by
  have hor : (∀ m, (extract F fs st dest ⟨b, .error m⟩).2 = some m) ∨
      ∃ m, ∀ e, (extract F fs st dest ⟨b, e⟩).2 = some m := extract_asks_or
  rcases hor with hall | ⟨m, hm⟩
  · exact Or.inl ⟨decide_eq_true ⟨hall _, hall _⟩, hall⟩
  · refine Or.inr ⟨decide_eq_false ?_, m, hm⟩
    rintro ⟨hfirst, hsecond⟩
    rw [hm] at hfirst hsecond
    rw [hfirst] at hsecond
    exact absurd (Option.some.inj hsecond) (by decide)

end

end Filecopy
end Niflhel
