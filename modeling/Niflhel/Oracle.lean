import Niflhel.Program

/-!
# Programs in a changing environment

Between two calls of a program its environment may change in any way. Along one run the
replies are a function of the call and of the number of calls made before it, which serves
as the time.
-/

namespace Concurrent
namespace Program
variable {Op : Type} {Reply : Op → Type} {α β : Type}

section
variable (w : ℕ → (o : Op) → Reply o)

def outcome : ℕ → Program Op Reply α → α × ℕ
  | t, .pure a => (a, t)
  | t, .call o next => outcome (t + 1) (next (w t o))

def Performs : ℕ → Program Op Reply α → ℕ → Op → Prop
  | _, .pure _, _, _ => False
  | t, .call o next, k, o' => (k = t ∧ o' = o) ∨ Performs (t + 1) (next (w t o)) k o'

instance decidablePerforms [DecidableEq Op] :
    (t : ℕ) → (p : Program Op Reply α) → (k : ℕ) → (o : Op) → Decidable (Performs w t p k o)
  | _, .pure _, _, _ => isFalse id
  | t, .call o next, k, o' =>
    have := decidablePerforms (t + 1) (next (w t o)) k o'
    inferInstanceAs (Decidable ((k = t ∧ o' = o) ∨ Performs w (t + 1) (next (w t o)) k o'))

end

variable {w : ℕ → (o : Op) → Reply o} {t k : ℕ} {o : Op}

@[simp] theorem outcome_pure (a : α) :
    outcome w t (Pure.pure a : Program Op Reply α) = (a, t) := rfl

@[simp] theorem outcome_perform_bind (f : Reply o → Program Op Reply α) :
    outcome w t (perform o >>= f) = outcome w (t + 1) (f (w t o)) := rfl

theorem outcome_perform : outcome w t (perform o : Program Op Reply (Reply o)) = (w t o, t + 1) := rfl

theorem outcome_bind (p : Program Op Reply α) (f : α → Program Op Reply β) :
    outcome w t (p >>= f) = outcome w (outcome w t p).2 (f (outcome w t p).1) := by
  induction p generalizing t with
  | pure a => rfl
  | call o next ih => exact ih (w t o)

theorem le_outcome (p : Program Op Reply α) : t ≤ (outcome w t p).2 := by
  induction p generalizing t with
  | pure a => exact le_rfl
  | call o next ih => exact (Nat.le_succ t).trans (ih (w t o))

/-- Replies after the return do not matter. -/
theorem outcome_congr {w' : ℕ → (o : Op) → Reply o} {p : Program Op Reply α}
    (h : ∀ i, t ≤ i → i < (outcome w t p).2 → w i = w' i) : outcome w' t p = outcome w t p := by
  induction p generalizing t with
  | pure a => rfl
  | call o next ih =>
    have hnow : w t = w' t := h t le_rfl (le_outcome (next (w t o)))
    change outcome w' (t + 1) (next (w' t o)) = outcome w (t + 1) (next (w t o))
    rw [← hnow]
    exact ih _ fun i hi hlt => h i (by omega) hlt

@[simp] theorem performs_pure (a : α) : ¬ Performs w t (Pure.pure a : Program Op Reply α) k o := id

theorem performs_perform_bind {o' : Op} (f : Reply o' → Program Op Reply α) :
    Performs w t (perform o' >>= f) k o ↔
      (k = t ∧ o = o') ∨ Performs w (t + 1) (f (w t o')) k o := Iff.rfl

theorem performs_bind (p : Program Op Reply α) (f : α → Program Op Reply β) :
    Performs w t (p >>= f) k o ↔
      Performs w t p k o ∨ Performs w (outcome w t p).2 (f (outcome w t p).1) k o := by
  induction p generalizing t with
  | pure a => exact ⟨Or.inr, fun h => h.resolve_left id⟩
  | call o' next ih =>
    have h := ih (w t o') (t := t + 1)
    change (_ ∨ Performs w (t + 1) (next (w t o') >>= f) k o) ↔ _
    rw [h]
    exact or_assoc.symm

theorem Uses.of_performs {allowed : Op → Prop} {p : Program Op Reply α} (hp : p.Uses allowed)
    (h : Performs w t p k o) : allowed o := by
  induction p generalizing t with
  | pure a => exact h.elim
  | call o' next ih =>
    rcases h with ⟨_, rfl⟩ | h
    · exact hp.1
    · exact ih _ (hp.2 _) h

section noting
variable {N : Type} (note : (o : Op) → Reply o → List N) (law : List N → (o : Op) → Reply o → Prop)

/-- What the calls of a run and their replies say, in order. -/
def noted (w : ℕ → (o : Op) → Reply o) : ℕ → Program Op Reply α → List N
  | _, .pure _ => []
  | t, .call o next => note o (w t o) ++ noted w (t + 1) (next (w t o))

/-- Every reply of a run obeys a law that depends on what was noted before. -/
def Lawful (w : ℕ → (o : Op) → Reply o) : ℕ → List N → Program Op Reply α → Prop
  | _, _, .pure _ => True
  | t, log, .call o next => law log o (w t o) ∧ Lawful w (t + 1) (log ++ note o (w t o)) (next (w t o))

variable {note law} {log : List N}

theorem noted_perform : noted note w t (perform o : Program Op Reply (Reply o)) = note o (w t o) :=
  List.append_nil _

theorem lawful_perform : Lawful note law w t log (perform o : Program Op Reply (Reply o)) ↔
    law log o (w t o) := by
  change law log o (w t o) ∧ True ↔ _
  rw [and_true]

theorem noted_bind (p : Program Op Reply α) (f : α → Program Op Reply β) :
    noted note w t (p >>= f) =
      noted note w t p ++ noted note w (outcome w t p).2 (f (outcome w t p).1) := by
  induction p generalizing t with
  | pure a => rfl
  | call o next ih =>
    change note o (w t o) ++ noted note w (t + 1) (next (w t o) >>= f) = _
    rw [ih, ← List.append_assoc]
    rfl

theorem lawful_bind {p : Program Op Reply α} {f : α → Program Op Reply β} :
    Lawful note law w t log (p >>= f) ↔ Lawful note law w t log p ∧
      Lawful note law w (outcome w t p).2 (log ++ noted note w t p) (f (outcome w t p).1) := by
  induction p generalizing t log with
  | pure a =>
    change _ ↔ True ∧ Lawful note law w t (log ++ []) (f a)
    rw [List.append_nil, true_and]
    rfl
  | call o next ih =>
    change law log o (w t o) ∧ Lawful note law w (t + 1) (log ++ note o (w t o)) (next (w t o) >>= f) ↔ _
    rw [ih, ← and_assoc, List.append_assoc]
    rfl

theorem lawful_of_forall (h : ∀ t log o, law log o (w t o)) (p : Program Op Reply α) :
    Lawful note law w t log p := by
  induction p generalizing t log with
  | pure a => trivial
  | call o next ih => exact ⟨h t log o, ih _⟩

theorem Uses.of_noted {P : N → Prop} {p : Program Op Reply α}
    (hp : p.Uses fun o => ∀ r, ∀ n ∈ note o r, P n) {n : N} (hn : n ∈ noted note w t p) : P n := by
  induction p generalizing t with
  | pure a => cases hn
  | call o next ih =>
    rcases List.mem_append.1 hn with hn | hn
    · exact hp.1 _ n hn
    · exact ih _ (hp.2 _) hn

end noting

end Program
end Concurrent
