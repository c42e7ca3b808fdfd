import Mathlib.Tactic.Common

/-!
# Runs of a deterministic transition function

`Always P` states that every state of a run satisfies `P`, and `Meets C` that every step
of it is taken where `C` holds. `always_iff_meets` turns a one-step analysis into the
exact condition on runs. For a partial transition function, `run` replays the steps of a
run that all meet a condition, and `run_induct` and `run_invariant` are its invariant rules.
-/

namespace Traces
variable {σ ι : Type} (step : σ → ι → σ)

def Always (P : σ → Prop) : σ → List ι → Prop
  | s, [] => P s
  | s, i :: is => P s ∧ Always P (step s i) is

def Meets (C : σ → ι → Prop) : σ → List ι → Prop
  | _, [] => True
  | s, i :: is => C s i ∧ Meets C (step s i) is

theorem Always.head {P : σ → Prop} {s : σ} {is : List ι} (h : Always step P s is) : P s := by
  cases is with
  | nil => exact h
  | cons i is => exact h.1

/-- If a working invariant `J` gives `P`, survives exactly the steps that meet `C`, and
every other step breaks `P`, then `P` holds all along a run exactly when all its steps
meet `C`. -/
theorem always_iff_meets {P J : σ → Prop} {C : σ → ι → Prop} {V : ι → Prop}
    (hP : ∀ s, J s → P s) (hkeep : ∀ s i, V i → J s → C s i → J (step s i))
    (hbreak : ∀ s i, V i → J s → ¬ C s i → ¬ P (step s i)) {s : σ} {is : List ι}
    (hs : J s) (hV : ∀ i ∈ is, V i) : Always step P s is ↔ Meets step C s is := by
  induction is generalizing s with
  | nil => exact ⟨fun _ => trivial, fun _ => hP s hs⟩
  | cons i is ih =>
    have hi : V i := hV i (List.mem_cons_self ..)
    have hrest : ∀ j ∈ is, V j := fun j hj => hV j (List.mem_cons_of_mem _ hj)
    constructor
    · rintro ⟨_, htail⟩
      have hc : C s i := by
        by_contra hc
        exact hbreak s i hi hs hc (Always.head step htail)
      exact ⟨hc, (ih (hkeep s i hi hs hc) hrest).1 htail⟩
    · rintro ⟨hc, htail⟩
      exact ⟨hP s hs, (ih (hkeep s i hi hs hc) hrest).2 htail⟩

section Partial
variable (next : σ → ι → Option σ) (ok : σ → ι → Bool)

def run : σ → List ι → Option σ
  | s, [] => some s
  | s, i :: is => if ok s i then (next s i).bind fun s' => run s' is else none

variable {next ok}

theorem run_append {s : σ} {is js : List ι} :
    run next ok s (is ++ js) = (run next ok s is).bind fun s' => run next ok s' js := by
  induction is generalizing s with
  | nil => rfl
  | cons i is ih =>
    simp only [List.cons_append, run]
    split
    · rw [Option.bind_assoc]
      exact congrArg _ (funext fun s' => ih)
    · rfl

/-- What holds at the start and is kept by every step that meets the condition holds at the
end. It may speak about the steps taken so far. -/
theorem run_induct {P : List ι → σ → Prop}
    (hstep : ∀ past s i s', P past s → ok s i = true → next s i = some s' → P (past ++ [i]) s')
    {past is : List ι} {s s' : σ} (hs : P past s) (hrun : run next ok s is = some s') :
    P (past ++ is) s' := by
  induction is generalizing past s with
  | nil =>
    cases hrun
    rwa [List.append_nil]
  | cons i is ih =>
    simp only [run] at hrun
    split at hrun
    · rename_i hok
      obtain ⟨s₁, hnext, hrest⟩ := Option.bind_eq_some_iff.1 hrun
      have h := ih (hstep past s i s₁ hs hok hnext) hrest
      rwa [List.append_assoc, List.singleton_append] at h
    · cases hrun

theorem run_invariant {I : σ → Prop}
    (hstep : ∀ s i s', I s → ok s i = true → next s i = some s' → I s') {is : List ι} {s s' : σ}
    (hs : I s) (hrun : run next ok s is = some s') : I s' :=
  @run_induct σ ι next ok (fun _ => I) (fun _ => hstep) [] is s s' hs hrun

end Partial
end Traces
