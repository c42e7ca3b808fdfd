import Mathlib.Data.List.Basic
import Mathlib.Tactic.Common

/-!
# State whose latest changes a crash may lose

The durable state is followed by a journal of changes. What programs see is the state
after all of them. Committing makes it durable; a crash keeps the durable state and any
selection of the changes.
-/

namespace Volatile

structure Store (T C : Type) where
  base : T
  journal : List C

variable {T C : Type}

def pick : List Bool → List C → List C
  | true :: mask, c :: cs => c :: pick mask cs
  | false :: mask, _ :: cs => pick mask cs
  | _, _ => []

theorem pick_sublist (mask : List Bool) (cs : List C) : (pick mask cs).Sublist cs := by
  induction mask generalizing cs with
  | nil => simp [pick]
  | cons b mask ih =>
    cases cs with
    | nil => simp [pick]
    | cons c cs =>
      cases b with
      | true => exact (ih cs).cons_cons c
      | false => exact (ih cs).cons c

namespace Store
variable (apply : T → C → T)

def live (s : Store T C) : T := s.journal.foldl apply s.base

def note (s : Store T C) (cs : List C) : Store T C := ⟨s.base, s.journal ++ cs⟩

def commit (s : Store T C) (f : T → T) : Store T C := ⟨f (s.live apply), []⟩

def survive (s : Store T C) (mask : List Bool) : T := (pick mask s.journal).foldl apply s.base

variable {apply} {s : Store T C} {P : T → Prop}

@[simp] theorem live_note (cs : List C) : (s.note cs).live apply = cs.foldl apply (s.live apply) :=
  List.foldl_append ..

theorem foldl_keeps {cs : List C} (h : ∀ c ∈ cs, ∀ t, P t → P (apply t c)) {t : T} (ht : P t) :
    P (cs.foldl apply t) := by
  induction cs generalizing t with
  | nil => exact ht
  | cons c cs ih =>
    exact ih (fun c' hc' => h c' (List.mem_cons_of_mem c hc')) (h c List.mem_cons_self t ht)

theorem live_keeps (h : ∀ c ∈ s.journal, ∀ t, P t → P (apply t c)) (hs : P s.base) :
    P (s.live apply) := foldl_keeps h hs

theorem survive_keeps (h : ∀ c ∈ s.journal, ∀ t, P t → P (apply t c)) (hs : P s.base)
    (mask : List Bool) : P (s.survive apply mask) :=
  foldl_keeps (fun c hc => h c ((pick_sublist mask s.journal).subset hc)) hs

end Store
end Volatile
