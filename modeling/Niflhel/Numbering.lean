import Mathlib.Data.List.Basic
import Mathlib.Data.List.Chain
import Mathlib.Data.List.Sort
import Mathlib.Tactic.Common

/-!
# Consecutively numbered lists

`Consecutive key first l` states that the keys of a list are the numbers from `first` on.
Logs with a sequence number per record, and any suffix of them, are of this form.
-/

namespace Numbering
variable {α : Type} {key : α → ℕ} {first n : ℕ} {a : α} {l m : List α}

def Consecutive (key : α → ℕ) : ℕ → List α → Prop
  | _, [] => True
  | first, a :: l => key a = first ∧ Consecutive key (first + 1) l

theorem consecutive_append : Consecutive key first (l ++ m) ↔
    Consecutive key first l ∧ Consecutive key (first + l.length) m := by
  induction l generalizing first with
  | nil => simp [Consecutive]
  | cons a l ih =>
    have hlen : first + 1 + l.length = first + (l.length + 1) := by omega
    simp only [List.cons_append, Consecutive, List.length_cons, ih, hlen, and_assoc]

theorem Consecutive.bounds (h : Consecutive key first l) (ha : a ∈ l) :
    first ≤ key a ∧ key a < first + l.length := by
  induction l generalizing first with
  | nil => cases ha
  | cons b l ih =>
    rw [List.length_cons]
    rcases List.mem_cons.1 ha with rfl | ha
    · rw [h.1]
      omega
    · obtain ⟨hlow, hhigh⟩ := ih h.2 ha
      omega

theorem Consecutive.exists_mem (h : Consecutive key first l) (hlow : first ≤ n)
    (hhigh : n < first + l.length) : ∃ a ∈ l, key a = n := by
  induction l generalizing first with
  | nil =>
    rw [List.length_nil] at hhigh
    omega
  | cons b l ih =>
    rw [List.length_cons] at hhigh
    by_cases hb : n = first
    · exact ⟨b, List.mem_cons_self .., h.1.trans hb.symm⟩
    · obtain ⟨a, ha, hkey⟩ := ih h.2 (by omega) (by omega)
      exact ⟨a, List.mem_cons_of_mem b ha, hkey⟩

theorem Consecutive.pairwise (h : Consecutive key first l) :
    l.Pairwise fun a b => key a < key b := by
  induction l generalizing first with
  | nil => exact List.Pairwise.nil
  | cons b l ih =>
    refine List.Pairwise.cons (fun c hc => ?_) (ih h.2)
    have hlow := (Consecutive.bounds h.2 hc).1
    rw [h.1]
    omega

theorem Consecutive.isChain (h : Consecutive key first l) :
    l.IsChain fun a b => key b = key a + 1 := by
  induction l generalizing first with
  | nil => exact List.isChain_nil
  | cons a l ih =>
    refine List.isChain_cons.2 ⟨fun b hb => ?_, ih h.2⟩
    obtain ⟨m, rfl⟩ := List.head?_eq_some_iff.1 hb
    rw [h.2.1, h.1]

theorem Consecutive.filter (h : Consecutive key first l) (n : ℕ) :
    Consecutive key (max first (n + 1)) (l.filter fun a => decide (n < key a)) := by
  induction l generalizing first with
  | nil => trivial
  | cons b l ih =>
    obtain ⟨rfl, hrest⟩ := h
    by_cases hb : n < key b
    · have hmax : max (key b) (n + 1) = key b := by omega
      have hnext : max (key b + 1) (n + 1) = key b + 1 := by omega
      rw [List.filter_cons_of_pos (by simpa using hb), hmax]
      have hi := ih hrest
      rw [hnext] at hi
      exact ⟨rfl, hi⟩
    · have hmax : max (key b) (n + 1) = max (key b + 1) (n + 1) := by omega
      rw [List.filter_cons_of_neg (by simpa using hb), hmax]
      exact ih hrest

theorem Consecutive.of_prefix (h : Consecutive key first l) (hm : m <+: l) :
    Consecutive key first m := by
  obtain ⟨rest, rfl⟩ := hm
  exact (consecutive_append.1 h).1

theorem Consecutive.last (h : Consecutive key first l) (ha : l.getLast? = some a) :
    key a + 1 = first + l.length := by
  obtain ⟨m, rfl⟩ := List.getLast?_eq_some_iff.1 ha
  have hkey : key a = first + m.length := (consecutive_append.1 h).2.1
  rw [List.length_append, List.length_singleton]
  omega

theorem eq_of_ascending (hl : l.Pairwise fun a b => key a < key b)
    (hm : m.Pairwise fun a b => key a < key b) (h : ∀ a, a ∈ l ↔ a ∈ m) : l = m := by
  exact hl.eq_of_mem_iff hm h

def UpTo (key : α → ℕ) (n : ℕ) (l : List α) : Prop :=
  ∃ first, Consecutive key first l ∧ first + l.length = n + 1 ∧ 1 ≤ first

theorem upTo_nil : UpTo key n [] := ⟨n + 1, trivial, rfl, by omega⟩

theorem UpTo.append (h : UpTo key n l) (ha : key a = n + 1) : UpTo key (n + 1) (l ++ [a]) := by
  obtain ⟨first, hl, hlen, hpos⟩ := h
  refine ⟨first, consecutive_append.2 ⟨hl, by omega, trivial⟩, ?_, hpos⟩
  rw [List.length_append, List.length_singleton]
  omega

theorem UpTo.suffix (h : UpTo key n l) (hm : m <:+ l) : UpTo key n m := by
  obtain ⟨front, rfl⟩ := hm
  obtain ⟨first, hl, hlen, hpos⟩ := h
  rw [List.length_append] at hlen
  exact ⟨first + front.length, (consecutive_append.1 hl).2, by omega, by omega⟩

theorem UpTo.bounds (h : UpTo key n l) (ha : a ∈ l) : 1 ≤ key a ∧ key a ≤ n := by
  obtain ⟨first, hl, hlen, hpos⟩ := h
  have hb := hl.bounds ha
  omega

end Numbering
