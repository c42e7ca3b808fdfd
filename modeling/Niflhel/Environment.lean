import Niflhel.Api
import Niflhel.LastWins

/-!
# Merging environments

`MergeEnv` goes through the entries once and keeps, in a map, the position of each key in its
result. `mergeEnv` below is this loop; the model of `Resolve` uses the same function written
without the map.
-/

namespace Niflhel.Environment
open LastWins

structure Merging where
  out : List String
  index : String → Option ℕ

def Merging.step (m : Merging) (entry : String) : Merging :=
  match m.index (envKey entry) with
  | some i => { m with out := m.out.set i entry }
  | none => {
      out := m.out ++ [entry]
      index := Function.update m.index (envKey entry) (some m.out.length) }

def mergeEnv (base override : List String) : List String :=
  ((base ++ override).foldl Merging.step ⟨[], fun _ => none⟩).out

structure Merging.Holds (m : Merging) (done : List String) : Prop where
  merges : Merges envKey done m.out
  index : ∀ k i, m.index k = some i ↔ (m.out.map envKey)[i]? = some k

theorem Merging.Holds.step {m : Merging} {done : List String} (h : m.Holds done) (entry : String) :
    (m.step entry).Holds (done ++ [entry]) := by
  unfold Merging.step
  cases hk : m.index (envKey entry) with
  | some i =>
    have hi := (h.index _ _).1 hk
    have hkeys : (m.out.set i entry).map envKey = m.out.map envKey := by
      rw [List.map_set]
      obtain ⟨hlt, hget⟩ := List.getElem?_eq_some_iff.1 hi
      rw [← hget, List.set_getElem_self]
    refine ⟨h.merges.replace (List.mem_of_getElem? hi) hkeys fun x hx => ?_, fun k j => ?_⟩
    · obtain ⟨j, hj⟩ := List.mem_iff_getElem?.1 hx
      rw [List.getElem?_set] at hj
      split_ifs at hj with hij hlt
      · exact .inl (Option.some.inj hj).symm
      · refine .inr ⟨List.mem_of_getElem? hj, fun hsame => hij ?_⟩
        -- No other position has the key.
        have hjk : m.index (envKey entry) = some j := by
          rw [h.index, List.getElem?_map, hj, ← hsame]
          rfl
        exact Option.some.inj (hk.symm.trans hjk)
    · rw [hkeys]
      exact h.index k j
  | none =>
    have hnew : envKey entry ∉ m.out.map envKey := by
      intro hmem
      obtain ⟨i, hi⟩ := List.mem_iff_getElem?.1 hmem
      rw [(h.index _ _).2 hi] at hk
      cases hk
    refine ⟨h.merges.append hnew, fun k i => ?_⟩
    have hold := h.index k i
    dsimp only
    rw [List.map_append, List.map_singleton, List.getElem?_append]
    by_cases hke : k = envKey entry
    · subst hke
      rw [Function.update_self]
      split_ifs with hlt
      · rw [hk] at hold
        simp only [← hold, reduceCtorEq, iff_false]
        intro hlen
        simp only [List.length_map] at hlt
        exact absurd (Option.some.inj hlen) (by omega)
      · rw [List.length_map] at hlt ⊢
        rw [Option.some_inj, List.getElem?_singleton]
        split_ifs <;> simp <;> omega
    · rw [Function.update_of_ne hke, hold]
      split_ifs with hlt
      · rfl
      · rw [List.getElem?_eq_none (not_lt.1 hlt), List.getElem?_singleton]
        split_ifs <;> simp [Ne.symm hke]

theorem merges_mergeEnv (base override : List String) :
    Merges envKey (base ++ override) (mergeEnv base override) := by
  have hrun : ∀ l : List String, (l.foldl Merging.step ⟨[], fun _ => none⟩).Holds l := by
    intro l
    induction l using List.reverseRecOn with
    | nil => exact ⟨Merges.nil, by simp⟩
    | append_singleton l entry ih =>
      rw [List.foldl_append]
      exact ih.step entry
  exact (hrun _).merges

theorem merges_mergeEntry {done out : List String} (h : Merges envKey done out) (entry : String) :
    Merges envKey (done ++ [entry]) (mergeEntry out entry) := by
  unfold mergeEntry
  have hany : (out.any fun x => envKey x == envKey entry) = true ↔
      envKey entry ∈ out.map envKey := by simp
  split_ifs with hk
  · refine h.replace (hany.1 hk) ?_ fun x hx => ?_
    · rw [List.map_map]
      refine List.map_congr_left fun x _ => ?_
      by_cases hx : envKey x = envKey entry <;> simp [hx]
    · obtain ⟨y, hy, rfl⟩ := List.mem_map.1 hx
      split_ifs with hkey
      · exact .inl rfl
      · exact .inr ⟨hy, hkey⟩
  · exact h.append (hk ∘ hany.2)

/-- The loop computes the environment of the model of `Resolve`. -/
theorem mergeEnv_eq (base override : List String) :
    mergeEnv base override = Niflhel.mergeEnv base override := by
  have hrun : ∀ l : List String, Merges envKey l (l.foldl mergeEntry []) := by
    intro l
    induction l using List.reverseRecOn with
    | nil => exact Merges.nil
    | append_singleton l entry ih =>
      rw [List.foldl_append]
      exact merges_mergeEntry ih entry
  exact (merges_mergeEnv base override).unique (hrun _)

/-- The merged environment has one entry for each key, the last one, with the keys in the order
in which they first occur. Merging in stages gives what merging at once does. -/
theorem mergeEnv_last_wins (a b c : List String) :
    ((mergeEnv a b).map envKey = ((a ++ b).map envKey).eraseDups ∧
      ((mergeEnv a b).map envKey).Nodup ∧
      ∀ x ∈ mergeEnv a b, last envKey (a ++ b) (envKey x) = some x) ∧
    mergeEnv (mergeEnv a b) c = mergeEnv a (mergeEnv b c) ∧
    mergeEnv (mergeEnv a b) c = mergeEnv a (b ++ c) := by
  have hab := merges_mergeEnv a b
  have hleft : Merges envKey (a ++ b ++ c) (mergeEnv (mergeEnv a b) c) :=
    hab.stage_left c (merges_mergeEnv _ c)
  have hright : Merges envKey (a ++ (b ++ c)) (mergeEnv a (mergeEnv b c)) :=
    (merges_mergeEnv b c).stage_right a (merges_mergeEnv a _)
  rw [List.append_assoc] at hleft
  exact ⟨⟨hab.keys, hab.nodup, hab.last⟩, hleft.unique hright,
    hleft.unique (merges_mergeEnv a (b ++ c))⟩

example : mergeEnv ["A=1", "B=2"] ["A=3", "C"] = ["A=3", "B=2", "C"] := by decide

end Niflhel.Environment
