import Mathlib.Data.List.Induction
import Mathlib.Data.List.Nodup

/-!
# Lists in which the last entry of a key wins

A list of entries with keys is merged into one with a single entry for each key: the last entry
of the key, at the place where the key first occurs.
-/

namespace LastWins

section
variable {κ : Type} [DecidableEq κ]

theorem eraseDups_snoc (l : List κ) (k : κ) :
    (l ++ [k]).eraseDups = if k ∈ l then l.eraseDups else l.eraseDups ++ [k] := by
  rw [List.eraseDups_append]
  by_cases hk : k ∈ l
  · rw [if_pos hk]
    simp [List.removeAll, hk]
  · rw [if_neg hk]
    simp [List.removeAll, hk, List.eraseDups_cons]

theorem nodup_eraseDups (l : List κ) : l.eraseDups.Nodup := by
  induction l using List.reverseRecOn with
  | nil => simp
  | append_singleton l k ih =>
    rw [eraseDups_snoc]
    split_ifs with hk
    · exact ih
    · rw [← List.mem_eraseDups] at hk
      exact List.concat_eq_append ▸ ih.concat hk

theorem eraseDups_append_eraseDups (l m : List κ) :
    (l ++ m.eraseDups).eraseDups = (l ++ m).eraseDups := by
  induction m using List.reverseRecOn with
  | nil => simp
  | append_singleton m k ih =>
    rw [eraseDups_snoc, ← List.append_assoc l m, eraseDups_snoc (l ++ m)]
    by_cases hk : k ∈ m
    · rw [if_pos hk, if_pos (List.mem_append_right l hk), ih]
    · rw [if_neg hk, ← List.append_assoc, eraseDups_snoc, ih]
      simp only [List.mem_append, List.mem_eraseDups]

theorem eraseDups_eraseDups_append (l m : List κ) :
    (l.eraseDups ++ m).eraseDups = (l ++ m).eraseDups := by
  induction m using List.reverseRecOn with
  | nil => simpa using eraseDups_append_eraseDups [] l
  | append_singleton m k ih =>
    rw [← List.append_assoc, ← List.append_assoc, eraseDups_snoc, eraseDups_snoc, ih]
    simp only [List.mem_append, List.mem_eraseDups]

end

variable {α κ : Type} [DecidableEq κ] {key : α → κ} {l out : List α} {e : α} {k : κ}

def last (key : α → κ) (l : List α) (k : κ) : Option α := l.reverse.find? fun x => key x = k

theorem last_append (l m : List α) : last key (l ++ m) k = (last key m k).or (last key l k) := by
  rw [last, List.reverse_append, List.find?_append]
  rfl

theorem last_snoc (l : List α) (e : α) :
    last key (l ++ [e]) k = if key e = k then some e else last key l k := by
  by_cases hk : key e = k <;> simp [last, hk]

theorem last_eq_none : last key l k = none ↔ k ∉ l.map key := by
  simp [last]

theorem last_eq_some (h : last key l k = some e) : e ∈ l ∧ key e = k :=
  ⟨List.mem_reverse.1 (List.mem_of_find?_eq_some h), by simpa using List.find?_some h⟩

/-- The list `out` has for each key of `l` the last entry, in the order in which the keys first
occur. -/
structure Merges (key : α → κ) (l out : List α) : Prop where
  keys : out.map key = (l.map key).eraseDups
  last : ∀ x ∈ out, last key l (key x) = some x

theorem Merges.nil : Merges key [] [] := ⟨rfl, by simp⟩

theorem Merges.nodup (h : Merges key l out) : (out.map key).Nodup := by
  rw [h.keys]
  exact nodup_eraseDups _

theorem Merges.mem_keys (h : Merges key l out) : k ∈ out.map key ↔ k ∈ l.map key := by
  rw [h.keys, List.mem_eraseDups]

theorem Merges.append (h : Merges key l out) (he : key e ∉ out.map key) :
    Merges key (l ++ [e]) (out ++ [e]) := by
  constructor
  · rw [List.map_append, List.map_append, List.map_singleton, eraseDups_snoc,
      if_neg (he ∘ h.mem_keys.2), h.keys]
  · intro x hx
    rw [last_snoc]
    rcases List.mem_append.1 hx with hx | hx
    · have hne : key e ≠ key x := fun hk => he (hk ▸ List.mem_map_of_mem hx)
      rw [if_neg hne, h.last x hx]
    · obtain rfl := List.mem_singleton.1 hx
      rw [if_pos rfl]

/-- Any replacement of the entry with the key of `e`, and of no other one. -/
theorem Merges.replace {out' : List α} (h : Merges key l out) (he : key e ∈ out.map key)
    (hkeys : out'.map key = out.map key) (hout : ∀ x ∈ out', x = e ∨ x ∈ out ∧ key x ≠ key e) :
    Merges key (l ++ [e]) out' := by
  constructor
  · rw [hkeys, List.map_append, List.map_singleton, eraseDups_snoc, if_pos (h.mem_keys.1 he),
      h.keys]
  · intro x hx
    rw [last_snoc]
    rcases hout x hx with rfl | ⟨hx, hne⟩
    · rw [if_pos rfl]
    · rw [if_neg (Ne.symm hne), h.last x hx]

theorem Merges.last_eq (h : Merges key l out) (k : κ) :
    LastWins.last key out k = LastWins.last key l k := by
  cases hk : LastWins.last key out k with
  | none =>
    rw [last_eq_none, h.mem_keys, ← last_eq_none] at hk
    exact hk.symm
  | some e =>
    obtain ⟨he, rfl⟩ := last_eq_some hk
    exact (h.last e he).symm

theorem Merges.unique {out' : List α} (h : Merges key l out) (h' : Merges key l out') :
    out = out' := by
  have hkeys : out.map key = out'.map key := h.keys.trans h'.keys.symm
  have hlen : out.length = out'.length := by simpa using congrArg List.length hkeys
  refine List.ext_getElem hlen fun i hi hi' => ?_
  have hkey : key out[i] = key out'[i] := by
    have hget := congrArg (fun ks => ks[i]?) hkeys
    simpa [hi, hi'] using hget
  have hlast := h.last out[i] (List.getElem_mem hi)
  rw [hkey, h'.last out'[i] (List.getElem_mem hi')] at hlast
  exact (Option.some.inj hlast).symm

/-- A part that is merged already may be merged again. -/
theorem Merges.stage_left {m : List α} (h : Merges key l m) (c : List α)
    (hout : Merges key (m ++ c) out) : Merges key (l ++ c) out := by
  refine ⟨?_, fun x hx => ?_⟩
  · rw [hout.keys, List.map_append, h.keys, eraseDups_eraseDups_append, List.map_append]
  · rw [last_append, ← h.last_eq, ← last_append]
    exact hout.last x hx

theorem Merges.stage_right {m : List α} (h : Merges key l m) (a : List α)
    (hout : Merges key (a ++ m) out) : Merges key (a ++ l) out := by
  refine ⟨?_, fun x hx => ?_⟩
  · rw [hout.keys, List.map_append, h.keys, eraseDups_append_eraseDups, List.map_append]
  · rw [last_append, ← h.last_eq, ← last_append]
    exact hout.last x hx

end LastWins
