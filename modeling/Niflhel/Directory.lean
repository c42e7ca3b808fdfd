import Mathlib.Data.List.Sort
import Mathlib.Data.String.Basic

/-!
# Flat directories of named files

A directory is a list of names with contents; `List.lookup` reads a file. Writing replaces
the file of that name, and deleting keeps the files whose name satisfies a test.
-/

namespace Directory
variable {α : Type}

def put (files : List (String × α)) (name : String) (a : α) : List (String × α) :=
  (name, a) :: files.filter fun f => f.1 != name

def keep (p : String → Bool) (files : List (String × α)) : List (String × α) :=
  files.filter fun f => p f.1

def readDir (files : List (String × α)) : List (String × α) :=
  files.insertionSort fun a b => a.1 ≤ b.1

variable {files : List (String × α)}

theorem mem_readDir {f : String × α} : f ∈ readDir files ↔ f ∈ files := List.mem_insertionSort _

@[simp] theorem lookup_put_self (files : List (String × α)) (name : String) (a : α) :
    (put files name a).lookup name = some a := by
  simp [put]

variable {x : String}

theorem lookup_keep (p : String → Bool) (files : List (String × α))
    (hx : p x = true) : (keep p files).lookup x = files.lookup x := by
  induction files with
  | nil => rfl
  | cons f rest ih =>
    obtain ⟨k, v⟩ := f
    by_cases hk : x = k
    · subst k
      simp [keep, hx]
    · have hxk : (x == k) = false := by simpa using hk
      unfold keep at ih ⊢
      cases hp : p k <;> simp [hp, List.lookup_cons, hxk, ih]

theorem lookup_put_ne (files : List (String × α)) {name : String} (a : α) (hx : x ≠ name) :
    (put files name a).lookup x = files.lookup x := by
  have hb : (x == name) = false := by simpa using hx
  have hp : (x != name) = true := by simpa using hx
  simp only [put, List.lookup_cons, hb]
  exact lookup_keep (fun y => y != name) files hp

theorem lookup_mem {a : α} (h : files.lookup x = some a) : (x, a) ∈ files := by
  obtain ⟨before, after, rfl, _⟩ := List.lookup_eq_some_iff.1 h
  simp

theorem lookup_keep_eq_some {p : String → Bool} {a : α}
    (h : (keep p files).lookup x = some a) : p x = true ∧ files.lookup x = some a := by
  have hx : p x = true := (List.mem_filter.1 (lookup_mem h)).2
  rw [lookup_keep p files hx] at h
  exact ⟨hx, h⟩

theorem lookup_put (files : List (String × α)) (name x : String) (a : α) :
    (put files name a).lookup x = if x = name then some a else files.lookup x := by
  by_cases hx : x = name
  · subst x
    simp
  · rw [lookup_put_ne files a hx, if_neg hx]

theorem nodup_keep (p : String → Bool)
    (h : (files.map Prod.fst).Nodup) : ((keep p files).map Prod.fst).Nodup :=
  h.sublist (List.filter_sublist.map _)

theorem nodup_put (name : String) (a : α)
    (h : (files.map Prod.fst).Nodup) : ((put files name a).map Prod.fst).Nodup := by
  refine List.nodup_cons.2 ⟨fun hm => ?_, nodup_keep (fun n => n != name) h⟩
  obtain ⟨f, hf, hname⟩ := List.mem_map.1 hm
  simp [hname] at hf

theorem lookup_of_mem {a : α}
    (h : (files.map Prod.fst).Nodup) (hm : (x, a) ∈ files) : files.lookup x = some a := by
  induction files with
  | nil => cases hm
  | cons f rest ih =>
    obtain ⟨hnew, hrest⟩ := List.nodup_cons.1 h
    rcases List.mem_cons.1 hm with rfl | hm
    · simp
    · have hne : x ≠ f.1 := fun he => hnew (he ▸ List.mem_map.2 ⟨(x, a), hm, rfl⟩)
      have hb : (x == f.1) = false := by simpa using hne
      rw [List.lookup_cons, hb]
      exact ih hrest hm

section
variable {β : Type} (f : String → α → β)

def mapFiles (files : List (String × α)) : List (String × β) := files.map fun x => (x.1, f x.1 x.2)

theorem lookup_mapFiles (files : List (String × α)) (x : String) :
    (mapFiles f files).lookup x = (files.lookup x).map (f x) := by
  induction files with
  | nil => rfl
  | cons y rest ih =>
    obtain ⟨name, a⟩ := y
    by_cases hx : x = name
    · subst x
      simp [mapFiles]
    · have hb : (x == name) = false := by simpa using hx
      simp only [mapFiles, List.map_cons, List.lookup_cons, hb]
      exact ih

theorem mapFiles_keep (p : String → Bool) (files : List (String × α)) :
    mapFiles f (keep p files) = keep p (mapFiles f files) := by
  simp only [mapFiles, keep, List.filter_map]
  rfl

theorem mapFiles_put (files : List (String × α)) (name : String) (a : α) :
    mapFiles f (put files name a) = put (mapFiles f files) name (f name a) := by
  have hkeep := mapFiles_keep f (fun n => n != name) files
  simp only [keep] at hkeep
  simp only [put, ← hkeep]
  rfl

end
end Directory
