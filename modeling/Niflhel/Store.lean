import Niflhel.Api
import Mathlib.Data.List.Sort

/-!
# The sandbox table

`Store` is the SQLite database of the daemon. The `id` and `name` columns of a row repeat
the fields of its body, and no update changes either, so a row is its body. The primary
key and the unique column are enforced by `create` alone. A failing database call is not
part of these functions: the daemon's transition system lets every call fail.
-/

namespace Niflhel
open GoText

structure Store where
  sandboxes : List Sandbox
  volumes : List Volume
  deriving DecidableEq, Repr

def notFound : String := "not found"
def conflict : String := "conflict"

namespace Store

def empty : Store := ⟨[], []⟩

/-- The query `SELECT body FROM sandboxes ORDER BY name`. -/
def list (s : Store) : List Sandbox :=
  s.sandboxes.insertionSort fun v w => v.name ≤ w.name

/-- Exact identifiers and names win, in name order; otherwise a unique identifier prefix. -/
def get (s : Store) (id : String) : Except String Sandbox :=
  match s.list.find? fun v => v.id == id || v.name == id with
  | some v => .ok v
  | none =>
    match s.list.filter fun v => id != "" && hasPrefix v.id id with
    | [v] => .ok v
    | [] => .error notFound
    | _ :: _ :: _ => .error (conflict ++ ": ambiguous ID")

def row (s : Store) (id : String) : Option Sandbox := s.sandboxes.find? fun v => v.id == id

def create (s : Store) (v : Sandbox) : Except String Store :=
  if s.sandboxes.any fun w => w.id == v.id || w.name == v.name then
    .error (conflict ++ ": name/ID already exists")
  else .ok { s with sandboxes := v :: s.sandboxes }

def replace (s : Store) (id : String) (y : Sandbox) : Store :=
  { s with sandboxes := s.sandboxes.map fun x => if x.id = id then y else x }

/-- Replaces the body of the row `id`; the callback may refuse. -/
def update (s : Store) (id : String) (now : Time) (fn : Sandbox → Except String Sandbox) :
    Except String Store :=
  match s.row id with
  | none => .error "sql: no rows in result set"
  | some v =>
    match fn v with
    | .error e => .error e
    | .ok w => .ok (s.replace id { w with updated := now })

def delete (s : Store) (id : String) : Store :=
  { s with sandboxes := s.sandboxes.filter fun v => v.id != id }

def volume (s : Store) (name : String) : Except String Volume :=
  match s.volumes.find? fun v => v.name == name with
  | some v => .ok v
  | none => .error notFound

def putVolume (s : Store) (v : Volume) : Except String Store :=
  if s.volumes.any fun w => w.name == v.name then
    .error "UNIQUE constraint failed: volumes.name"
  else .ok { s with volumes := v :: s.volumes }

def deleteVolume (s : Store) (name : String) : Store :=
  { s with volumes := s.volumes.filter fun v => v.name != name }

end Store

def transitions : State → List State
  | .creating => [.created, .failed, .removing]
  | .created => [.starting, .removing]
  | .starting => [.running, .failed, .stopping]
  | .running => [.stopping, .failed]
  | .stopping => [.exited, .failed]
  | .exited => [.starting, .removing]
  | .failed => [.removing]
  | .removing => []

def transition (v : Sandbox) (next : State) (reason : String) : Except String Sandbox :=
  if v.state = next then .ok v
  else if next ∈ transitions v.state then .ok { v with state := next, reason := reason }
  else .error (conflict ++ ": cannot transition " ++ v.state.text ++ " to " ++ next.text)

namespace Store
variable {s s' : Store} {v w : Sandbox} {id : String}

theorem mem_list : v ∈ s.list ↔ v ∈ s.sandboxes := by
  exact List.mem_insertionSort _

structure Keyed (s : Store) : Prop where
  ids : (s.sandboxes.map Sandbox.id).Nodup
  names : (s.sandboxes.map Sandbox.name).Nodup

theorem keyed_empty : Keyed empty := ⟨List.nodup_nil, List.nodup_nil⟩

theorem Keyed.eq_of_id (hk : Keyed s) (hv : v ∈ s.sandboxes) (hw : w ∈ s.sandboxes)
    (h : v.id = w.id) : v = w := List.inj_on_of_nodup_map hk.ids hv hw h

theorem Keyed.list_ids (hk : Keyed s) : (s.list.map Sandbox.id).Nodup :=
  ((List.perm_insertionSort _ s.sandboxes).map Sandbox.id).nodup_iff.2 hk.ids

theorem create_eq_ok (h : s.create v = .ok s') :
    (∀ w ∈ s.sandboxes, w.id ≠ v.id ∧ w.name ≠ v.name) ∧
      s' = { s with sandboxes := v :: s.sandboxes } := by
  unfold create at h
  split_ifs at h with hany
  refine ⟨fun w hw => ?_, (Except.ok.inj h).symm⟩
  simp only [List.any_eq_true, not_exists, not_and, Bool.or_eq_true, beq_iff_eq, not_or] at hany
  exact hany w hw

theorem keyed_create (hk : Keyed s) (h : s.create v = .ok s') : Keyed s' := by
  obtain ⟨hnew, rfl⟩ := create_eq_ok h
  refine ⟨List.nodup_cons.2 ⟨fun hm => ?_, hk.ids⟩, List.nodup_cons.2 ⟨fun hm => ?_, hk.names⟩⟩
  · obtain ⟨w, hw, hid⟩ := List.mem_map.1 hm
    exact (hnew w hw).1 hid
  · obtain ⟨w, hw, hname⟩ := List.mem_map.1 hm
    exact (hnew w hw).2 hname

theorem keyed_delete (hk : Keyed s) (id : String) : Keyed (s.delete id) :=
  ⟨hk.ids.sublist (List.filter_sublist.map _), hk.names.sublist (List.filter_sublist.map _)⟩

theorem get_eq_ok (h : s.get id = .ok v) :
    v ∈ s.sandboxes ∧ (v.id = id ∨ v.name = id ∨ hasPrefix v.id id = true) := by
  unfold get at h
  cases hf : s.list.find? fun w => w.id == id || w.name == id with
  | some w =>
    simp only [hf] at h
    obtain rfl := Except.ok.inj h
    have hm : w.id = id ∨ w.name = id := by simpa using List.find?_some hf
    refine ⟨mem_list.1 (List.mem_of_find?_eq_some hf), ?_⟩
    rcases hm with hm | hm
    · exact Or.inl hm
    · exact Or.inr (Or.inl hm)
  | none =>
    simp only [hf] at h
    split at h
    · rename_i w hw
      obtain rfl := Except.ok.inj h
      have hmem : w ∈ s.list.filter fun w => id != "" && hasPrefix w.id id := by simp [hw]
      obtain ⟨hl, hp⟩ := List.mem_filter.1 hmem
      simp only [Bool.and_eq_true] at hp
      exact ⟨mem_list.1 hl, Or.inr (Or.inr hp.2)⟩
    · cases h
    · cases h

theorem row_eq_some (h : s.row id = some v) : v ∈ s.sandboxes ∧ v.id = id := by
  exact ⟨List.mem_of_find?_eq_some h, by simpa using List.find?_some h⟩

theorem Keyed.row_of_mem (hk : Keyed s) (hv : v ∈ s.sandboxes) : s.row v.id = some v := by
  cases hr : s.row v.id with
  | none =>
    exact absurd (List.find?_eq_none.1 hr v hv) (by simp)
  | some w =>
    obtain ⟨hw, hid⟩ := row_eq_some hr
    rw [hk.eq_of_id hw hv hid]

theorem row_create (h : s.create v = .ok s') (i : String) :
    s'.row i = if i = v.id then some v else s.row i := by
  obtain ⟨-, rfl⟩ := create_eq_ok h
  unfold row
  by_cases hi : i = v.id
  · simp [hi]
  · have hb : (v.id == i) = false := by simpa using Ne.symm hi
    simp [hi, hb]

theorem row_delete (id i : String) : (s.delete id).row i = if i = id then none else s.row i := by
  unfold row delete
  rw [List.find?_filter]
  by_cases hi : i = id
  · subst hi
    rw [if_pos rfl, List.find?_eq_none]
    intro x _
    simp
  · rw [if_neg hi]
    congr 1
    funext x
    by_cases hx : x.id = i
    · have hne : x.id ≠ id := hx ▸ hi
      simp [hx, hi]
    · simp [hx]

theorem update_eq_ok {now : Time} {fn : Sandbox → Except String Sandbox}
    (h : s.update id now fn = .ok s') : ∃ x y, s.row id = some x ∧ fn x = .ok y ∧
      s' = s.replace id { y with updated := now } := by
  unfold update at h
  cases hr : s.row id with
  | none => simp [hr] at h
  | some x =>
    simp only [hr] at h
    cases hf : fn x with
    | error e => simp [hf] at h
    | ok y =>
      simp only [hf] at h
      exact ⟨x, y, rfl, hf, (Except.ok.inj h).symm⟩

theorem row_replace {y : Sandbox} (hy : y.id = id) (hx : s.row id = some v) (i : String) :
    (s.replace id y).row i = if i = id then some y else s.row i := by
  have hf : ((fun w : Sandbox => w.id == i) ∘ fun z => if z.id = id then y else z) =
      fun z => z.id == i := by
    funext z
    by_cases hz : z.id = id
    · simp [hz, hy]
    · simp [hz]
  unfold row at hx ⊢
  simp only [replace, List.find?_map, hf]
  by_cases hi : i = id
  · subst hi
    rw [hx, if_pos rfl]
    simpa using fun hne => absurd (by simpa using List.find?_some hx) hne
  · rw [if_neg hi]
    cases hw : s.sandboxes.find? fun z => z.id == i with
    | none => rfl
    | some w =>
      have hwi : w.id = i := by simpa using List.find?_some hw
      have hne : w.id ≠ id := hwi ▸ hi
      simp [hne]

theorem Keyed.replace {y : Sandbox} (hk : Keyed s) (hy : y.id = id)
    (hn : ∀ x, s.row id = some x → y.name = x.name) : Keyed (s.replace id y) := by
  have hid : ∀ z : Sandbox, (if z.id = id then y else z).id = z.id := by
    intro z
    by_cases hz : z.id = id
    · simp [hz, hy]
    · simp [hz]
  have hname : ∀ z ∈ s.sandboxes, (if z.id = id then y else z).name = z.name := by
    intro z hz
    by_cases hzi : z.id = id
    · subst hzi
      simpa using hn z (hk.row_of_mem hz)
    · simp [hzi]
  refine ⟨?_, ?_⟩
  · have hids : (s.replace id y).sandboxes.map Sandbox.id = s.sandboxes.map Sandbox.id := by
      simp only [Store.replace, List.map_map]
      exact List.map_congr_left fun z _ => hid z
    rw [hids]
    exact hk.ids
  · have hnames : (s.replace id y).sandboxes.map Sandbox.name = s.sandboxes.map Sandbox.name := by
      simp only [Store.replace, List.map_map]
      exact List.map_congr_left hname
    rw [hnames]
    exact hk.names

theorem mem_replace {y : Sandbox} (hw : w ∈ (s.replace id y).sandboxes) :
    w = y ∨ w ∈ s.sandboxes := by
  obtain ⟨z, hz, rfl⟩ := List.mem_map.1 hw
  by_cases hzi : z.id = id
  · simp [hzi]
  · simp [hzi, hz]

end Store
end Niflhel
