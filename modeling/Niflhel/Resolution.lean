import Niflhel.Volumes

/-!
# Looking a sandbox up by its identifier

`Store.Get` resolves identifiers and names in one namespace, in the order of names. A
record is found by its own identifier exactly when no record that is named after this
identifier comes before it. `Create` does not compare names with identifiers, so the
condition is one on the records it inserts.
-/

namespace Niflhel
open Concurrent

/-- The first match in an ordered list comes before every other match. -/
theorem find?_eq_some_of_pairwise {α : Type} {r : α → α → Prop} {p : α → Bool} {l : List α}
    {u w : α} (hl : l.Pairwise r) (hu : l.find? p = some u) (hw : w ∈ l) (hp : p w = true) :
    u = w ∨ r u w := by
  induction l with
  | nil => cases hw
  | cons a rest ih =>
    obtain ⟨ha, hrest⟩ := List.pairwise_cons.1 hl
    by_cases hpa : p a = true
    · rw [List.find?_cons_of_pos hpa] at hu
      cases hu
      rcases List.mem_cons.1 hw with rfl | hw
      · exact Or.inl rfl
      · exact Or.inr (ha w hw)
    · rw [List.find?_cons_of_neg hpa] at hu
      rcases List.mem_cons.1 hw with rfl | hw
      · exact absurd hp hpa
      · exact ih hrest hu hw

namespace Store
variable {s : Store} {v w : Sandbox}

theorem list_sorted (s : Store) : s.list.Pairwise fun v w => v.name ≤ w.name :=
  List.pairwise_insertionSort _ _

def Resolves (s : Store) : Prop := ∀ v ∈ s.sandboxes, s.get v.id = .ok v

/-- No record named after the identifier of another one comes before it. -/
def Unaliased (s : Store) : Prop :=
  ∀ v ∈ s.sandboxes, ∀ w ∈ s.sandboxes, w.name = v.id → ¬ w.name < v.name

theorem Keyed.eq_of_name (hk : Keyed s) (hv : v ∈ s.sandboxes) (hw : w ∈ s.sandboxes)
    (h : v.name = w.name) : v = w := List.inj_on_of_nodup_map hk.names hv hw h

theorem get_of_find? {id : String}
    (h : s.list.find? (fun w => w.id == id || w.name == id) = some v) : s.get id = .ok v := by
  unfold get
  rw [h]

theorem find?_of_get (hv : v ∈ s.sandboxes) (h : s.get v.id = .ok w) :
    s.list.find? (fun x => x.id == v.id || x.name == v.id) = some w := by
  cases hf : s.list.find? fun x => x.id == v.id || x.name == v.id with
  | some u =>
    rw [get_of_find? hf] at h
    rw [Except.ok.inj h]
  | none =>
    have hnone := List.find?_eq_none.1 hf v (mem_list.2 hv)
    simp at hnone

theorem resolves_iff_unaliased (hk : Keyed s) : s.Resolves ↔ s.Unaliased := by
  constructor
  · intro h v hv w hw hname hlt
    have hfind := find?_of_get hv (h v hv)
    have hle := find?_eq_some_of_pairwise s.list_sorted hfind (mem_list.2 hw) (by simp [hname])
    rcases hle with rfl | hle
    · exact lt_irrefl _ hlt
    · exact absurd hlt (not_lt.2 hle)
  · intro h v hv
    cases hf : s.list.find? fun x => x.id == v.id || x.name == v.id with
    | none =>
      have hnone := List.find?_eq_none.1 hf v (mem_list.2 hv)
      simp at hnone
    | some u =>
      have hu : u ∈ s.sandboxes := mem_list.1 (List.mem_of_find?_eq_some hf)
      have hmatch : u.id = v.id ∨ u.name = v.id := by simpa using List.find?_some hf
      have huv : u = v := by
        rcases hmatch with hid | hname
        · exact hk.eq_of_id hu hv hid
        · have hfirst := find?_eq_some_of_pairwise s.list_sorted hf (mem_list.2 hv) (by simp)
          rcases hfirst with huv | hle
          · exact huv
          · exact hk.eq_of_name hu hv (le_antisymm hle (not_lt.1 (h v hv u hu hname)))
      rw [get_of_find? hf, huv]

end Store

/-- An inserted record comes behind every record whose identifier it is named after, and
before every record named after its own identifier. -/
def insertsResolved (s : Host) : (o : Op) → o.Reply → Bool
  | .insert v, none => s.store.sandboxes.all fun w =>
      !(v.name == w.id && decide (v.name < w.name)) && !(w.name == v.id && decide (w.name < v.name))
  | _, _ => true

theorem insertsResolved_iff {s : Host} {v : Sandbox} :
    insertsResolved s (.insert v) none = true ↔ ∀ w ∈ s.store.sandboxes,
      (v.name = w.id → ¬ v.name < w.name) ∧ (w.name = v.id → ¬ w.name < v.name) := by
  simp only [insertsResolved, List.all_eq_true, Bool.and_eq_true, Bool.not_eq_true',
    Bool.and_eq_false_iff, beq_eq_false_iff_ne, decide_eq_false_iff_not, imp_iff_not_or, ne_eq]

def KeysWithin (s s' : Store) : Prop :=
  ∀ w ∈ s'.sandboxes, ∃ v ∈ s.sandboxes, v.id = w.id ∧ v.name = w.name

theorem KeysWithin.unaliased {s s' : Store} (h : KeysWithin s s') (hu : s.Unaliased) :
    s'.Unaliased := by
  intro v hv w hw hname hlt
  obtain ⟨v₀, hv₀, hvid, hvname⟩ := h v hv
  obtain ⟨w₀, hw₀, _, hwname⟩ := h w hw
  apply hu v₀ hv₀ w₀ hw₀
  · rw [hwname, hname, hvid]
  · rwa [hwname, hvname]

theorem Store.unaliased_cons {s : Store} {v : Sandbox} (hu : s.Unaliased) :
    ({ s with sandboxes := v :: s.sandboxes } : Store).Unaliased ↔ ∀ w ∈ s.sandboxes,
      (v.name = w.id → ¬ v.name < w.name) ∧ (w.name = v.id → ¬ w.name < v.name) := by
  constructor
  · intro h w hw
    have hold : w ∈ v :: s.sandboxes := List.mem_cons_of_mem v hw
    exact ⟨h w hold v List.mem_cons_self, h v List.mem_cons_self w hold⟩
  · intro h x hx y hy
    rcases List.mem_cons.1 hx with rfl | hold
    · rcases List.mem_cons.1 hy with rfl | hy'
      · exact fun _ => lt_irrefl _
      · exact (h y hy').2
    · rcases List.mem_cons.1 hy with rfl | hy'
      · exact (h x hold).1
      · exact hu x hold y hy'

variable {D : Setup} {c c' : Config Host Op Op.Reply}

theorem keys_of_step {l : Label Op Op.Reply Job} (hc : daemonReachable D c)
    (hs : (daemon D).Step c l c') :
    (∃ t v, l = .run t (.insert v) none ∧
      c'.state.store = { c.state.store with sandboxes := v :: c.state.store.sandboxes }) ∨
    (System.Meets insertsResolved c l ∧ KeysWithin c.state.store c'.state.store) := by
  have hsame : KeysWithin c.state.store c.state.store := fun w hw => ⟨w, hw, rfl, rfl⟩
  have hi' := inv_of_reachable (hc.step _ hs)
  cases hs with
  | request | crash => exact Or.inr ⟨trivial, hsame⟩
  | @run t o next r s ht hx => ?_
  have hp : permit t c.state o r := (ownership_sound D).permit hc (.run ht hx)
  rw [System.resume_state] at hi' ⊢
  by_cases hins : ∃ v, o = .insert v
  · obtain ⟨v, rfl⟩ := hins
    cases r with
    | some e =>
      cases hx
      exact Or.inr ⟨rfl, hsame⟩
    | none =>
      obtain ⟨st, hst, rfl⟩ := exec_insert (D := D) (t := t) hx
      exact Or.inl ⟨t, v, rfl, (Store.create_eq_ok hst).2⟩
  · refine Or.inr ⟨?_, fun w hw => ?_⟩
    · cases o with
      | insert v => exact absurd ⟨v, rfl⟩ hins
      | _ => rfl
    · have hrow := hi'.keyed.row_of_mem hw
      rcases row_step hp hx w.id with hr | ⟨e, x, y, rfl, _, hed⟩ | ⟨_, v, ho, _⟩ | ⟨_, hr⟩
      · exact ⟨w, (Store.row_eq_some (hr.symm.trans hrow)).1, rfl, rfl⟩
      · obtain ⟨now, hself⟩ := hed.row_self
        cases hself.symm.trans hrow
        exact ⟨x, (Store.row_eq_some hed.found).1, hed.keys.1.symm, hed.keys.2.1.symm⟩
      · exact absurd ⟨v, ho⟩ hins
      · rw [hrow] at hr
        cases hr

theorem unaliased_step {l : Label Op Op.Reply Job} (hc : daemonReachable D c)
    (hs : (daemon D).Step c l c') (hu : c.state.store.Unaliased) :
    c'.state.store.Unaliased ↔ System.Meets insertsResolved c l := by
  rcases keys_of_step hc hs with ⟨t, v, rfl, hstore⟩ | ⟨hmeets, hkeys⟩
  · rw [hstore, Store.unaliased_cons hu]
    exact insertsResolved_iff.symm
  · exact iff_of_true (hkeys.unaliased hu) hmeets

theorem unaliased_of_runs
    (h : (daemon D).Runs (System.Meets insertsResolved) ((daemon D).booted Host.initial) c) :
    daemonReachable D c ∧ c.state.store.Unaliased := by
  induction h with
  | refl => exact ⟨⟨_, rfl, .refl⟩, fun v hv => nomatch hv⟩
  | tail _ hs ih =>
    obtain ⟨l, hok, hstep⟩ := hs
    exact ⟨ih.1.step _ hstep, (unaliased_step ih.1 hstep ih.2).2 hok⟩

/-- In every run whose insertions meet the condition each stored sandbox is found by its
identifier, and the first step that does not meet it ends this. -/
theorem resolves_while_insertsResolved (D : Setup) (c : Config Host Op Op.Reply)
    (h : (daemon D).Runs (System.Meets insertsResolved) ((daemon D).booted Host.initial) c) :
    c.state.store.Resolves ∧ ∀ l c', (daemon D).Step c l c' →
      (c'.state.store.Resolves ↔ System.Meets insertsResolved c l) := by
  obtain ⟨hc, hu⟩ := unaliased_of_runs h
  refine ⟨(Store.resolves_iff_unaliased (inv_of_reachable hc).keyed).2 hu, fun l c' hs => ?_⟩
  rw [Store.resolves_iff_unaliased (inv_of_reachable (hc.step _ hs)).keyed]
  exact unaliased_step hc hs hu

namespace Sample

def createAlias : List (System.Move Job) :=
  createA ++ [.request (.create (spec (ident 0)))] ++ steps 3 3 ++ [.run 3 1] ++ steps 3 2

end Sample

open Sample in
/-- The second sandbox is created beside the first one. -/
theorem resolves_while_insertsResolved_created :
    ∃ c, (daemon setup).Runs (System.Meets insertsResolved)
        ((daemon setup).booted Host.initial) c ∧
      c.state.store.sandboxes.map Sandbox.id = [ident 1, ident 0] ∧ c.state.store.Resolves := by
  have hrun : ((afterBoth ((daemon setup).restrict insertsResolved) createA
      (createBoth.drop createA.length)).map fun p => p.2.store.sandboxes.map Sandbox.id) =
        some [ident 1, ident 0] := by
    decide +kernel
  obtain ⟨⟨s₁, s₂⟩, hs, hids⟩ := Option.map_eq_some_iff.1 hrun
  obtain ⟨c₁, c₂, h₁, h₂, rfl, rfl⟩ := runs_afterBoth hs
  have hruns := (System.restrict_runs (daemon setup)).1 (h₁.trans h₂)
  exact ⟨c₂, hruns, hids, (resolves_while_insertsResolved setup c₂ hruns).1⟩

open Sample in
/-- The identifier of the first sandbox finds the second one. -/
theorem id_finds_named_sandbox : ∃ c, daemonReachable setup c ∧ ∃ v ∈ c.state.store.sandboxes, ∃ w,
      c.state.store.get v.id = .ok w ∧ w.id ≠ v.id := by
  have hrun : ((after createAlias).map fun s => s.store.sandboxes.any fun v =>
      match s.store.get v.id with
      | .ok w => w.id != v.id
      | .error _ => false) = some true := by
    decide +kernel
  obtain ⟨s, hs, hany⟩ := Option.map_eq_some_iff.1 hrun
  obtain ⟨c, hc, rfl⟩ := reachable_after hs
  obtain ⟨v, hv, hfound⟩ := List.any_eq_true.1 hany
  cases hget : c.state.store.get v.id with
  | error e => simp [hget] at hfound
  | ok w => exact ⟨c, hc, v, hv, w, hget, by simpa [hget] using hfound⟩

end Niflhel
