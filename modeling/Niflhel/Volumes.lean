import Niflhel.Guarantees

/-!
# Named volumes have one user

The ownership discipline turned into statements about reachable states: a VMM that may
be alive has a record that reserves its volumes, and reservations that went through the
admission check of `Start` never share a volume. A record can also reserve because its
cleanup is incomplete; such a quarantine needs no admission, so it may overlap if the record
held no reservation before.
-/

namespace Niflhel
open Concurrent

def daemonReachable (D : Setup) (c : Config Host Op Op.Reply) : Prop :=
  (daemon D).Reachable (fun s => s = Host.initial) c

def ShareVolume (v w : Sandbox) : Prop :=
  ∃ m ∈ v.spec.mounts, ∃ n ∈ w.spec.mounts, m.name = n.name

variable {v w : Sandbox}

theorem sharesVolume_eq_false_iff : sharesVolume v w = false ↔ ¬ ShareVolume v w := by
  simp [sharesVolume, ShareVolume]

variable {D : Setup} {c c' : Config Host Op Op.Reply}

theorem inv_of_reachable (h : daemonReachable D c) : Inv c.state :=
  ((ownership_sound D).guarded h).inv

variable {l : Label Op Op.Reply Job}

theorem row_of_step (hc : daemonReachable D c) (hs : (daemon D).Step c l c') (id : String) :
    c'.state.store.row id = c.state.store.row id ∨
      (∃ t e r x y, l = .run t (.update id e) r ∧ editPermit t c.state id e ∧
        Edited c.state c'.state id e x y) ∨
      (c.state.store.row id = none ∧ (∀ a ∈ c.state.created, a.1 ≠ id) ∧
        ∃ v, c'.state.store.row id = some v ∧ v.state = .creating) ∨
      c'.state.store.row id = none := by
  cases hs with
  | @run t o next r s ht hx =>
    have hp : permit t c.state o r := (ownership_sound D).permit hc (.run ht hx)
    rw [System.resume_state]
    rcases row_step hp hx id with hr | ⟨e, x, y, rfl, hpe, hed⟩ | ⟨hr, v, rfl, hv, hnew⟩ |
      ⟨_, hr⟩
    · exact Or.inl hr
    · exact Or.inr (Or.inl ⟨t, e, r, x, y, rfl, hpe, hed⟩)
    · subst hv
      exact Or.inr (Or.inr (Or.inl ⟨hr, hp.2.2.1, v, hnew, hp.2.2.2.2.1⟩))
    · exact Or.inr (Or.inr (Or.inr hr))
  | request | crash => exact Or.inl rfl

theorem created_of_step (hc : daemonReachable D c)
    (hs : (daemon D).Step c l c') : ∀ a ∈ c.state.created, a ∈ c'.state.created := by
  cases hs with
  | @run t o next r s ht hx =>
    have hp : permit t c.state o r := (ownership_sound D).permit hc (.run ht hx)
    rw [System.resume_state]
    exact (evolves (inv_of_reachable hc) hp hx).created
  | request | crash => exact fun _ h => h

variable {s : Host}

theorem Inv.not_shareVolume (hi : Inv s) (hv : v ∈ s.store.sandboxes)
    (hw : w ∈ s.store.sandboxes) (hav : s.admitted v.id = true) (haw : s.admitted w.id = true)
    (hne : v.id ≠ w.id) : ¬ ShareVolume v w :=
  sharesVolume_eq_false_iff.1 (hi.exclusive v (hi.keyed.row_of_mem hv) hav w
    (hi.keyed.row_of_mem hw) haw hne.symm)

/-- A VMM that may be alive belongs to a reserving record, and no two of them share a
volume, whatever the interleaving, the failures and the crashes. -/
theorem live_reserves_and_exclusive (D : Setup) (c : Config Host Op Op.Reply)
    (hc : daemonReachable D c) (hn : c.state.NoAlias) :
    (∀ id, c.state.live id = true →
      ∃ v ∈ c.state.store.sandboxes, v.id = id ∧ reservesVMResources v = true) ∧
    (∀ v ∈ c.state.store.sandboxes, ∀ w ∈ c.state.store.sandboxes,
      c.state.live v.id = true → c.state.live w.id = true → v.id ≠ w.id →
        ¬ ShareVolume v w) := by
  have hi := inv_of_reachable hc
  refine ⟨fun id hl => ?_, fun v hv w hw hlv hlw hne => ?_⟩
  · obtain ⟨v, hv, hres, _⟩ := hi.admitted id (hi.live hn id hl)
    obtain ⟨hmem, hid⟩ := Store.row_eq_some hv
    exact ⟨v, hmem, hid, hres⟩
  · exact hi.not_shareVolume hv hw (hi.live hn _ hlv) (hi.live hn _ hlw) hne

namespace Sample

/-- Recovery, the volume `data`, and a sandbox `a` that mounts it. -/
def createA : List (System.Move Job) :=
  steps 0 2 ++ [.request (.volumeCreate ⟨"data", 1, 0⟩)] ++ steps 1 5 ++
    [.request (.create (spec "a"))] ++ steps 2 15

/-- The volume `logs` as well, and a sandbox `b` that mounts it. -/
def createBoth : List (System.Move Job) :=
  createA ++ [.request (.volumeCreate ⟨"logs", 1, 0⟩)] ++ steps 3 5 ++
    [.request (.create { spec "b" with mounts := [⟨"logs", "/data", false⟩] })] ++ steps 4 3 ++
    [.run 4 1] ++ steps 4 11

def startBoth : List (System.Move Job) :=
  createBoth ++ [.request (.start "a")] ++ steps 5 14 ++ [.request (.start "b")] ++ steps 6 14

theorem noAlias_both (h : s.created = [(ident 1, "b"), (ident 0, "a")]) : s.NoAlias := by
  unfold Host.NoAlias
  rw [h]
  decide

end Sample

open Sample in
/-- Two sandboxes run at the same time. -/
theorem live_reserves_and_exclusive_started :
    ∃ c, daemonReachable setup c ∧ c.state.NoAlias ∧ ∃ v ∈ c.state.store.sandboxes,
      ∃ w ∈ c.state.store.sandboxes, v.id = ident 0 ∧ w.id = ident 1 ∧
        c.state.live v.id = true ∧ c.state.live w.id = true ∧ reservesVMResources v = true ∧
        reservesVMResources w = true ∧ ¬ ShareVolume v w := by
  have hrun : ((after startBoth).map fun s => (s.created, s.live (ident 0), s.live (ident 1))) =
      some ([(ident 1, "b"), (ident 0, "a")], true, true) := by
    decide +kernel
  obtain ⟨s, hs, hfacts⟩ := Option.map_eq_some_iff.1 hrun
  simp only [Prod.mk.injEq] at hfacts
  obtain ⟨hcreated, hlive₀, hlive₁⟩ := hfacts
  obtain ⟨c, hc, rfl⟩ := reachable_after hs
  obtain ⟨hreserves, hexclusive⟩ := live_reserves_and_exclusive setup c hc (noAlias_both hcreated)
  obtain ⟨v, hv, hvid, hvres⟩ := hreserves _ hlive₀
  obtain ⟨w, hw, hwid, hwres⟩ := hreserves _ hlive₁
  rw [← hvid] at hlive₀
  rw [← hwid] at hlive₁
  have hne : v.id ≠ w.id := by
    rw [hvid, hwid]
    decide
  exact ⟨c, hc, noAlias_both hcreated, v, hv, w, hw, hvid, hwid, hlive₀, hlive₁, hvres, hwres,
    hexclusive v hv w hw hlive₀ hlive₁ hne⟩

/-- The step by which a record came to reserve: an admission under the allocation lock,
or a recorded cleanup that was not complete. -/
def BeginsReservation (c : Config Host Op Op.Reply) (l : Label Op Op.Reply Job) (id : String)
    (w : Sandbox) : Prop :=
  ∃ t e r, l = .run t (.update id e) r ∧
    ((∃ v, e = .startCommit v ∧ c.state.locks allocations = some t ∧ Exclusive v c.state) ∨
      (e.quarantines = true ∧ w.state = .failed ∧ w.vmResourcesReleased = false))

theorem Edited.begins {s' : Host} {t : ℕ} {id : String} {e : Edit} {x y : Sandbox}
    (hed : Edited s s' id e x y) (hi : Inv s) (hp : editPermit t s id e)
    (hv : s.store.row id = some v) (hw : s'.store.row id = some w)
    (hnone : reservesVMResources v = false) (hres : reservesVMResources w = true) :
    (∃ v, e = .startCommit v ∧ s.locks allocations = some t ∧ Exclusive v s) ∨
      (e.quarantines = true ∧ w.state = .failed ∧ w.vmResourcesReleased = false) := by
  obtain rfl : x = v := Option.some.inj (hed.found.symm.trans hv)
  obtain ⟨now, hself⟩ := hed.row_self
  cases hself.symm.trans hw
  have hy : reservesVMResources y = true := hres
  cases hwhole : e.whole with
  | none =>
    obtain ⟨hmem, _⟩ := Store.row_eq_some hv
    obtain ⟨hq, hs, hr⟩ :=
      Edit.apply_quarantines hed.applied hwhole (hi.creating x hmem) hnone hy
    exact Or.inr ⟨hq, hs, hr⟩
  | some z =>
    have hyz := Edit.apply_whole hed.applied hwhole
    cases e with
    | createCommit w =>
      cases hwhole
      rw [hyz] at hy
      simp [reservesVMResources, hp.2.2.2.1] at hy
    | startCommit w => exact Or.inl ⟨w, rfl, hp.1, hp.2.2.2.2.2.1⟩
    | _ => cases hwhole

theorem begins_of_step (hc : daemonReachable D c) (hs : (daemon D).Step c l c') {id : String}
    (hv : c.state.store.row id = some v) (hw : c'.state.store.row id = some w)
    (hnone : reservesVMResources v = false) (hres : reservesVMResources w = true) :
    BeginsReservation c l id w := by
  rcases row_of_step hc hs id with hr | ⟨t, e, r, x, y, rfl, hp, hed⟩ | ⟨hr, _⟩ | hr
  · obtain rfl : v = w := Option.some.inj (hv.symm.trans (hr.symm.trans hw))
    rw [hnone] at hres
    cases hres
  · exact ⟨t, e, r, rfl, hed.begins (inv_of_reachable hc) hp hv hw hnone hres⟩
  · rw [hv] at hr
    cases hr
  · rw [hw] at hr
    cases hr

/-- Reservations that went through the admission check never share a volume. Every
active sandbox holds one, and a record without a reservation obtains one through the
admission check or is quarantined as failed and not released. -/
theorem admitted_reservations_exclusive (D : Setup) (c : Config Host Op Op.Reply)
    (hc : daemonReachable D c) :
    (∀ v ∈ c.state.store.sandboxes, ∀ w ∈ c.state.store.sandboxes,
      c.state.admitted v.id = true → c.state.admitted w.id = true → v.id ≠ w.id →
        ¬ ShareVolume v w) ∧
    (∀ v ∈ c.state.store.sandboxes, reservesVMResources v = true → c.state.admitted v.id = true ∨
      (v.state = .failed ∧ v.vmResourcesReleased = false)) ∧
    (∀ l c', (daemon D).Step c l c' → ∀ id v w, c.state.store.row id = some v →
      c'.state.store.row id = some w → reservesVMResources v = false →
        reservesVMResources w = true → BeginsReservation c l id w) := by
  have hi := inv_of_reachable hc
  refine ⟨fun v hv w hw => hi.not_shareVolume hv hw, fun v hv hres => ?_,
    fun l c' hs id v w => begins_of_step hc hs⟩
  have hact := hi.active v (hi.keyed.row_of_mem hv)
  cases hs : v.state with
  | failed => exact Or.inr ⟨rfl, by simpa [reservesVMResources, hs] using hres⟩
  | starting => exact Or.inl (hact (by rw [hs]; rfl))
  | running => exact Or.inl (hact (by rw [hs]; rfl))
  | stopping => exact Or.inl (hact (by rw [hs]; rfl))
  | _ => simp [reservesVMResources, hs] at hres

/-- A cleanup is recorded as incomplete only for a record that holds a reservation. -/
def quarantinesReserving (s : Host) : (o : Op) → o.Reply → Bool
  | .update id e, .ok _ => !e.quarantines || (s.store.row id).all reservesVMResources
  | _, _ => true

/-- Every reservation went through an admission. -/
def Host.AllAdmitted (s : Host) : Prop :=
  ∀ id v, s.store.row id = some v → reservesVMResources v = true → s.admitted id = true

theorem Edited.allAdmitted {s' : Host} {t : ℕ} {id : String} {e : Edit} {x y : Sandbox} {now : Time}
    (hed : Edited s s' id e x y) (hi : Inv s) (hp : editPermit t s id e)
    (hok : quarantinesReserving s (.update id e) (.ok now) = true) (h : s.AllAdmitted) :
    s'.AllAdmitted := by
  intro i w hw hres
  by_cases hid : i = id
  · subst i
    obtain ⟨now', hself⟩ := hed.row_self
    have hy : reservesVMResources y = true := by
      cases hself.symm.trans hw
      exact hres
    rw [hed.admitted_self, hy, Bool.and_true, Bool.or_eq_true]
    cases hx : reservesVMResources x with
    | true => exact .inl (h id x hed.found hx)
    | false =>
      rcases hed.begins hi hp hed.found hw hx hres with ⟨v, rfl, _⟩ | ⟨hq, _⟩
      · exact .inr rfl
      · simp [quarantinesReserving, hq, hed.found, hx] at hok
  · rw [hed.row_other i hid] at hw
    rw [hed.admitted_other i hid]
    exact h i w hw hres

theorem allAdmitted_step (hc : daemonReachable D c)
    (hs : (daemon D).Step c l c') (hok : System.Meets quarantinesReserving c l)
    (h : c.state.AllAdmitted) : c'.state.AllAdmitted := by
  cases hs with
  | request | crash => exact h
  | @run t o next r s ht hx => ?_
  have hp : permit t c.state o r := (ownership_sound D).permit hc (.run ht hx)
  rw [System.resume_state]
  cases effect_of_exec hx with
  | @inserted v st hst =>
    intro id w hw hres
    change st.row id = some w at hw
    rw [Store.row_create hst] at hw
    split_ifs at hw with hid
    · cases hw
      have hnew : v.state = .creating := hp.2.2.2.2.1
      simp [reservesVMResources, hnew] at hres
    · exact h id w hw hres
  | edited _ _ =>
    obtain ⟨x, y, hed, _⟩ := edited (D := D) hp hx
    exact hed.allAdmitted (inv_of_reachable hc) hp hok h
  | @deleted i =>
    intro id w hw hres
    change (c.state.store.delete i).row id = some w at hw
    rw [Store.row_delete] at hw
    split_ifs at hw with hid
    simpa [Host.delete, hid] using h id w hw hres
  | plain | refused | locked | unlocked | started | killed | handed | served => exact h

theorem allAdmitted_of_runs
    (h : (daemon D).Runs (System.Meets quarantinesReserving) ((daemon D).booted Host.initial) c) :
    daemonReachable D c ∧ c.state.AllAdmitted := by
  induction h with
  | refl => exact ⟨⟨_, rfl, .refl⟩, fun id v hv => by cases hv⟩
  | tail _ hs ih =>
    obtain ⟨l, hok, hstep⟩ := hs
    exact ⟨ih.1.step _ hstep, allAdmitted_step ih.1 hstep hok ih.2⟩

/-- In every run that records no incomplete cleanup for a record without a reservation, no two
reserving records share a volume, and a reservation begins only with the admission check of
`Start` under the allocation lock. -/
theorem reservations_exclusive_while_quarantinesReserving (D : Setup) (c : Config Host Op Op.Reply)
    (h : (daemon D).Runs (System.Meets quarantinesReserving) ((daemon D).booted Host.initial) c) :
    (∀ v ∈ c.state.store.sandboxes, ∀ w ∈ c.state.store.sandboxes,
      reservesVMResources v = true → reservesVMResources w = true → v.id ≠ w.id →
        ¬ ShareVolume v w) ∧
    (∀ l c', (daemon D).Step c l c' → System.Meets quarantinesReserving c l → ∀ id v w,
      c.state.store.row id = some v → c'.state.store.row id = some w →
        reservesVMResources v = false → reservesVMResources w = true →
          ∃ t x r, l = .run t (.update id (.startCommit x)) r ∧
            c.state.locks allocations = some t ∧ Exclusive x c.state) := by
  obtain ⟨hc, hall⟩ := allAdmitted_of_runs h
  obtain ⟨hexclusive, _, hbegins⟩ := admitted_reservations_exclusive D c hc
  have hkeyed := (inv_of_reachable hc).keyed
  refine ⟨fun v hv w hw hrv hrw => ?_, fun l c' hs hok id v w hv hw hnone hres => ?_⟩
  · exact hexclusive v hv w hw (hall _ v (hkeyed.row_of_mem hv) hrv)
      (hall _ w (hkeyed.row_of_mem hw) hrw)
  · obtain ⟨t, e, r, rfl, hstart | ⟨hq, _⟩⟩ := hbegins l c' hs id v w hv hw hnone hres
    · obtain ⟨x, rfl, hlock, hfree⟩ := hstart
      exact ⟨t, x, r, rfl, hlock, hfree⟩
    · cases r with
      | ok now => simp [System.Meets, quarantinesReserving, hq, hv, hnone] at hok
      | error err =>
        -- A refused update leaves the row as it was.
        cases hs with
        | run _ hx =>
          cases hx
          rw [System.resume_state, hv] at hw
          cases hw
          rw [hnone] at hres
          cases hres

open Sample in
/-- Both sandboxes start; the start of `a` fails, its VMM cannot be killed, and `a` keeps its
reservation. -/
theorem reservations_exclusive_while_quarantinesReserving_both :
    ∃ c, (daemon setup).Runs (System.Meets quarantinesReserving)
        ((daemon setup).booted Host.initial) c ∧
      ∃ v ∈ c.state.store.sandboxes, ∃ w ∈ c.state.store.sandboxes, v.id ≠ w.id ∧
        v.state = .failed ∧ reservesVMResources v = true ∧ reservesVMResources w = true ∧
        ¬ ShareVolume v w := by
  have hrun : ((afterBoth ((daemon setup).restrict quarantinesReserving) startBoth
      [.run 5 1, .run 5 1, .run 5 0]).map fun p => p.2.store.sandboxes.any fun v =>
        p.2.store.sandboxes.any fun w => v.id != w.id && v.state == .failed &&
          reservesVMResources v && reservesVMResources w) = some true := by
    decide +kernel
  obtain ⟨⟨s₁, s₂⟩, hs, hany⟩ := Option.map_eq_some_iff.1 hrun
  obtain ⟨c₁, c₂, h₁, h₂, rfl, rfl⟩ := runs_afterBoth hs
  have hruns := (System.restrict_runs (daemon setup)).1 (h₁.trans h₂)
  obtain ⟨v, hv, hany⟩ := List.any_eq_true.1 hany
  obtain ⟨w, hw, hany⟩ := List.any_eq_true.1 hany
  simp only [Bool.and_eq_true, bne_iff_ne, beq_iff_eq] at hany
  obtain ⟨⟨⟨hne, hfailed⟩, hrv⟩, hrw⟩ := hany
  exact ⟨c₂, hruns, v, hv, w, hw, hne, hfailed, hrv, hrw,
    (reservations_exclusive_while_quarantinesReserving setup c₂ hruns).1 v hv w hw hrv hrw hne⟩

open Sample in
/-- While `a` starts with the volume, `b` fails to be created; a forced stop of `b` whose
kill fails then makes it reserve the same volume. -/
theorem quarantine_shares_volume : ∃ c, daemonReachable setup c ∧ ∃ v ∈ c.state.store.sandboxes,
      ∃ w ∈ c.state.store.sandboxes, v.id ≠ w.id ∧ reservesVMResources v = true ∧
        reservesVMResources w = true ∧ ShareVolume v w := by
  have hrun : ((after (createA ++ [.request (.start "a")] ++ steps 3 10 ++
      [.request (.create (spec "b"))] ++ steps 4 3 ++ [.run 4 1] ++ steps 4 2 ++ [.run 4 1] ++
      steps 4 3 ++ [.request (.stop "b" 0), .run 5 0, .run 5 1, .run 5 1] ++ steps 5 3 ++
      [.run 5 1, .run 5 1] ++ steps 5 2)).map fun s => s.store.sandboxes.any fun v =>
        s.store.sandboxes.any fun w => v.id != w.id && reservesVMResources v &&
          reservesVMResources w && sharesVolume v w) = some true := by
    decide +kernel
  obtain ⟨s, hs, hshare⟩ := Option.map_eq_some_iff.1 hrun
  obtain ⟨c, hc, rfl⟩ := reachable_after hs
  obtain ⟨v, hv, hshare⟩ := List.any_eq_true.1 hshare
  obtain ⟨w, hw, hshare⟩ := List.any_eq_true.1 hshare
  simp only [Bool.and_eq_true, bne_iff_ne] at hshare
  obtain ⟨⟨⟨hne, hrv⟩, hrw⟩, hvol⟩ := hshare
  refine ⟨c, hc, v, hv, w, hw, hne, hrv, hrw, ?_⟩
  by_contra hno
  rw [sharesVolume_eq_false_iff.2 hno] at hvol
  cases hvol

end Niflhel
