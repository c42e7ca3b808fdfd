import Niflhel.Overlay

/-!
# What records hold

A second discipline on top of the lock discipline. Slots, host ports and mounts are
allocated against a list read under the allocation mutex, and no later write changes them.
The memory of a guest is fixed by the commit of `Create`. Without aliases, the record a
`Start` commits is still idle, and the VMM it then launches belongs to an active record
that has no exit.
-/

namespace Niflhel
open Concurrent

def PortsApart (ps qs : List Port) : Prop := ∀ p ∈ ps, ∀ q ∈ qs, p.hostPort ≠ q.hostPort

def HasVolume (s : Host) (name : String) : Prop := ∃ x ∈ s.store.volumes, x.name = name

/-- The memory of a record: nothing before its creation is committed, and then what its
specification and the base it was created with require. -/
structure Sized (D : Setup) (v : Sandbox) : Prop where
  lower : 64 * mib ≤ v.spec.memory
  upper : v.spec.memory ≤ 1024 * gib
  guest : v.baseDigest = "" ∧ v.guestMemory = 0 ∨
    ∃ b : Base.Bundle, Base.verify D.crypto D.trust b.signed = .ok () ∧ v.baseDigest = b.digest ∧
      v.guestMemory = guestMemory v.spec.memory b.signed.config.guestReserveMiB

structure Placed (D : Setup) (v : Sandbox) : Prop where
  sized : Sized D v
  slot : 1 ≤ v.slot ∧ v.slot ≤ 16000
  ports : (v.spec.ports.map Port.hostPort).Nodup

structure Allocated (D : Setup) (s : Host) : Prop where
  placed : ∀ i v, s.store.row i = some v → Placed D v
  slots : ∀ i j v w, s.store.row i = some v → s.store.row j = some w → v.slot = w.slot → i = j
  apart : ∀ i j v w, s.store.row i = some v → s.store.row j = some w → i ≠ j →
    PortsApart v.spec.ports w.spec.ports
  mounted : ∀ i v, s.store.row i = some v → ∀ m ∈ v.spec.mounts, HasVolume s m.name

def Free (slot : ℕ) (ports : List Port) (s : Host) : Prop :=
  ∀ i w, s.store.row i = some w → w.slot ≠ slot ∧ PortsApart ports w.spec.ports

def recordPermit (D : Setup) (t : ℕ) (s : Host) : (o : Op) → o.Reply → Prop
  | .insert v, _ => Placed D v ∧ v.exit = none ∧ Free v.slot v.spec.ports s ∧
      ∀ m ∈ v.spec.mounts, HasVolume s m.name
  | .update id (.createCommit w), _ => Placed D w ∧ w.exit = none ∧
      ∀ v, s.store.row id = some v → w.slot = v.slot
  | .update id (.startCommit w), _ => Placed D w ∧ w.exit = none ∧
      (∀ v, s.store.row id = some v → w.slot = v.slot) ∧
      (s.NoAlias → ∀ v, s.store.row id = some v → v.state = .created ∨ v.state = .exited)
  | .vmStart v _, _ => s.NoAlias → ∀ x, s.store.row v.id = some x →
      x.exit = none ∧ x.state.isActive = true
  | .deleteVolume name, _ => s.locks allocations = some t ∧
      ∀ i v, s.store.row i = some v → ∀ m ∈ v.spec.mounts, m.name ≠ name
  | _, _ => True

section effects
variable {D : Setup} {t : ℕ} {s s' : Host} {o : Op} {r : o.Reply} {id : String}
  {v w x y : Sandbox}

theorem Placed.congr (h : Placed D v) (hspec : w.spec = v.spec) (hslot : w.slot = v.slot)
    (hbase : w.baseDigest = v.baseDigest) (hmem : w.guestMemory = v.guestMemory) : Placed D w := by
  obtain ⟨⟨hlower, hupper, hguest⟩, hrange, hports⟩ := h
  refine ⟨⟨?_, ?_, ?_⟩, ?_, ?_⟩
  · rwa [hspec]
  · rwa [hspec]
  · rwa [hspec, hbase, hmem]
  · rwa [hslot]
  · rwa [hspec]

theorem hasVolume_step {name : String} (h : exec D t s o r = some s') (hv : HasVolume s name) :
    HasVolume s' name ∨ o = .deleteVolume name := by
  obtain ⟨x, hx, hname⟩ := hv
  cases effect_of_exec h with
  | @plain o r volumes bases dns ports monitors ho hb hvol =>
    cases hup : o.isVolumeUpdate with
    | false => exact Or.inl ⟨x, (hvol hup).symm ▸ hx, hname⟩
    | true =>
      cases o with
      | putVolume v =>
        cases r with
        | some e => exact Or.inl ⟨x, (Option.some.inj h) ▸ hx, hname⟩
        | none => ?_
        simp only [exec, unlessError, Option.map_eq_some_iff] at h
        obtain ⟨st, hst, hs⟩ := h
        unfold Store.putVolume at hst
        split_ifs at hst
        · cases hst
        · cases hst
          rw [← hs]
          exact Or.inl ⟨x, List.mem_cons_of_mem _ hx, hname⟩
      | deleteVolume n =>
        cases r with
        | some e => exact Or.inl ⟨x, (Option.some.inj h) ▸ hx, hname⟩
        | none =>
          by_cases hn : n = name
          · rw [hn]
            exact Or.inr rfl
          · have hs : { s with store := s.store.deleteVolume n } = _ := Option.some.inj h
            rw [← hs]
            refine Or.inl ⟨x, List.mem_filter.2 ⟨hx, ?_⟩, hname⟩
            simpa [hname] using Ne.symm hn
      | _ => cases hup
  | @inserted v st hst =>
    refine Or.inl ⟨x, ?_, hname⟩
    rw [(Store.create_eq_ok hst).2]
    exact hx
  | refused | locked | unlocked | edited | deleted | started | killed | handed | served =>
    exact Or.inl ⟨x, hx, hname⟩

theorem row_record (hp : permit t s o r) (hq : recordPermit D t s o r)
    (h : exec D t s o r = some s') (hw : s'.store.row id = some w) :
    (∃ v, s.store.row id = some v ∧ w.spec = v.spec ∧ w.slot = v.slot ∧
      (Placed D v → Placed D w)) ∨ (o = .insert w ∧ w.id = id ∧ s.store.row id = none) := by
  rcases row_step hp h id with hr | ⟨e, x, y, rfl, hpe, hed⟩ | ⟨hr, v, rfl, hv, hnew⟩ | ⟨_, hr⟩
  · exact Or.inl ⟨w, hr.symm.trans hw, rfl, rfl, fun h => h⟩
  · obtain ⟨now, hself⟩ := hed.row_self
    cases hself.symm.trans hw
    refine Or.inl ⟨x, hed.found, hed.keys.2.2, ?_⟩
    cases hwhole : e.whole with
    | none =>
      have hslot : y.slot = x.slot := by rw [Edit.apply_frame hed.applied hwhole]
      have hbase : y.baseDigest = x.baseDigest := by rw [Edit.apply_frame hed.applied hwhole]
      have hmem : y.guestMemory = x.guestMemory := by rw [Edit.apply_frame hed.applied hwhole]
      exact ⟨hslot, fun h => h.congr hed.keys.2.2 hslot hbase hmem⟩
    | some z =>
      have hy := Edit.apply_whole hed.applied hwhole
      cases e with
      | createCommit z =>
        cases hwhole
        obtain rfl := hy
        exact ⟨hq.2.2 x hed.found, fun _ => hq.1.congr rfl rfl rfl rfl⟩
      | startCommit z =>
        cases hwhole
        obtain rfl := hy
        exact ⟨hq.2.2.1 x hed.found, fun _ => hq.1.congr rfl rfl rfl rfl⟩
      | _ => cases hwhole
  · subst hv
    cases hnew.symm.trans hw
    exact Or.inr ⟨rfl, rfl, hr⟩
  · rw [hw] at hr
    cases hr

theorem allocated_step (hi : Allocated D s) (hp : permit t s o r) (hq : recordPermit D t s o r)
    (h : exec D t s o r = some s') : Allocated D s' := by
  refine ⟨fun i v hv => ?_, fun i j v w hv hw hslot => ?_, fun i j v w hv hw hne => ?_,
    fun i v hv m hm => ?_⟩
  · rcases row_record hp hq h hv with ⟨v₀, hv₀, _, _, hplaced⟩ | ⟨rfl, _⟩
    · exact hplaced (hi.placed i v₀ hv₀)
    · exact hq.1
  · rcases row_record hp hq h hv with ⟨v₀, hv₀, _, hsv, _⟩ | ⟨rfl, hvi, _⟩
    · rcases row_record hp hq h hw with ⟨w₀, hw₀, _, hsw, _⟩ | ⟨rfl, _⟩
      · exact hi.slots i j v₀ w₀ hv₀ hw₀ (hsv.symm.trans (hslot.trans hsw))
      · exact absurd (hsv.symm.trans hslot) (hq.2.2.1 i v₀ hv₀).1
    · rcases row_record hp hq h hw with ⟨w₀, hw₀, _, hsw, _⟩ | ⟨hins, hwj, _⟩
      · exact absurd (hsw.symm.trans hslot.symm) (hq.2.2.1 j w₀ hw₀).1
      · rw [← hvi, ← hwj, Op.insert.inj hins]
  · rcases row_record hp hq h hv with ⟨v₀, hv₀, hspv, _⟩ | ⟨rfl, hvi, _⟩
    · rcases row_record hp hq h hw with ⟨w₀, hw₀, hspw, _⟩ | ⟨rfl, _⟩
      · rw [hspv, hspw]
        exact hi.apart i j v₀ w₀ hv₀ hw₀ hne
      · rw [hspv]
        exact fun p hp' q hq' => Ne.symm ((hq.2.2.1 i v₀ hv₀).2 q hq' p hp')
    · rcases row_record hp hq h hw with ⟨w₀, hw₀, hspw, _⟩ | ⟨hins, hwj, _⟩
      · rw [hspw]
        exact (hq.2.2.1 j w₀ hw₀).2
      · exact absurd (by rw [← hvi, ← hwj, Op.insert.inj hins]) hne
  · have hold : HasVolume s m.name := by
      rcases row_record hp hq h hv with ⟨v₀, hv₀, hspv, _⟩ | ⟨rfl, _⟩
      · exact hi.mounted i v₀ hv₀ m (hspv ▸ hm)
      · exact hq.2.2.2 m hm
    rcases hasVolume_step h hold with hnew | rfl
    · exact hnew
    · rcases row_record hp hq h hv with ⟨v₀, hv₀, hspv, _⟩ | ⟨hins, _⟩
      · exact absurd rfl (hq.2 i v₀ hv₀ m (hspv ▸ hm))
      · cases hins

end effects

def records (D : Setup) : Discipline (ownership D).enforced where
  inv := Allocated D
  permit := recordPermit D
  fresh _ _ := True
  pre _ _ _ := True
  inv_step hi hq hx := by
    have hc := enforced_exec.1 hx
    exact allocated_step hi hc.permitted hq hc.exec
  fresh_step _ _ _ _ _ := trivial

section assertions
variable {D : Setup} {t : ℕ} {s s' : Host} {id : String} {slot : ℕ} {ports : List Port}

theorem records_overlay (D : Setup) : Overlay D (records D) where
  owned h := enforced_exec.1 h
  neutral {t s o r} ho := by
    cases o <;> trivial
  pre _ _ _ := trivial

theorem stable_and {P Q : Host → Prop} (hP : (records D).Stable t P)
    (hQ : (records D).Stable t Q) : (records D).Stable t fun s => P s ∧ Q s :=
  fun s s' hi h => ⟨hP s s' hi h.1, hQ s s' hi h.2⟩

def Room (t slot : ℕ) (ports : List Port) (mounts : List Mount) (s : Host) : Prop :=
  Holds t allocations s ∧ Free slot ports s ∧ ∀ m ∈ mounts, HasVolume s m.name

theorem stable_room (slot : ℕ) (ports : List Port) (mounts : List Mount) :
    (records D).Stable t (Room t slot ports mounts) := by
  rintro s s' hint ⟨ha, hfree, hmounts⟩
  have ha' : Holds t allocations s' := (records_overlay D).stable (robust_holds allocations) s s' hint ha
  obtain ⟨_, u, o, r, hu, hq, hx⟩ := hint
  have hc := enforced_exec.1 hx
  have hother : s.locks allocations ≠ some u := Holds.ne ha hu
  refine ⟨ha', fun i w hw => ?_, fun m hm => ?_⟩
  · rcases row_record hc.permitted hq hc.exec hw with ⟨v, hv, hspec, hslot, _⟩ | ⟨rfl, _⟩
    · rw [hspec, hslot]
      exact hfree i v hv
    · exact absurd hc.permitted.1 hother
  · rcases hasVolume_step hc.exec (hmounts m hm) with hnew | rfl
    · exact hnew
    · exact absurd hq.1 hother

/-- The record `id` was read with this slot, which then is its slot for good. -/
def SlotRead (id : String) (slot : ℕ) (s : Host) : Prop :=
  (∃ name, (id, name) ∈ s.created) ∧ ∀ v, s.store.row id = some v → v.slot = slot

theorem stable_slotRead (id : String) (slot : ℕ) : (records D).Stable t (SlotRead id slot) := by
  rintro s s' ⟨_, u, o, r, _, hq, hx⟩ ⟨⟨name, hname⟩, hread⟩
  have hc := enforced_exec.1 hx
  refine ⟨⟨name, hc.evolves.created _ hname⟩, fun w hw => ?_⟩
  rcases row_record hc.permitted hq hc.exec hw with ⟨v, hv, _, hslot, _⟩ | ⟨rfl, hid, _⟩
  · rw [hslot]
    exact hread v hv
  · exact absurd hid.symm (hc.permitted.2.2.1 _ hname)

/-- The edits that a thread may make to a row it does not own. -/
def Edit.Unowned (x : Sandbox) : Edit → Prop
  | .createFail _ => x.generation = 0
  | .createCommit w => x.generation = 0 ∧ w.state = .created
  | .stopping => True
  | _ => False

theorem editPermit.unowned {e : Edit} {x : Sandbox} (hp : editPermit t s id e) (hn : s.NoAlias)
    (ho : ¬ Owns t id s) (hx : s.store.row id = some x) : e.Unowned x := by
  cases e with
  | createFail msg => exact hp.2 x hx
  | createCommit w => exact ⟨hp.2.1 x hx, hp.2.2.2.1⟩
  | stopping => exact trivial
  | startCommit w => exact absurd (hp.2.2.2.2.2.2 hn).1 ho
  | startFail | interrupted | finished | removing | release => exact absurd (hp hn).1 ho
  | setPID | running | killFailed | deferRemoval => exact absurd (hp hn) ho

/-- The thread owns the sandbox, and its record, if it still exists, satisfies `Q`. -/
def OwnedRow (t : ℕ) (id : String) (Q : Sandbox → Prop) (s : Host) : Prop :=
  s.NoAlias → Owns t id s ∧ (∃ name, (id, name) ∈ s.created) ∧
    ∀ v, s.store.row id = some v → Q v

/-- Facts about an owned row are stable when the edits of others keep them. -/
theorem stable_ownedRow {Q : Sandbox → Prop}
    (hQ : ∀ (e : Edit) (x y : Sandbox) (now : ℕ), e.apply x = .ok y → e.Unowned x → Q x →
      Q { y with updated := now }) :
    (records D).Stable t (OwnedRow t id Q) := by
  rintro s s' ⟨_, u, o, r, hu, _, hx⟩ hs hn
  have hc := enforced_exec.1 hx
  have hev := hc.evolves
  obtain ⟨ho, ⟨name, hname⟩, hrow⟩ := hs (hev.noAlias hn)
  refine ⟨hev.owns hu ho, ⟨name, hev.created _ hname⟩, fun v hv => ?_⟩
  have hother : ¬ Owns u id s := fun hou => hu (hc.inv.owns_unique hou ho)
  rcases row_step hc.permitted hc.exec id with
    hr | ⟨e, x, y, rfl, hp, hed⟩ | ⟨_, w, rfl, hid, _⟩ | ⟨_, hr⟩
  · exact hrow v (hr.symm.trans hv)
  · obtain ⟨now, hself⟩ := hed.row_self
    cases hself.symm.trans hv
    exact hQ e x y now hed.applied (hp.unowned (hev.noAlias hn) hother hed.found)
      (hrow x hed.found)
  · exact absurd hid.symm (hc.permitted.2.2.1 _ hname)
  · rw [hv] at hr
    cases hr

def Idle (v : Sandbox) : Prop := v.state = .created ∨ v.state = .exited

theorem stable_idle : (records D).Stable t (OwnedRow t id Idle) := by
  apply stable_ownedRow
  intro e x y now happly hcase hx
  have hrefused : ∀ next reason, next ∉ transitions .created → next ∉ transitions .exited →
      next ≠ .created → next ≠ .exited → transition x next reason ≠ .ok y := by
    intro next reason hc he hnc hne ht
    rcases transition_eq_ok ht with ⟨hsame, _⟩ | ⟨hmem, _⟩
    · rcases hx with hx | hx
      · exact hnc (hsame.symm.trans hx)
      · exact hne (hsame.symm.trans hx)
    · rcases hx with hx | hx
      · rw [hx] at hmem
        exact hc hmem
      · rw [hx] at hmem
        exact he hmem
  cases e with
  | createFail msg =>
    exact absurd happly (hrefused .failed msg (by decide) (by decide) (by decide) (by decide))
  | createCommit w =>
    cases happly
    exact Or.inl hcase.2
  | stopping =>
    exact absurd happly (hrefused .stopping "" (by decide) (by decide) (by decide) (by decide))
  | _ => exact hcase.elim

def Started (v : Sandbox) : Prop := v.exit = none ∧ v.state.isActive = true ∧ 1 ≤ v.generation

theorem stable_started : (records D).Stable t (OwnedRow t id Started) := by
  apply stable_ownedRow
  rintro e x y now happly hcase ⟨hexit, hact, hgen⟩
  cases e with
  | createFail msg =>
    have hzero : x.generation = 0 := hcase
    omega
  | createCommit w =>
    have hzero : x.generation = 0 := hcase.1
    omega
  | stopping =>
    rcases transition_eq_ok happly with ⟨_, rfl⟩ | ⟨_, rfl⟩
    · exact ⟨hexit, hact, hgen⟩
    · exact ⟨hexit, rfl, hgen⟩
  | _ => exact hcase.elim

end assertions
end Niflhel
