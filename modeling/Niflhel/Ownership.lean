import Niflhel.Footprints

/-!
# The lock discipline of the daemon

What every call of the daemon may assume where it happens. A thread owns a sandbox while
it holds the sandbox's mutex, or while it recovers and has not yet handed the sandbox to a
monitor. Names that alias identifiers break ownership, since a record read again by its
identifier can then be another one; facts about ownership are therefore stated under
`Host.NoAlias`. Reservations need the allocation mutex alone and are free of it.
-/

namespace Niflhel
open Concurrent GoText

def Owns (t : ℕ) (id : String) (s : Host) : Prop :=
  s.locks id = some t ∨ (s.booting = some t ∧ id ∉ s.monitored)

def SameKeys (v w : Sandbox) : Prop := w.id = v.id ∧ w.name = v.name ∧ w.spec = v.spec

/-- No admitted sandbox other than `v` shares a volume with it. -/
def Exclusive (v : Sandbox) (s : Host) : Prop :=
  ∀ x, s.store.row x.id = some x → s.admitted x.id = true → x.id ≠ v.id →
    sharesVolume v x = false

def IsGeneration (id : String) (g : ℕ) (s : Host) : Prop :=
  ∀ v, s.store.row id = some v → v.generation = g

def editPermit (t : ℕ) (s : Host) (id : String) : Edit → Prop
  | .createFail _ => s.locks allocations = some t ∧ IsGeneration id 0 s
  | .createCommit w => s.locks allocations = some t ∧ IsGeneration id 0 s ∧ w.id = id ∧
      w.state = .created ∧ w.generation = 0 ∧ ∀ v, s.store.row id = some v → SameKeys v w
  | .startCommit w => s.locks allocations = some t ∧ w.id = id ∧ w.state = .starting ∧
      1 ≤ w.generation ∧ (∀ v, s.store.row id = some v → SameKeys v w) ∧ Exclusive w s ∧
      (s.NoAlias → Owns t id s ∧ IsGeneration id (w.generation - 1) s)
  | .startFail _ _ released _ => s.NoAlias → Owns t id s ∧ (released = true → s.live id = false)
  | .interrupted released => s.NoAlias → Owns t id s ∧ (released = true → s.live id = false)
  | .finished _ _ _ | .removing | .release => s.NoAlias → Owns t id s ∧ s.live id = false
  | .setPID _ _ | .running | .killFailed _ | .deferRemoval _ => s.NoAlias → Owns t id s
  | .stopping => True

def permit (t : ℕ) (s : Host) : (o : Op) → o.Reply → Prop
  | .lock k, _ => s.booting = none ∨ s.booting = some t ∨ k ∈ s.monitored
  | .insert v, _ => s.locks allocations = some t ∧ isID v.id = true ∧
      (∀ a ∈ s.created, a.1 ≠ v.id) ∧ v.generation = 0 ∧ v.state = .creating ∧
      v.vmResourcesReleased = true
  | .update id e, _ => editPermit t s id e
  | .delete id, _ => s.NoAlias → Owns t id s ∧ s.live id = false
  | .vmStart v _, _ => s.NoAlias → Owns t v.id s ∧ s.admitted v.id = true
  | .kill v, _ => s.NoAlias → Owns t v.id s
  | .goMonitor _, _ => s.booting = none ∨ s.booting = some t
  | .serve, _ => s.booting = some t
  | _, _ => True

structure Inv (s : Host) : Prop where
  keyed : s.store.Keyed
  recorded : ∀ v ∈ s.store.sandboxes, (v.id, v.name) ∈ s.created
  ids : ∀ a ∈ s.created, isID a.1 = true
  creating : ∀ v ∈ s.store.sandboxes, v.state = .creating → v.vmResourcesReleased = true
  admitted : ∀ id, s.admitted id = true →
    ∃ v, s.store.row id = some v ∧ reservesVMResources v = true ∧ 1 ≤ v.generation
  exclusive : ∀ v, s.store.row v.id = some v → s.admitted v.id = true → Exclusive v s
  active : ∀ v, s.store.row v.id = some v → v.state.isActive = true → s.admitted v.id = true
  locks : ∀ k t, s.locks k = some t → s.booting = none ∨ s.booting = some t ∨ k ∈ s.monitored
  live : s.NoAlias → ∀ id, s.live id = true → s.admitted id = true

/-- What a call of thread `u` can do to the state, as far as other threads care. -/
structure Evolves (u : ℕ) (s s' : Host) : Prop where
  locks : ∀ k t, t ≠ u → s.locks k = some t → s'.locks k = some t
  boots : ∀ t, t ≠ u → s.booting = some t → s'.booting = some t
  serving : s.booting = none → s'.booting = none
  created : ∀ a ∈ s.created, a ∈ s'.created
  fresh : s.locks allocations ≠ some u → s'.created = s.created
  monitored : ∀ id ∈ s.monitored, id ∈ s'.monitored
  handed : ∀ id ∈ s'.monitored, id ∈ s.monitored ∨ s.booting = none ∨ s.booting = some u
  rows : ∀ id w, s'.store.row id = some w →
    (∃ v, s.store.row id = some v ∧ SameKeys v w ∧
      (w.generation = v.generation ∨
        s.locks allocations = some u ∧ (s.NoAlias → Owns u id s))) ∨
    (s.locks allocations = some u ∧ ∀ a ∈ s.created, a.1 ≠ id)
  admits : ∀ id, s'.admitted id = true → s.admitted id = true ∨ s.locks allocations = some u
  keeps : s.NoAlias → ∀ id, s.admitted id = true → s'.admitted id = true ∨ Owns u id s
  live : s.NoAlias → ∀ id, s'.live id = true → s.live id = true ∨ Owns u id s

section effects
variable {D : Setup} {t u : ℕ} {s s' : Host} {o : Op} {r : o.Reply} {id k : String}

def Op.isCore : Op → Bool
  | .lock _ | .unlock _ | .insert _ | .update _ _ | .delete _ | .vmStart _ _ | .kill _
  | .goMonitor _ | .serve => true
  | _ => false

def Op.isBaseUpdate : Op → Bool
  | .basesPull _ _ | .basesImport _ _ _ _ | .basesRemove _ _ => true
  | _ => false

def Op.isVolumeUpdate : Op → Bool
  | .putVolume _ | .deleteVolume _ => true
  | _ => false

/-- The other calls change the base store, volumes, listeners or monitor claims alone. -/
theorem exec_of_not_core (h : exec D t s o r = some s') (ho : o.isCore = false) :
    ∃ volumes bases dns ports monitors, (o.isBaseUpdate = false → bases = s.bases) ∧
      (o.isVolumeUpdate = false → volumes = s.store.volumes) ∧ s' = { s with
        store := { s.store with volumes := volumes }
        bases := bases
        dns := dns
        ports := ports
        monitors := monitors } := by
  have hsame : ∃ volumes bases dns ports monitors, (o.isBaseUpdate = false → bases = s.bases) ∧
      (o.isVolumeUpdate = false → volumes = s.store.volumes) ∧ s = { s with
        store := { s.store with volumes := volumes }
        bases := bases
        dns := dns
        ports := ports
        monitors := monitors } := ⟨_, _, _, _, _, fun _ => rfl, fun _ => rfl, rfl⟩
  cases o with
  | external c => cases h; exact hsame
  | list =>
    cases r with
    | error e => cases h; exact hsame
    | ok all =>
      simp only [exec] at h
      split_ifs at h
      cases h
      exact hsame
  | get | volume =>
    cases r with
    | error e => cases h; exact hsame
    | ok v =>
      simp only [exec] at h
      split_ifs at h
      cases h
      exact hsame
  | newID =>
    simp only [exec] at h
    split_ifs at h
    cases h
    exact hsame
  | putVolume v =>
    cases r with
    | some e => cases h; exact hsame
    | none =>
      simp only [exec, unlessError, Option.map_eq_some_iff] at h
      obtain ⟨st, hst, rfl⟩ := h
      unfold Store.putVolume at hst
      split_ifs at hst
      · cases hst
      · cases hst
        exact ⟨_, _, _, _, _, fun _ => rfl, nofun, rfl⟩
  | deleteVolume name =>
    cases r with
    | some e => cases h; exact hsame
    | none => cases h; exact ⟨_, _, _, _, _, fun _ => rfl, nofun, rfl⟩
  | basesGet ref =>
    cases r with
    | error e => cases h; exact hsame
    | ok b =>
      simp only [exec] at h
      split_ifs at h
      cases h
      exact hsame
  | basesPull ref policy =>
    obtain ⟨r₁, fetched, writes⟩ := r
    simp only [exec] at h
    split_ifs at h
    cases h
    exact ⟨_, _, _, _, _, nofun, fun _ => rfl, rfl⟩
  | basesImport ref v kernel rootfs =>
    obtain ⟨r₁, writes⟩ := r
    simp only [exec] at h
    split_ifs at h
    cases h
    exact ⟨_, _, _, _, _, nofun, fun _ => rfl, rfl⟩
  | basesRemove ref checked =>
    obtain ⟨r₁, deletions⟩ := r
    simp only [exec] at h
    split_ifs at h
    cases h
    exact ⟨_, _, _, _, _, nofun, fun _ => rfl, rfl⟩
  | reservePorts v =>
    cases r with
    | some e => cases h; exact hsame
    | none =>
      cases h
      by_cases hp : (s.ports v.id).length > 0
      · simpa only [hp, if_true] using hsame
      · exact ⟨_, _, _, _, _, fun _ => rfl, fun _ => rfl, by rw [if_neg hp]⟩
  | startDNS v =>
    cases r with
    | some e => cases h; exact hsame
    | none =>
      cases h
      exact ⟨_, _, _, _, _, fun _ => rfl, fun _ => rfl, rfl⟩
  | stopDNS i =>
    cases h
    exact ⟨_, _, _, _, _, fun _ => rfl, fun _ => rfl, rfl⟩
  | claimMonitor v =>
    simp only [exec] at h
    split_ifs at h
    cases h
    exact ⟨_, _, _, _, _, fun _ => rfl, fun _ => rfl, rfl⟩
  | releaseMonitor v =>
    simp only [exec] at h
    split_ifs at h
    · cases h
      exact ⟨_, _, _, _, _, fun _ => rfl, fun _ => rfl, rfl⟩
    · cases h
      exact hsame
  | lock | unlock | insert | update | delete | vmStart | kill | goMonitor | serve => cases ho

variable {e : Edit}

theorem exec_update {now : Time} (h : exec D t s (.update id e) (.ok now) = some s') :
    ∃ x y, s.store.row id = some x ∧ e.apply x = .ok y ∧
      s' = s.update id e (s.store.replace id { y with updated := now }) := by
  simp only [exec, Option.map_eq_some_iff] at h
  obtain ⟨st, hst, rfl⟩ := h
  cases hu : s.store.update id now e.apply with
  | error err => simp [hu, Except.toOption] at hst
  | ok st' =>
    obtain rfl : st' = st := by simpa [hu, Except.toOption] using hst
    obtain ⟨x, y, hx, hy, rfl⟩ := Store.update_eq_ok hu
    exact ⟨x, y, hx, hy, rfl⟩

variable {v : Sandbox}

theorem exec_insert (h : exec D t s (.insert v) none = some s') :
    ∃ st, s.store.create v = .ok st ∧ s' = s.insert v st := by
  simp only [exec, unlessError, Option.map_eq_some_iff] at h
  obtain ⟨st, hst, rfl⟩ := h
  cases hc : s.store.create v with
  | error err => simp [hc, Except.toOption] at hst
  | ok st' =>
    obtain rfl : st' = st := by simpa [hc, Except.toOption] using hst
    exact ⟨st', rfl, rfl⟩

/-- What a call can do: everything that happens to the core of the state, with the reason. -/
inductive Effect (t : ℕ) (s : Host) : (o : Op) → o.Reply → Host → Prop where
  | plain {o : Op} {r : o.Reply} {volumes : List Volume} {bases : Base.Files}
      {dns : String → Bool} {ports : String → List Port} {monitors : String → ℕ}
      (ho : o.isCore = false) (hb : o.isBaseUpdate = false → bases = s.bases)
      (hv : o.isVolumeUpdate = false → volumes = s.store.volumes) :
      Effect t s o r { s with
        store := { s.store with volumes := volumes }
        bases := bases
        dns := dns
        ports := ports
        monitors := monitors }
  | refused {o : Op} {r : o.Reply} (ho : o.isCore = true) : Effect t s o r s
  | locked {k : String} {r : Unit} (hfree : s.locks k = none) :
      Effect t s (.lock k) r { s with locks := Function.update s.locks k (some t) }
  | unlocked {k : String} {r : Unit} (hheld : s.locks k = some t) :
      Effect t s (.unlock k) r { s with locks := Function.update s.locks k none }
  | inserted {v : Sandbox} {st : Store} (hst : s.store.create v = .ok st) :
      Effect t s (.insert v) none (s.insert v st)
  | edited {id : String} {e : Edit} {now : Time} {x y : Sandbox} (hx : s.store.row id = some x)
      (hy : e.apply x = .ok y) : Effect t s (.update id e) (.ok now)
        (s.update id e (s.store.replace id { y with updated := now }))
  | deleted {id : String} : Effect t s (.delete id) none (s.delete id)
  | started {v : Sandbox} {b : Base.Bundle} {r : ℤ × String × Option String} :
      Effect t s (.vmStart v b) r { s with live := Function.update s.live v.id true }
  | killed {v : Sandbox} :
      Effect t s (.kill v) none { s with live := Function.update s.live v.id false }
  | handed {v : Sandbox} {r : Unit} :
      Effect t s (.goMonitor v) r { s with monitored := v.id :: s.monitored }
  | served {r : Unit} : Effect t s .serve r { s with booting := none }

theorem effect_of_exec (h : exec D t s o r = some s') : Effect t s o r s' := by
  cases hcore : o.isCore with
  | false =>
    obtain ⟨volumes, bases, dns, ports, monitors, hb, hv, rfl⟩ := exec_of_not_core h hcore
    exact .plain hcore hb hv
  | true =>
    cases o with
    | lock k =>
      simp only [exec] at h
      split_ifs at h with hfree
      cases h
      exact .locked hfree
    | unlock k =>
      simp only [exec] at h
      split_ifs at h with hheld
      cases h
      exact .unlocked hheld
    | insert v =>
      cases r with
      | some e => cases h; exact .refused hcore
      | none =>
        obtain ⟨st, hst, rfl⟩ := exec_insert h
        exact .inserted hst
    | update i e =>
      cases r with
      | error err => cases h; exact .refused hcore
      | ok now =>
        obtain ⟨x, y, hx, hy, rfl⟩ := exec_update h
        exact .edited hx hy
    | delete i =>
      cases r with
      | some e => cases h; exact .refused hcore
      | none => cases h; exact .deleted
    | vmStart v b => cases h; exact .started
    | kill v =>
      cases r with
      | some e => cases h; exact .refused hcore
      | none => cases h; exact .killed
    | goMonitor v => cases h; exact .handed
    | serve => cases h; exact .served
    | _ => cases hcore

variable {x y : Sandbox}

theorem editPermit.sameKeys (hp : editPermit t s id e)
    (hx : s.store.row id = some x) (h : e.apply x = .ok y) : SameKeys x y := by
  cases hw : e.whole with
  | none =>
    rw [Edit.apply_frame h hw]
    exact ⟨rfl, rfl, rfl⟩
  | some v =>
    obtain rfl := Edit.apply_whole h hw
    cases e with
    | createCommit w =>
      cases hw
      exact hp.2.2.2.2.2 x hx
    | startCommit w =>
      cases hw
      exact hp.2.2.2.2.1 x hx
    | _ => cases hw

structure Edited (s s' : Host) (id : String) (e : Edit) (x y : Sandbox) : Prop where
  found : s.store.row id = some x
  applied : e.apply x = .ok y
  keys : SameKeys x y
  row_self : ∃ now, s'.store.row id = some { y with updated := now }
  row_other : ∀ i, i ≠ id → s'.store.row i = s.store.row i
  admitted_self :
    s'.admitted id = ((s.admitted id || Host.isAdmission e) && reservesVMResources y)
  admitted_other : ∀ i, i ≠ id → s'.admitted i = s.admitted i
  frame : s' = { s with store := s'.store, admitted := s'.admitted }

theorem edited {now : Time} (hp : editPermit t s id e)
    (h : exec D t s (.update id e) (.ok now) = some s') :
    ∃ x y, Edited s s' id e x y ∧ s'.store = s.store.replace id { y with updated := now } := by
  obtain ⟨x, y, hx, hy, rfl⟩ := exec_update h
  have hkeys := hp.sameKeys hx hy
  have hyid : ({ y with updated := now } : Sandbox).id = id :=
    hkeys.1.trans (Store.row_eq_some hx).2
  have hrow := Store.row_replace hyid hx
  refine ⟨x, y, ⟨hx, hy, hkeys, ⟨now, ?_⟩, ?_, ?_, ?_, rfl⟩, rfl⟩
  · simpa [Host.update] using hrow id
  · intro i hi
    simpa [Host.update, hi] using hrow i
  · have hres : Host.reserves (s.store.replace id { y with updated := now }) id =
        reservesVMResources y := by
      have hself := hrow id
      rw [if_pos rfl] at hself
      unfold Host.reserves
      rw [hself]
      rfl
    simp [Host.update, hres]
  · intro i hi
    simp [Host.update, hi]

theorem Edited.generation (h : Edited s s' id e x y)
    (hp : editPermit t s id e) : y.generation = x.generation ∨
      (s.locks allocations = some t ∧ (s.NoAlias → Owns t id s) ∧ Host.isAdmission e = true) := by
  cases hw : e.whole with
  | none =>
    rw [Edit.apply_frame h.applied hw]
    exact Or.inl rfl
  | some v =>
    obtain rfl := Edit.apply_whole h.applied hw
    cases e with
    | createCommit w =>
      cases hw
      exact Or.inl (hp.2.2.2.2.1.trans (hp.2.1 x h.found).symm)
    | startCommit w => exact Or.inr ⟨hp.1, fun hn => (hp.2.2.2.2.2.2 hn).1, rfl⟩
    | _ => cases hw

def Edit.ends : Edit → Bool
  | .finished _ _ _ | .removing | .release => true
  | .startFail _ _ released _ | .interrupted released => released
  | _ => false

/-- An admitted row stays admitted under edits that do not end a reservation. -/
theorem Edited.keeps_admission (h : Edited s s' id e x y) (hi : Inv s)
    (hp : editPermit t s id e) (he : e.ends = false) (ha : s.admitted id = true) :
    s'.admitted id = true := by
  obtain ⟨v, hv, hres, hgen⟩ := hi.admitted id ha
  obtain rfl : x = v := Option.some.inj (h.found.symm.trans hv)
  have hself := h.admitted_self
  rw [ha, Bool.true_or, Bool.true_and] at hself
  rw [hself]
  have hzero : ¬ IsGeneration id 0 s := fun h0 => by
    have := h0 x h.found
    omega
  cases e with
  | createFail msg => exact absurd hp.2 hzero
  | createCommit w => exact absurd hp.2.1 hzero
  | startCommit w =>
    obtain rfl := Edit.apply_whole h.applied rfl
    simp [reservesVMResources, hp.2.2.1]
  | finished | removing | release => cases he
  | startFail | interrupted => exact Edit.apply_reserves h.applied he rfl hres
  | _ => exact Edit.apply_reserves h.applied rfl rfl hres

/-- An admitted row stays admitted unless its owner ends the reservation. -/
theorem Edited.keeps (h : Edited s s' id e x y) (hi : Inv s)
    (hp : editPermit t s id e) (hn : s.NoAlias) (ha : s.admitted id = true) :
    s'.admitted id = true ∨ (Owns t id s ∧ s.live id = false) := by
  cases he : e.ends with
  | false => exact .inl (h.keeps_admission hi hp he ha)
  | true =>
    right
    cases e with
    | startFail | interrupted => exact ⟨(hp hn).1, (hp hn).2 he⟩
    | finished | removing | release => exact hp hn
    | _ => cases he

theorem Edited.evolves (h : Edited s s' id e x y) (hi : Inv s)
    (hp : editPermit t s id e) : Evolves t s s' := by
  have hfr := h.frame
  have hlocks : s'.locks = s.locks := by rw [hfr]
  have hboot : s'.booting = s.booting := by rw [hfr]
  have hcreated : s'.created = s.created := by rw [hfr]
  have hmon : s'.monitored = s.monitored := by rw [hfr]
  have hlive : s'.live = s.live := by rw [hfr]
  refine ⟨fun k t' _ hk => by rw [hlocks]; exact hk, fun t' _ ht => by rw [hboot]; exact ht,
    fun hb => by rw [hboot]; exact hb, fun a ha => by rw [hcreated]; exact ha,
    fun _ => hcreated, fun i him => by rw [hmon]; exact him,
    fun i him => Or.inl (by rwa [hmon] at him), ?_, ?_, ?_,
    fun _ i hl => Or.inl (by rwa [hlive] at hl)⟩
  · intro i w hw
    left
    by_cases hid : i = id
    · subst i
      obtain ⟨now, hself⟩ := h.row_self
      cases hself.symm.trans hw
      refine ⟨x, h.found, h.keys, ?_⟩
      rcases h.generation hp with hg | ⟨ha, ho, _⟩
      · exact Or.inl hg
      · exact Or.inr ⟨ha, ho⟩
    · rw [h.row_other i hid] at hw
      exact ⟨w, hw, ⟨rfl, rfl, rfl⟩, Or.inl rfl⟩
  · intro i ha
    by_cases hid : i = id
    · subst i
      rw [h.admitted_self, Bool.and_eq_true, Bool.or_eq_true] at ha
      rcases ha.1 with ha | ha
      · exact Or.inl ha
      · right
        cases e with
        | startCommit w => exact hp.1
        | _ => cases ha
    · rw [h.admitted_other i hid] at ha
      exact Or.inl ha
  · intro hn i ha
    by_cases hid : i = id
    · subst i
      rcases h.keeps hi hp hn ha with hk | ⟨ho, _⟩
      · exact Or.inl hk
      · exact Or.inr ho
    · left
      rw [h.admitted_other i hid]
      exact ha

theorem Evolves.refl (t : ℕ) (s : Host) : Evolves t s s where
  locks _ _ _ h := h
  boots _ _ h := h
  serving h := h
  created _ h := h
  fresh _ := rfl
  monitored _ h := h
  handed _ h := Or.inl h
  rows _ w h := Or.inl ⟨w, h, ⟨rfl, rfl, rfl⟩, Or.inl rfl⟩
  admits _ h := Or.inl h
  keeps _ _ h := Or.inl h
  live _ _ h := Or.inl h

theorem evolves_insert {st : Store} (hp : permit t s (.insert v) none)
    (hst : s.store.create v = .ok st) : Evolves t s (s.insert v st) := by
  refine { Evolves.refl t s with
    created := fun a ha => List.mem_cons_of_mem _ ha
    fresh := fun hne => absurd hp.1 hne
    rows := ?_ }
  intro i w hw
  have hrow : st.row i = some w := hw
  rw [Store.row_create hst] at hrow
  split_ifs at hrow with hiv
  · subst i
    exact Or.inr ⟨hp.1, hp.2.2.1⟩
  · exact Or.inl ⟨w, hrow, ⟨rfl, rfl, rfl⟩, Or.inl rfl⟩

theorem evolves_delete (hp : permit t s (.delete id) none) : Evolves t s (s.delete id) := by
  refine { Evolves.refl t s with rows := ?_, admits := ?_, keeps := ?_ }
  · intro i w hw
    have hrow : (s.store.delete id).row i = some w := hw
    rw [Store.row_delete] at hrow
    split_ifs at hrow
    exact Or.inl ⟨w, hrow, ⟨rfl, rfl, rfl⟩, Or.inl rfl⟩
  · intro i ha
    by_cases hid : i = id
    · subst i
      simp [Host.delete] at ha
    · exact Or.inl (by simpa [Host.delete, hid] using ha)
  · intro hn i ha
    by_cases hid : i = id
    · subst i
      exact Or.inr (hp hn).1
    · exact Or.inl (by simpa [Host.delete, hid] using ha)

theorem evolves (hi : Inv s) (hp : permit t s o r) (h : exec D t s o r = some s') :
    Evolves t s s' := by
  have hrefl := Evolves.refl t s
  cases effect_of_exec h with
  | plain ho hb hv => exact { hrefl with }
  | refused ho => exact hrefl
  | @locked k _ hfree =>
    refine { hrefl with locks := ?_ }
    intro k' u _ hk
    have hne : k' ≠ k := by
      rintro rfl
      rw [hfree] at hk
      cases hk
    simpa [hne] using hk
  | @unlocked k _ hheld =>
    refine { hrefl with locks := ?_ }
    intro k' u hu hk
    have hne : k' ≠ k := by
      rintro rfl
      rw [hheld] at hk
      exact hu (Option.some.inj hk).symm
    simpa [hne] using hk
  | inserted hst => exact evolves_insert hp hst
  | edited hx hy =>
    obtain ⟨x, y, hed, _⟩ := edited hp h
    exact hed.evolves hi hp
  | deleted => exact evolves_delete hp
  | @started v b r =>
    refine { hrefl with live := ?_ }
    intro hn i hl
    by_cases hid : i = v.id
    · subst i
      exact Or.inr (hp hn).1
    · exact Or.inl (by simpa [hid] using hl)
  | @killed v =>
    refine { hrefl with live := ?_ }
    intro hn i hl
    by_cases hid : i = v.id
    · subst i
      simp at hl
    · exact Or.inl (by simpa [hid] using hl)
  | handed =>
    exact { hrefl with
      monitored := fun i him => List.mem_cons_of_mem _ him
      handed := fun i _ => Or.inr hp }
  | served =>
    have hboot : s.booting = some t := hp
    refine { hrefl with boots := ?_, serving := fun _ => rfl }
    intro u hu hb
    exact absurd (Option.some.inj (hboot.symm.trans hb)).symm hu

theorem sharesVolume_comm (v x : Sandbox) : sharesVolume v x = sharesVolume x v := by
  rw [Bool.eq_iff_iff]
  simp only [sharesVolume, List.any_eq_true, beq_iff_eq]
  constructor
  · rintro ⟨m, hm, n, hn, hmn⟩
    exact ⟨n, hn, m, hm, hmn.symm⟩
  · rintro ⟨m, hm, n, hn, hmn⟩
    exact ⟨n, hn, m, hm, hmn.symm⟩

theorem SameKeys.sharesVolume {w : Sandbox} (h : SameKeys v w) :
    sharesVolume w x = sharesVolume v x := by
  unfold Niflhel.sharesVolume
  rw [h.2.2]

theorem Inv.row_recorded (hi : Inv s) (hv : s.store.row id = some v) :
    (id, v.name) ∈ s.created := by
  obtain ⟨hmem, rfl⟩ := Store.row_eq_some hv
  exact hi.recorded v hmem

theorem inv_insert {st : Store} (hi : Inv s) (hp : permit t s (.insert v) none)
    (hst : s.store.create v = .ok st) : Inv (s.insert v st) := by
  have hrow := Store.row_create hst
  have hstore := (Store.create_eq_ok hst).2
  have hfresh : ∀ i w, s.store.row i = some w → i ≠ v.id := fun i w hw =>
    hp.2.2.1 _ (hi.row_recorded hw)
  have hold : ∀ i, s.admitted i = true → st.row i = s.store.row i := by
    intro i ha
    obtain ⟨w, hw, _⟩ := hi.admitted i ha
    rw [hrow, if_neg (hfresh i w hw)]
  refine ⟨Store.keyed_create hi.keyed hst, ?_, ?_, ?_, ?_, ?_, ?_, hi.locks, ?_⟩
  · intro w hw
    have hw' : w ∈ st.sandboxes := hw
    rw [hstore] at hw'
    rcases List.mem_cons.1 hw' with rfl | hw''
    · exact List.mem_cons_self ..
    · exact List.mem_cons_of_mem _ (hi.recorded w hw'')
  · intro a ha
    rcases List.mem_cons.1 ha with rfl | ha'
    · exact hp.2.1
    · exact hi.ids a ha'
  · intro w hw hc
    have hw' : w ∈ st.sandboxes := hw
    rw [hstore] at hw'
    rcases List.mem_cons.1 hw' with rfl | hw''
    · exact hp.2.2.2.2.2
    · exact hi.creating w hw'' hc
  · intro i ha
    obtain ⟨w, hw, hres⟩ := hi.admitted i ha
    exact ⟨w, (hold i ha).trans hw, hres⟩
  · intro w hw ha x hx hax hne
    exact hi.exclusive w ((hold w.id ha).symm.trans hw) ha x ((hold x.id hax).symm.trans hx)
      hax hne
  · intro w hw hact
    have hw' : st.row w.id = some w := hw
    rw [hrow] at hw'
    split_ifs at hw'
    · cases hw'
      rw [hp.2.2.2.2.1] at hact
      cases hact
    · exact hi.active w hw' hact
  · intro hn
    exact hi.live fun a ha b hb => hn a (List.mem_cons_of_mem _ ha) b
      (List.mem_cons_of_mem _ hb)

theorem inv_delete (hi : Inv s) (hp : permit t s (.delete id) none) : Inv (s.delete id) := by
  have hmem : ∀ w ∈ (s.store.delete id).sandboxes, w ∈ s.store.sandboxes := fun w hw =>
    (List.mem_filter.1 hw).1
  have hadm : ∀ i, (s.delete id).admitted i = true → i ≠ id ∧ s.admitted i = true := by
    intro i ha
    by_cases hid : i = id
    · subst i
      simp [Host.delete] at ha
    · exact ⟨hid, by simpa [Host.delete, hid] using ha⟩
  have hrow : ∀ i, i ≠ id → (s.store.delete id).row i = s.store.row i := by
    intro i hid
    rw [Store.row_delete, if_neg hid]
  refine ⟨Store.keyed_delete hi.keyed id, fun w hw => hi.recorded w (hmem w hw), hi.ids,
    fun w hw => hi.creating w (hmem w hw), ?_, ?_, ?_, hi.locks, ?_⟩
  · intro i ha
    obtain ⟨hid, ha'⟩ := hadm i ha
    obtain ⟨w, hw, hres⟩ := hi.admitted i ha'
    exact ⟨w, (hrow i hid).trans hw, hres⟩
  · intro w hw ha x hx hax hne
    obtain ⟨hwid, ha'⟩ := hadm w.id ha
    obtain ⟨hxid, hax'⟩ := hadm x.id hax
    exact hi.exclusive w ((hrow w.id hwid).symm.trans hw) ha' x
      ((hrow x.id hxid).symm.trans hx) hax' hne
  · intro w hw hact
    have hw' : (s.store.delete id).row w.id = some w := hw
    rw [Store.row_delete] at hw'
    split_ifs at hw' with hid
    simpa [Host.delete, hid] using hi.active w hw' hact
  · intro hn i hl
    by_cases hid : i = id
    · subst i
      exact absurd ((hp hn).2.symm.trans hl) (by simp)
    · simpa [Host.delete, hid] using hi.live hn i hl

/-- The admitted rows after an edit: the old ones, and the edited one if it starts. -/
theorem Edited.admitted {w : Sandbox} (h : Edited s s' id e x y) (hi : Inv s)
    (hp : editPermit t s id e) (hw : s'.store.row w.id = some w) (ha : s'.admitted w.id = true) :
    ∃ v, s.store.row w.id = some v ∧ SameKeys v w ∧ reservesVMResources w = true ∧
      1 ≤ w.generation ∧ (s.admitted w.id = true ∨ (w.id = id ∧ Exclusive w s)) := by
  by_cases hid : w.id = id
  · obtain ⟨now, hself⟩ := h.row_self
    obtain rfl : { y with updated := now } = w :=
      Option.some.inj (hself.symm.trans (hid ▸ hw))
    rw [hid, h.admitted_self, Bool.and_eq_true, Bool.or_eq_true] at ha
    refine ⟨x, hid ▸ h.found, h.keys, ha.2, ?_⟩
    rcases ha.1 with hold | hnew
    · obtain ⟨v, hv, _, hgen⟩ := hi.admitted id hold
      obtain rfl : x = v := Option.some.inj (h.found.symm.trans hv)
      refine ⟨?_, Or.inl (hid ▸ hold)⟩
      cases e with
      | startCommit w =>
        obtain rfl := Edit.apply_whole h.applied rfl
        exact hp.2.2.2.1
      | _ =>
        rcases h.generation hp with hg | ⟨_, _, hadm⟩
        · exact hgen.trans (le_of_eq hg.symm)
        · cases hadm
    · cases e with
      | startCommit w =>
        obtain rfl := Edit.apply_whole h.applied rfl
        exact ⟨hp.2.2.2.1, Or.inr ⟨hid, hp.2.2.2.2.2.1⟩⟩
      | _ => cases hnew
  · rw [h.row_other _ hid] at hw
    rw [h.admitted_other _ hid] at ha
    obtain ⟨v, hv, hres, hgen⟩ := hi.admitted w.id ha
    obtain rfl : w = v := Option.some.inj (hw.symm.trans hv)
    exact ⟨w, hw, ⟨rfl, rfl, rfl⟩, hres, hgen, Or.inl ha⟩

theorem Edited.exclusive (h : Edited s s' id e x y) (hi : Inv s)
    (hp : editPermit t s id e) (v : Sandbox) (hv : s'.store.row v.id = some v)
    (hav : s'.admitted v.id = true) : Exclusive v s' := by
  intro w hw haw hne
  obtain ⟨v₀, hv₀, hkv, _, _, hcv⟩ := h.admitted hi hp hv hav
  obtain ⟨w₀, hw₀, hkw, _, _, hcw⟩ := h.admitted hi hp hw haw
  have hvid : v₀.id = v.id := hkv.1.symm
  have hwid : w₀.id = w.id := hkw.1.symm
  -- At most one of the two rows is the edited one; the other is as it was.
  rcases hcv with hcv | ⟨hvi, hcv⟩
  · rw [hkv.sharesVolume]
    rcases hcw with hcw | ⟨hwi, hcw⟩
    · rw [sharesVolume_comm, hkw.sharesVolume, sharesVolume_comm]
      refine hi.exclusive v₀ (by rwa [hvid]) (by rwa [hvid]) w₀ (by rwa [hwid]) (by rwa [hwid]) ?_
      rw [hvid, hwid]
      exact hne
    · rw [sharesVolume_comm]
      refine hcw v₀ (by rwa [hvid]) (by rwa [hvid]) ?_
      rw [hvid]
      exact hne.symm
  · rcases hcw with hcw | ⟨hwi, _⟩
    · rw [sharesVolume_comm, hkw.sharesVolume, sharesVolume_comm]
      refine hcv w₀ (by rwa [hwid]) (by rwa [hwid]) ?_
      rw [hwid]
      exact hne
    · exact absurd (hwi.trans hvi.symm) hne

theorem Edited.active (h : Edited s s' id e x y) (hi : Inv s)
    (hp : editPermit t s id e) (w : Sandbox) (hw : s'.store.row w.id = some w) (hact : w.state.isActive = true) :
    s'.admitted w.id = true := by
  by_cases hid : w.id = id
  · obtain ⟨now, hself⟩ := h.row_self
    obtain rfl : { y with updated := now } = w :=
      Option.some.inj (hself.symm.trans (hid ▸ hw))
    have hy : y.state.isActive = true := hact
    rw [hid, h.admitted_self, reserves_of_active hy, Bool.and_true, Bool.or_eq_true]
    cases hwhole : e.whole with
    | none =>
      obtain rfl := (Store.row_eq_some h.found).2
      exact Or.inl (hi.active x h.found (Edit.apply_active h.applied hwhole hy))
    | some v =>
      obtain rfl := Edit.apply_whole h.applied hwhole
      cases e with
      | createCommit w =>
        cases hwhole
        rw [hp.2.2.2.1] at hy
        cases hy
      | startCommit w => exact Or.inr rfl
      | _ => cases hwhole
  · rw [h.row_other _ hid] at hw
    rw [h.admitted_other _ hid]
    exact hi.active w hw hact

theorem inv_update {now : Time} (hi : Inv s) (hp : editPermit t s id e)
    (h : exec D t s (.update id e) (.ok now) = some s') : Inv s' := by
  obtain ⟨x, y, hed, hstore⟩ := edited hp h
  have hfr := hed.frame
  have hcreated : s'.created = s.created := by rw [hfr]
  obtain ⟨hxmem, hxid⟩ := Store.row_eq_some hed.found
  have hyid : ({ y with updated := now } : Sandbox).id = id := hed.keys.1.trans hxid
  have hyname : ∀ z, s.store.row id = some z → y.name = z.name := by
    intro z hz
    obtain rfl : x = z := Option.some.inj (hed.found.symm.trans hz)
    exact hed.keys.2.1
  have hmem : ∀ w ∈ s'.store.sandboxes, w = { y with updated := now } ∨
      w ∈ s.store.sandboxes := by
    intro w hw
    rw [hstore] at hw
    exact Store.mem_replace hw
  have hkeyed : s'.store.Keyed := by
    rw [hstore]
    exact hi.keyed.replace hyid hyname
  refine ⟨hkeyed, ?_, ?_, ?_, ?_, hed.exclusive hi hp, hed.active hi hp, ?_, ?_⟩
  · intro w hw
    rw [hcreated]
    rcases hmem w hw with rfl | hw'
    · have hrec := hi.recorded x hxmem
      rwa [← hed.keys.1, ← hed.keys.2.1] at hrec
    · exact hi.recorded w hw'
  · rw [hcreated]
    exact hi.ids
  · intro w hw hc
    rcases hmem w hw with rfl | hw'
    · cases hwhole : e.whole with
      | none =>
        obtain ⟨hxc, hrel⟩ := Edit.apply_creating hed.applied hwhole hc
        rcases hrel with hrel | hrel
        · exact hrel.trans (hi.creating x hxmem hxc)
        · exact hrel
      | some z =>
        obtain rfl := Edit.apply_whole hed.applied hwhole
        have hyc : y.state = .creating := hc
        cases e with
        | createCommit w =>
          cases hwhole
          exact absurd (hp.2.2.2.1.symm.trans hyc) (by simp)
        | startCommit w =>
          cases hwhole
          exact absurd (hp.2.2.1.symm.trans hyc) (by simp)
        | _ => cases hwhole
    · exact hi.creating w hw' hc
  · intro i ha
    have hrow : ∃ w, s'.store.row i = some w := by
      by_cases hid : i = id
      · subst i
        obtain ⟨now', hself⟩ := hed.row_self
        exact ⟨_, hself⟩
      · rw [hed.admitted_other i hid] at ha
        obtain ⟨w, hw, _⟩ := hi.admitted i ha
        exact ⟨w, (hed.row_other i hid).trans hw⟩
    obtain ⟨w, hw⟩ := hrow
    obtain rfl := (Store.row_eq_some hw).2
    obtain ⟨v, _, _, hres, hgen, _⟩ := hed.admitted hi hp hw ha
    exact ⟨w, hw, hres, hgen⟩
  · intro k u hk
    rw [hfr] at hk ⊢
    exact hi.locks k u hk
  · intro hn i hl
    have hn' : s.NoAlias := by
      unfold Host.NoAlias at hn ⊢
      rwa [hcreated] at hn
    have hl' : s.live i = true := by
      rw [hfr] at hl
      exact hl
    have ha := hi.live hn' i hl'
    by_cases hid : i = id
    · subst i
      rcases hed.keeps hi hp hn' ha with hk | ⟨_, hdead⟩
      · exact hk
      · rw [hl'] at hdead
        cases hdead
    · rw [hed.admitted_other i hid]
      exact ha

theorem inv_step (hi : Inv s) (hp : permit t s o r) (h : exec D t s o r = some s') : Inv s' := by
  cases effect_of_exec h with
  | plain ho hb hv =>
    exact ⟨⟨hi.keyed.ids, hi.keyed.names⟩, hi.recorded, hi.ids, hi.creating, hi.admitted,
      hi.exclusive, hi.active, hi.locks, hi.live⟩
  | refused ho => exact hi
  | @locked k _ hfree =>
    refine { hi with locks := ?_ }
    intro k' u hk
    by_cases hkk : k' = k
    · subst k'
      have hu : t = u := by simpa using hk
      subst u
      exact hp
    · exact hi.locks k' u (by simpa [hkk] using hk)
  | @unlocked k _ hheld =>
    refine { hi with locks := ?_ }
    intro k' u hk
    by_cases hkk : k' = k
    · subst k'
      simp at hk
    · exact hi.locks k' u (by simpa [hkk] using hk)
  | inserted hst => exact inv_insert hi hp hst
  | edited hx hy => exact inv_update hi hp h
  | deleted => exact inv_delete hi hp
  | @started v b r =>
    refine { hi with live := ?_ }
    intro hn i hl
    by_cases hid : i = v.id
    · subst i
      exact (hp hn).2
    · exact hi.live hn i (by simpa [hid] using hl)
  | @killed v =>
    refine { hi with live := ?_ }
    intro hn i hl
    by_cases hid : i = v.id
    · subst i
      simp at hl
    · exact hi.live hn i (by simpa [hid] using hl)
  | handed =>
    refine { hi with locks := ?_ }
    intro k u hk
    rcases hi.locks k u hk with hb | hb | hb
    · exact Or.inl hb
    · exact Or.inr (Or.inl hb)
    · exact Or.inr (Or.inr (List.mem_cons_of_mem _ hb))
  | served => exact { hi with locks := fun _ _ _ => Or.inl rfl }

/-- What a call can do to one row. -/
theorem row_step (hp : permit t s o r) (h : exec D t s o r = some s') (id : String) :
    s'.store.row id = s.store.row id ∨
      (∃ e x y, o = .update id e ∧ editPermit t s id e ∧ Edited s s' id e x y) ∨
      (s.store.row id = none ∧ ∃ v, o = .insert v ∧ v.id = id ∧ s'.store.row id = some v) ∨
      (o = .delete id ∧ s'.store.row id = none) := by
  cases effect_of_exec h with
  | @inserted v st hst =>
    by_cases hid : id = v.id
    · right; right; left
      refine ⟨?_, v, rfl, hid.symm, ?_⟩
      · cases hrow : s.store.row id with
        | none => rfl
        | some w =>
          obtain ⟨hw, hwid⟩ := Store.row_eq_some hrow
          exact absurd (hwid.trans hid) ((Store.create_eq_ok hst).1 w hw).1
      · change st.row id = _
        rw [Store.row_create hst, if_pos hid]
    · left
      change st.row id = _
      rw [Store.row_create hst, if_neg hid]
  | @edited i e now _ _ hx hy =>
    obtain ⟨x, y, hed, _⟩ := edited hp h
    by_cases hid : id = i
    · subst i
      exact Or.inr (Or.inl ⟨e, x, y, rfl, hp, hed⟩)
    · exact Or.inl (hed.row_other id hid)
  | @deleted i =>
    by_cases hid : id = i
    · subst i
      right; right; right
      refine ⟨rfl, ?_⟩
      change (s.store.delete id).row id = none
      rw [Store.row_delete, if_pos rfl]
    · left
      change (s.store.delete i).row id = _
      rw [Store.row_delete, if_neg hid]
  | plain | refused | locked | unlocked | started | killed | handed | served => exact Or.inl rfl

end effects

def jobPre : Job → ℕ → Host → Prop
  | .recover, t, s => s.booting = some t ∧ s.monitored = []
  | .monitor v, _, s => s.booting = none ∨ v.id ∈ s.monitored
  | _, _, s => s.booting = none

def ownership (D : Setup) : Discipline (daemon D) where
  inv := Inv
  permit := permit
  fresh _ _ := True
  pre := jobPre
  inv_step := inv_step
  fresh_step _ _ _ _ _ := trivial

section assertions
variable {D : Setup} {t u : ℕ} {s s' : Host} {id : String}

theorem Inv.owns_unique (hi : Inv s) (ht : Owns t id s) (hu : Owns u id s) : t = u := by
  rcases ht with ht | ⟨ht, hmt⟩ <;> rcases hu with hu | ⟨hu, hmu⟩
  · exact Option.some.inj (ht.symm.trans hu)
  · rcases hi.locks id t ht with hb | hb | hb
    · rw [hu] at hb
      cases hb
    · exact Option.some.inj (hb.symm.trans hu)
    · exact absurd hb hmu
  · rcases hi.locks id u hu with hb | hb | hb
    · rw [ht] at hb
      cases hb
    · exact Option.some.inj (ht.symm.trans hb)
    · exact absurd hb hmt
  · exact Option.some.inj (ht.symm.trans hu)

theorem Evolves.noAlias (h : Evolves u s s') (hn : s'.NoAlias) : s.NoAlias :=
  fun a ha b hb => hn a (h.created a ha) b (h.created b hb)

theorem Evolves.owns (h : Evolves u s s') (hu : u ≠ t) (ho : Owns t id s) : Owns t id s' := by
  rcases ho with ho | ⟨hb, hm⟩
  · exact Or.inl (h.locks id t (Ne.symm hu) ho)
  · refine Or.inr ⟨h.boots t (Ne.symm hu) hb, fun hm' => ?_⟩
    rcases h.handed id hm' with hm' | hb' | hb'
    · exact hm hm'
    · rw [hb] at hb'
      cases hb'
    · exact hu (Option.some.inj (hb'.symm.trans hb))

theorem Owns.lock (h : Owns t id s) (k : String) :
    Owns t id { s with locks := Function.update s.locks k (some t) } := by
  rcases h with h | h
  · left
    by_cases hk : id = k
    · simp [hk]
    · simpa [hk] using h
  · exact Or.inr h

theorem Owns.unlock {k : String} (h : Owns t id s) (hk : id ≠ k) :
    Owns t id { s with locks := Function.update s.locks k none } := by
  rcases h with h | h
  · exact Or.inl (by simpa [hk] using h)
  · exact Or.inr h

theorem allocations_not_isID : isID allocations = false := by decide

/-- No sandbox has the key of the allocation mutex as its identifier. -/
theorem Inv.ne_allocations (hi : Inv s) {name : String} (h : (id, name) ∈ s.created) :
    id ≠ allocations := by
  rintro rfl
  have hid := hi.ids _ h
  rw [allocations_not_isID] at hid
  cases hid

/-- Assertions of thread `t` that no evolution by another thread destroys. -/
def Robust (t : ℕ) (P : Host → Prop) : Prop :=
  ∀ s s' u, u ≠ t → Inv s → Evolves u s s' → P s → P s'

variable {P : Host → Prop}

theorem Robust.stable (h : Robust t P) : (ownership D).Stable t P := by
  rintro s s' ⟨hi, u, o, r, hu, hp, hx⟩ hs
  exact h s s' u hu hi (evolves hi hp hx) hs

theorem Robust.and {Q : Host → Prop} (hP : Robust t P) (hQ : Robust t Q) :
    Robust t fun s => P s ∧ Q s :=
  fun s s' u hu hi he h => ⟨hP s s' u hu hi he h.1, hQ s s' u hu hi he h.2⟩

theorem robust_true : Robust t fun _ => True := fun _ _ _ _ _ _ _ => trivial

def Lasting (P : Host → Prop) : Prop := ∀ s s' u, Inv s → Evolves u s s' → P s → P s'

theorem Lasting.robust (h : Lasting P) : Robust t P :=
  fun s s' u _ hi he hs => h s s' u hi he hs

theorem Lasting.persistent (h : Lasting P) : (ownership D).Persistent P := by
  intro u s o r s' hi hp hx hs
  exact h s s' u hi (evolves hi hp hx) hs

/-- Facts about an owned sandbox are robust when only an owner can change them. -/
theorem robust_owned (h : ∀ s s' u, s.NoAlias → ¬ Owns u id s → Evolves u s s' → P s → P s') :
    Robust t fun s => s.NoAlias → Owns t id s ∧ P s := by
  intro s s' u hu hi he hs hn
  obtain ⟨ho, hP⟩ := hs (he.noAlias hn)
  refine ⟨he.owns hu ho, h s s' u (he.noAlias hn) (fun hou => ?_) he hP⟩
  exact hu (hi.owns_unique hou ho)

def Owned (t : ℕ) (id : String) (s : Host) : Prop := s.NoAlias → Owns t id s ∧ True

def OwnedDead (t : ℕ) (id : String) (s : Host) : Prop :=
  s.NoAlias → Owns t id s ∧ s.live id = false

def OwnedAdmitted (t : ℕ) (id : String) (s : Host) : Prop :=
  s.NoAlias → Owns t id s ∧ s.admitted id = true

def OwnedGeneration (t : ℕ) (id : String) (g : ℕ) (s : Host) : Prop :=
  s.NoAlias → Owns t id s ∧ ((∃ a ∈ s.created, a.1 = id) ∧ IsGeneration id g s)

def Known (v : Sandbox) (s : Host) : Prop :=
  (v.id, v.name) ∈ s.created ∧ ∀ w, s.store.row v.id = some w → SameKeys v w

def Serving (s : Host) : Prop := s.booting = none

def Listed (id : String) (s : Host) : Prop := s.booting = none ∨ id ∈ s.monitored

def Holds (t : ℕ) (k : String) (s : Host) : Prop := s.locks k = some t

theorem robust_owned_self (id : String) : Robust t (Owned t id) :=
  robust_owned fun _ _ _ _ _ _ h => h

theorem robust_ownedDead (id : String) : Robust t (OwnedDead t id) := by
  refine robust_owned fun s s' u hn ho he hl => ?_
  cases hl' : s'.live id with
  | false => rfl
  | true =>
    rcases he.live hn id hl' with hlive | hown
    · rw [hl] at hlive
      cases hlive
    · exact absurd hown ho

theorem robust_ownedAdmitted (id : String) : Robust t (OwnedAdmitted t id) := by
  refine robust_owned fun s s' u hn ho he ha => ?_
  rcases he.keeps hn id ha with ha' | hown
  · exact ha'
  · exact absurd hown ho

theorem robust_ownedGeneration (id : String) (g : ℕ) : Robust t (OwnedGeneration t id g) := by
  refine robust_owned fun s s' u hn ho he hg => ?_
  obtain ⟨⟨a, ha, hid⟩, hgen⟩ := hg
  refine ⟨⟨a, he.created a ha, hid⟩, fun w hw => ?_⟩
  rcases he.rows id w hw with ⟨v, hv, _, hsame | ⟨_, hown⟩⟩ | ⟨_, hnew⟩
  · rw [hsame]
    exact hgen v hv
  · exact absurd (hown hn) ho
  · exact absurd hid (hnew a ha)

theorem lasting_serving : Lasting Serving := fun _ _ _ _ he h => he.serving h

theorem lasting_listed (id : String) : Lasting (Listed id) := by
  intro s s' u _ he h
  rcases h with h | h
  · exact Or.inl (he.serving h)
  · exact Or.inr (he.monitored id h)

theorem lasting_known (v : Sandbox) : Lasting (Known v) := by
  intro s s' u _ he h
  refine ⟨he.created _ h.1, fun w hw => ?_⟩
  rcases he.rows v.id w hw with ⟨x, hx, hk, _⟩ | ⟨_, hnew⟩
  · obtain ⟨hid, hname, hspec⟩ := h.2 x hx
    exact ⟨hk.1.trans hid, hk.2.1.trans hname, hk.2.2.trans hspec⟩
  · exact absurd rfl (hnew _ h.1)

theorem robust_holds (k : String) : Robust t (Holds t k) :=
  fun _ _ _ hu _ he h => he.locks k t (Ne.symm hu) h

theorem Holds.ne {k : String} (h : Holds t k s) (hu : u ≠ t) : s.locks k ≠ some u :=
  fun hk => hu (Option.some.inj (hk.symm.trans h))

end assertions

end Niflhel
