import Mathlib.Data.List.Perm.Subperm
import Niflhel.Records
import Niflhel.Volumes

/-!
# Every job of the daemon keeps the allocation of records

One lemma for each operation that inserts a record, commits a whole one, launches a VMM or
deletes a volume; all other operations are outside this discipline.
-/

namespace Niflhel
open Concurrent

def Op.isRecording : Op → Bool
  | .insert _ | .vmStart _ _ | .deleteVolume _ => true
  | .update _ e => e.whole.isSome
  | _ => false

theorem Recovers.unrecording {α : Type} {p : Prog α} (h : Recovers p) :
    p.Uses fun o => o.isRecording = false := by
  refine h.mono fun o ho => ?_
  cases o with
  | update id e =>
    have hwhole : e.whole.isNone = true := ho
    simpa [Op.isRecording] using hwhole
  | insert | vmStart | deleteVolume => cases ho
  | _ => rfl

section slots
variable {used : List ℕ} {n slot : ℕ}

theorem le_freeSlot (used : List ℕ) (n slot : ℕ) : slot ≤ freeSlot used n slot := by
  induction n generalizing slot with
  | zero => exact le_rfl
  | succ n ih =>
    unfold freeSlot
    split
    · exact (Nat.le_succ slot).trans (ih (slot + 1))
    · exact le_rfl

/-- A search that ends on a used slot has seen only used slots. -/
theorem mem_of_freeSlot_mem (h : freeSlot used n slot ∈ used) : ∀ i ≤ n, slot + i ∈ used := by
  induction n generalizing slot with
  | zero =>
    intro i hi
    obtain rfl : i = 0 := by omega
    exact h
  | succ n ih =>
    unfold freeSlot at h
    split at h
    · rename_i hslot
      intro i hi
      cases i with
      | zero => exact hslot
      | succ i =>
        have hi' := ih h i (by omega)
        rwa [Nat.add_assoc, Nat.add_comm 1 i] at hi'
    · rename_i hslot
      exact absurd h hslot

/-- As many candidates as there are used slots, and one more, cannot all be used. -/
theorem freeSlot_not_mem (used : List ℕ) (slot : ℕ) : freeSlot used used.length slot ∉ used := by
  intro h
  have hsub : List.range' slot (used.length + 1) ⊆ used := by
    intro k hk
    obtain ⟨i, hi, rfl⟩ := List.mem_range'.1 hk
    rw [Nat.one_mul]
    exact mem_of_freeSlot_mem h i (by omega)
  have hnodup : (List.range' slot (used.length + 1)).Nodup := List.nodup_range' 1
  have hlen := (List.Nodup.subperm hnodup hsub).length_le
  rw [List.length_range'] at hlen
  omega

end slots

variable {spec : Spec}

theorem reserved_eq_ok {all : List Sandbox} (h : reserved spec all = .ok ()) :
    ∀ x ∈ all, PortsApart spec.ports x.spec.ports := by
  induction all with
  | nil => simp
  | cons y rest ih =>
    simp only [reserved] at h
    split_ifs at h
    split at h
    · cases h
    · rename_i hnone
      intro x hx
      rcases List.mem_cons.1 hx with rfl | hx
      · intro p hp q hq heq
        have hports := List.find?_eq_none.1 hnone p hp
        simp only [List.any_eq_true, beq_iff_eq, not_exists, not_and] at hports
        exact hports q hq heq
      · exact ih h x hx

section rules
variable {D : Setup} {t : ℕ} {α : Type} {post : α → Host → Prop} {P : Host → Prop} {s : Host}
  {o : Op} {f : o.Reply → Prog α}

theorem recordPermit_of_not_recording (ho : o.isRecording = false) (r : o.Reply) :
    recordPermit D t s o r := by
  cases o with
  | update id e =>
    cases e with
    | createCommit | startCommit => cases ho
    | _ => trivial
  | insert | vmStart | deleteVolume => cases ho
  | _ => trivial

theorem record_free {p : Prog α} (hp : p.Uses fun o => o.isRecording = false) :
    (records D).Respects t p s :=
  (records_overlay D).free hp fun _ r _ ho => recordPermit_of_not_recording ho r

theorem record_call (hP : (records D).Stable t P) (hs : P s)
    (h : ∀ s₁ r s₂, OwnedCall D t s₁ o r s₂ → Allocated D s₁ → P s₁ → recordPermit D t s₁ o r ∧
      (records D).Safe t post (f r) s₂) : (records D).Safe t post (op o >>= f) s :=
  (records_overlay D).call hP hs fun s₁ r s₂ hx => h s₁ r s₂ (enforced_exec.1 hx)

end rules

section create
variable {D : Setup} {t : ℕ} {s : Host} {v : Sandbox}

theorem exec_volume {name : String} {x : Volume} {s' : Host}
    (h : exec D t s (.volume name) (.ok x) = some s') : s.store.volume name = .ok x := by
  simp only [exec] at h
  split_ifs at h with hg
  exact hg

theorem hasVolume_of_exec {name : String} {x : Volume} {s' : Host}
    (h : exec D t s (.volume name) (.ok x) = some s') : HasVolume s name := by
  have hg := exec_volume h
  unfold Store.volume at hg
  split at hg
  · rename_i y hy
    refine ⟨y, List.mem_of_find?_eq_some hy, ?_⟩
    simpa using List.find?_some hy
  · cases hg

theorem record_checkVolumes {slot : ℕ} {ports : List Port} {done : List Mount}
    (mounts : List Mount) (hs : Room t slot ports done s) :
    (records D).Safe t (fun r s' => r = .ok () → Room t slot ports (done ++ mounts) s')
      (checkVolumes mounts) s := by
  induction mounts generalizing done s with
  | nil =>
    refine Discipline.safe_ret fun _ => ?_
    rwa [List.append_nil]
  | cons m rest ih =>
    refine (records_overlay D).query (stable_room slot ports done) hs rfl
      fun s₁ got hc _ hs₁ => ?_
    cases got with
    | error e =>
      refine Discipline.safe_ret fun h => ?_
      cases h
    | ok x =>
      have hroom : Room t slot ports (done ++ [m]) s₁ := by
        refine ⟨hs₁.1, hs₁.2.1, fun n hn => ?_⟩
        rcases List.mem_append.1 hn with hn | hn
        · exact hs₁.2.2 n hn
        · rw [List.mem_singleton.1 hn]
          exact hasVolume_of_exec hc.exec
      have hrest := ih hroom
      rwa [List.append_assoc, List.singleton_append] at hrest

theorem placed_preparedRecord (hv : Placed D v) (p : Process) (img : Image) {b : Base.Bundle}
    (hb : Base.verify D.crypto D.trust b.signed = .ok ()) :
    Placed D (preparedRecord v p img b) :=
  ⟨⟨hv.sized.lower, hv.sized.upper, Or.inr ⟨b, hb, rfl, rfl⟩⟩, hv.slot, hv.ports⟩

theorem record_completeCreate (hv : Placed D v) (hexit : v.exit = none)
    (hs : SlotRead v.id v.slot s) :
    (records D).Respects t (completeCreate v) s := by
  have hP := stable_slotRead (D := D) (t := t) v.id v.slot
  have hprep := (records_overlay D).prepare (v := v) (t := t) (s := s)
    (Q := fun b s => Base.verify D.crypto D.trust b.signed = .ok () ∧ SlotRead v.id v.slot s)
    hP (fun b => stable_and (Discipline.stable_const _ t _) hP) hs
    fun s₁ r s₂ hx _ hs₁ => by
      have hpulled := (enforced_exec.1 hx).exec
      obtain ⟨base, fetched, writes⟩ := r
      simp only [exec] at hpulled
      split_ifs at hpulled with hr
      cases hpulled
      exact ⟨trivial, fun b hb => ⟨Base.verify_of_pull (hr.symm.trans hb), hs₁⟩⟩
  refine hprep.bind fun r s₁ hs₁ => ?_
  cases r with
  | error e => exact record_free (cleans_createFail v.id e).recovers.unrecording
  | ok w =>
    obtain ⟨p, img, b, rfl, hb, hread⟩ := hs₁ w rfl
    refine record_call hP hread fun s₂ r s₃ _ _ hs₂ => ⟨⟨?_, hexit, fun x hx => ?_⟩, ?_⟩
    · exact (placed_preparedRecord hv p img hb).congr rfl rfl rfl rfl
    · exact (hs₂.2 x hx).symm
    · cases r with
      | error e => exact record_free (cleans_createFail v.id e).recovers.unrecording
      | ok now => exact Discipline.safe_ret trivial

theorem spec_newRecord (spec : Spec) (id : String) (slot now : ℕ) :
    (newRecord spec id slot now).spec.memory = spec.memory ∧
      (newRecord spec id slot now).spec.ports = spec.ports ∧
      (newRecord spec id slot now).spec.mounts = spec.mounts := by
  unfold newRecord
  split <;> exact ⟨rfl, rfl, rfl⟩

theorem placed_newRecord (id : String) {slot : ℕ} (now : ℕ)
    (hmem : 64 * mib ≤ spec.memory ∧ spec.memory ≤ 1024 * gib)
    (hports : (spec.ports.map Port.hostPort).Nodup) (hslot : 1 ≤ slot ∧ slot ≤ 16000) :
    Placed D (newRecord spec id slot now) := by
  obtain ⟨hm, hp, _⟩ := spec_newRecord spec id slot now
  refine ⟨⟨?_, ?_, Or.inl ⟨rfl, rfl⟩⟩, hslot, ?_⟩
  · rw [hm]
    exact hmem.1
  · rw [hm]
    exact hmem.2
  · rw [hp]
    exact hports

theorem room_of_list (ha : Holds t allocations s) (hres : reserved spec s.store.list = .ok ()) :
    Room t (freeSlot (s.store.list.map Sandbox.slot) s.store.list.length 1) spec.ports [] s := by
  refine ⟨ha, fun i w hw => ?_, fun m hm => ?_⟩
  · have hmem : w ∈ s.store.list := Store.mem_list.2 (Store.row_eq_some hw).1
    refine ⟨fun heq => ?_, reserved_eq_ok hres w hmem⟩
    have hfree := freeSlot_not_mem (s.store.list.map Sandbox.slot) 1
    rw [List.length_map, ← heq] at hfree
    exact hfree (List.mem_map_of_mem hmem)
  · cases hm

theorem record_createLocked (hmem : 64 * mib ≤ spec.memory ∧ spec.memory ≤ 1024 * gib)
    (hports : (spec.ports.map Port.hostPort).Nodup) (hs : Holds t allocations s) :
    (records D).Respects t (createLocked spec) s := by
  have hP := (records_overlay D).stable (t := t) (robust_holds allocations)
  refine (records_overlay D).query hP hs rfl fun
    | _, .error e, _, _, _ => trivial
    | s₁, .ok all, hc, _, hs₁ => ?_
  obtain ⟨-, rfl⟩ := exec_list hc.exec
  dsimp only
  split
  · exact trivial
  rename_i hres
  have hroom := room_of_list hs₁ hres
  have hlow := le_freeSlot (s₁.store.list.map Sandbox.slot) s₁.store.list.length 1
  generalize freeSlot (s₁.store.list.map Sandbox.slot) s₁.store.list.length 1 = slot
    at hroom hlow ⊢
  refine (record_checkVolumes spec.mounts hroom).bind
    fun
      | .error e, _, _ => trivial
      | .ok _, s₂, hs₂ => ?_
  have hroom₂ : Room t slot spec.ports spec.mounts s₂ := hs₂ rfl
  have hR := stable_room (D := D) (t := t) slot spec.ports spec.mounts
  dsimp only
  split
  · exact trivial
  refine record_call hR hroom₂ fun s₃ id s₄ hc₃ _ hs₃ => ⟨trivial, ?_⟩
  have hx := hc₃.exec
  simp only [exec] at hx
  split_ifs at hx
  cases hx
  refine (records_overlay D).query hR hs₃ rfl fun s₅ now _ _ hs₅ => ?_
  obtain ⟨_, hp, hm⟩ := spec_newRecord spec id slot now
  have hplaced := placed_newRecord (D := D) id now hmem hports ⟨hlow, by omega⟩
  generalize hv : newRecord spec id slot now = v at hp hm hplaced
  have hslot : v.slot = slot := by
    rw [← hv]
    rfl
  have hvid : v.id = id := by
    rw [← hv]
    rfl
  have hexit : v.exit = none := by
    rw [← hv]
    rfl
  subst hslot hvid
  refine record_call hR hs₅ fun s₆ r s₇ hc₆ _ hs₆ => ⟨⟨hplaced, hexit, ?_, ?_⟩, ?_⟩
  · rw [hp]
    exact hs₆.2.1
  · rw [hm]
    exact hs₆.2.2
  · cases r with
    | some e => exact trivial
    | none =>
      obtain ⟨st, hst, rfl⟩ := exec_insert hc₆.exec
      refine record_completeCreate hplaced hexit ⟨⟨v.name, ?_⟩, fun w hw => ?_⟩
      · exact List.mem_cons_self ..
      · have hrow : (s₆.insert v st).store.row v.id = some v := by
          change st.row v.id = _
          rw [Store.row_create hst, if_pos rfl]
        rw [← Option.some.inj (hrow.symm.trans hw)]

theorem withBase_fields (D : Setup) (spec : Spec) :
    (withBase D spec).memory = spec.memory ∧ (withBase D spec).ports = spec.ports := by
  unfold withBase
  split <;> exact ⟨rfl, rfl⟩

theorem record_create (spec : Spec) : (records D).Respects t (create D spec) s := by
  unfold create
  split
  · exact trivial
  · rename_i hvalid
    obtain ⟨hlower, hupper, hports, -⟩ := Spec.validate_eq_ok hvalid
    obtain ⟨hm, hp⟩ := withBase_fields D spec
    dsimp only
    split
    · exact trivial
    · rw [← hm] at hlower hupper
      rw [← hp] at hports
      exact (records_overlay D).allocating fun s₁ hs₁ =>
        record_createLocked ⟨hlower, hupper⟩ hports hs₁

end create

section start
variable {D : Setup} {t : ℕ} {s s' : Host} {v : Sandbox} {id : String} {Q : Sandbox → Prop}

theorem OwnedRow.plain {o : Op} {r : o.Reply} (h : OwnedRow t id Q s) (ho : o.isCore = false)
    (hx : exec D t s o r = some s') : OwnedRow t id Q s' := by
  obtain ⟨volumes, bases, dns, ports, monitors, _, _, rfl⟩ := exec_of_not_core hx ho
  exact h

theorem OwnedRow.lock (h : OwnedRow t id Q s) (k : String) : OwnedRow t id Q { s with locks := Function.update s.locks k (some t) } := by
  intro hn
  obtain ⟨ho, hrest⟩ := h hn
  exact ⟨ho.lock k, hrest⟩

theorem OwnedRow.unlock (hi : Inv s) (h : OwnedRow t id Q s) : OwnedRow t id Q { s with locks := Function.update s.locks allocations none } := by
  intro hn
  obtain ⟨ho, ⟨name, hname⟩, hrow⟩ := h hn
  exact ⟨ho.unlock (hi.ne_allocations hname), ⟨name, hname⟩, hrow⟩

theorem record_boot (b : Base.Bundle) (hs : OwnedRow t v.id Started s) :
    (records D).Respects t (boot v b) s := by
  have hP : (records D).Stable t (OwnedRow t v.id Started) := stable_started
  have hfail : ∀ (e : String) (s₁ : Host),
      (records D).Respects t (startFail v e) s₁ := fun e s₁ =>
    record_free (cleans_startFail v e).recovers.unrecording
  have hlaunch : ∀ s₁, OwnedRow t v.id Started s₁ →
      (records D).Respects t (launch v b) s₁ := by
    intro s₁ hs₁
    obtain ⟨next, heq, hnext⟩ := recovers_launched v b
    rw [heq]
    refine Discipline.Safe.step hP hs₁ fun s₂ _ hs₂ r s₃ _ => ⟨fun hn x hx => ?_,
      fun _ _ _ => trivial, record_free (hnext r).unrecording⟩
    have hstarted := (hs₂ hn).2.2 x hx
    exact ⟨hstarted.1, hstarted.2.1⟩
  refine record_call hP hs fun s₁ ports s₂ hc _ hs₁ => ⟨trivial, ?_⟩
  have hs₂ := hs₁.plain rfl hc.exec
  cases ports with
  | some e => exact hfail e s₂
  | none => ?_
  refine (records_overlay D).query hP hs₂ rfl fun
    | s₃, some e, _, _, _ => hfail e s₃
    | s₃, none, _, _, hs₃ => ?_
  dsimp only
  split
  · refine record_call hP hs₃ fun s₄ dns s₅ hc₄ _ hs₄ => ⟨trivial, ?_⟩
    have hs₅ := hs₄.plain rfl hc₄.exec
    cases dns with
    | some e => exact hfail e s₅
    | none => exact hlaunch s₅ hs₅
  · exact hlaunch s₃ hs₃

def StartCommitted (t : ℕ) (r : Except String Sandbox) (s : Host) : Prop :=
  ∀ w, r = .ok w → OwnedRow t w.id Started s

theorem stable_startCommitted (r : Except String Sandbox) :
    (records D).Stable t (StartCommitted t r) := by
  intro s s' hint hs w hw
  exact stable_started s s' hint (hs w hw)

structure Startable (D : Setup) (t : ℕ) (v : Sandbox) (s : Host) : Prop where
  placed : Placed D v
  read : SlotRead v.id v.slot s
  idle : OwnedRow t v.id Idle s

theorem stable_startable (v : Sandbox) : (records D).Stable t (Startable D t v) := by
  rintro s s' hint ⟨hv, hread, hidle⟩
  exact ⟨hv, stable_slotRead v.id v.slot s s' hint hread, stable_idle s s' hint hidle⟩

theorem startable_of_get (hc : OwnedCall D t s (.get id) (.ok v) s) (ha : Allocated D s)
    (hs : Holds t id s ∧ ∃ name, (id, name) ∈ s.created)
    (hstate : ¬(v.state ≠ .created ∧ v.state ≠ .exited)) : Startable D t v s := by
  have hget := (exec_get hc.exec).2
  obtain ⟨hknown, hrow⟩ := hc.inv.known_of_mem (Store.get_eq_ok hget).1
  have hrowv : ∀ w, s.store.row v.id = some w → w = v := fun w hw =>
    (Option.some.inj (hrow.symm.trans hw)).symm
  refine ⟨ha.placed v.id v hrow, ⟨⟨v.name, hknown.1⟩, fun w hw => by rw [hrowv w hw]⟩, ?_⟩
  intro hn
  obtain ⟨name, hname⟩ := hs.2
  obtain rfl := hc.inv.get_id hn hname hget
  refine ⟨Or.inl hs.1, ⟨name, hname⟩, fun w hw => ?_⟩
  rw [hrowv w hw]
  exact by_contra fun h => hstate (not_or.1 h)

theorem stable_locked_created (id : String) :
    (records D).Stable t fun s => Holds t id s ∧ ∃ name, (id, name) ∈ s.created := by
  have hcreated : Lasting fun s => ∃ name, (id, name) ∈ s.created :=
    fun s s' u _ he ⟨name, h⟩ => ⟨name, he.created _ h⟩
  exact (records_overlay D).stable ((robust_holds id).and hcreated.robust)

theorem record_admission (hs : Startable D t v s) :
    (records D).Safe t (StartCommitted t) (admission v) s := by
  have hP := stable_startable (D := D) (t := t) v
  have herr : ∀ (e : String) (s₁ : Host), (records D).Safe t (StartCommitted t)
      (pure (.error e) : Prog (Except String Sandbox)) s₁ := by
    intro e s₁
    refine Discipline.safe_ret fun w hw => ?_
    cases hw
  unfold admission
  refine (records_overlay D).query hP hs rfl fun s₁ got _ _ hs₁ => ?_
  cases got with
  | error e => exact herr e s₁
  | ok all =>
    dsimp only
    split
    · exact herr _ s₁
    refine (records_overlay D).query hP hs₁ rfl fun s₂ available _ _ hs₂ => ?_
    cases available with
    | error e => exact herr e s₂
    | ok available =>
      dsimp only
      split
      · exact herr _ s₂
      refine record_call hP hs₂ fun s₃ r s₄ hc _ hs₃ =>
        ⟨⟨hs₃.placed.congr rfl rfl rfl rfl, rfl, fun x hx => (hs₃.read.2 x hx).symm,
          fun hn x hx => (hs₃.idle hn).2.2 x hx⟩, ?_⟩
      cases r with
      | error e => exact herr e s₄
      | ok now =>
        refine Discipline.safe_ret fun w hw hn => ?_
        cases hw
        have hperm : editPermit t s₃ v.id (.startCommit (startingRecord v)) := hc.permitted
        obtain ⟨x, y, hed, _⟩ := edited hperm hc.exec
        obtain ⟨ho, hcreated, _⟩ := hs₃.idle (hc.evolves.noAlias hn)
        have hy := Edit.apply_whole hed.applied rfl
        obtain ⟨now', hself⟩ := hed.row_self
        refine ⟨?_, ?_, fun z hz => ?_⟩
        · rw [hed.frame]
          exact ho
        · rw [hed.frame]
          exact hcreated
        · rw [← Option.some.inj (hself.symm.trans hz), hy]
          exact ⟨rfl, rfl, Nat.le_add_left 1 v.generation⟩

theorem record_startLocked (hs : Holds t id s ∧ ∃ name, (id, name) ∈ s.created) :
    (records D).Respects t (startLocked id) s := by
  refine (records_overlay D).query (stable_locked_created id) hs rfl fun
    | _, .error e, _, _, _ => trivial
    | s₁, .ok v, hc, ha, hs₁ => ?_
  dsimp only
  split
  · exact trivial
  rename_i hstate
  have hstart := startable_of_get hc ha hs₁ hstate
  have hP := stable_startable (D := D) (t := t) v
  refine (records_overlay D).query hP hstart rfl fun
    | _, some e, _, _, _ => trivial
    | s₂, none, _, _, hs₂ => ?_
  refine record_call hP hs₂ fun s₃ base s₄ hc₃ _ hs₃ => ⟨trivial, ?_⟩
  obtain ⟨volumes, bases, dns, ports, monitors, _, _, rfl⟩ :=
    exec_of_not_core hc₃.exec rfl
  cases base with
  | error e => exact trivial
  | ok b => ?_
  have hadm : ∀ s₄, Startable D t v s₄ →
      (records D).Safe t (StartCommitted t) (locked allocations (admission v)) s₄ :=
    fun s₄ hs₄ => (records_overlay D).locked hP hs₄
      (fun s₅ _ hs₅ => ⟨hs₅.placed, hs₅.read, hs₅.idle.lock allocations⟩)
      (fun s₅ hs₅ => record_admission hs₅) stable_startCommitted
      fun r s₅ hi₅ hs₅ w hw => (hs₅ w hw).unlock hi₅
  exact Discipline.Safe.bind (hadm _ ⟨hs₃.placed, hs₃.read, hs₃.idle⟩) fun
    | .error e, _, _ => trivial
    | .ok w, _, hs₅ => record_boot b (hs₅ w rfl)

theorem record_start (id : String) : (records D).Respects t (start id) s := by
  refine (records_overlay D).query (Discipline.stable_const _ t True) trivial rfl
    fun
      | _, .error e, _, _, _ => trivial
      | s₁, .ok v, hc, _, _ => ?_
  have hknown := (hc.inv.known_of_mem (Store.get_eq_ok (exec_get hc.exec).2).1).1
  refine (records_overlay D).locked_true ((records_overlay D).stable (lasting_known v).robust)
    hknown (fun s₂ _ hs₂ => ?_) fun s₂ hs₂ => record_startLocked hs₂
  exact ⟨by simp [Holds], v.name, hs₂.1⟩

end start

section jobs
variable {D : Setup} {t : ℕ} {s : Host}

def Unmounted (t : ℕ) (name : String) (s : Host) : Prop :=
  Holds t allocations s ∧ ∀ i v, s.store.row i = some v → ∀ m ∈ v.spec.mounts, m.name ≠ name

theorem stable_unmounted (name : String) : (records D).Stable t (Unmounted t name) := by
  rintro s s' hint ⟨ha, hnone⟩
  refine ⟨(records_overlay D).stable (robust_holds allocations) s s' hint ha, fun i w hw => ?_⟩
  obtain ⟨_, u, o, r, hu, hq, hx⟩ := hint
  have hc := enforced_exec.1 hx
  rcases row_record hc.permitted hq hc.exec hw with ⟨v, hv, hspec, _⟩ | ⟨rfl, _⟩
  · rw [hspec]
    exact hnone i v hv
  · exact absurd (Option.some.inj (hc.permitted.1.symm.trans ha)) hu

theorem record_volumeRmLocked (name : String) (hs : Holds t allocations s) :
    (records D).Respects t (volumeRmLocked name) s := by
  have hP := (records_overlay D).stable (t := t) (robust_holds allocations)
  unfold volumeRmLocked
  refine (records_overlay D).query hP hs rfl fun s₁ volume _ _ hs₁ => ?_
  cases volume with
  | error e => exact Discipline.safe_ret trivial
  | ok x =>
    refine (records_overlay D).query hP hs₁ rfl fun s₂ listed hc _ hs₂ => ?_
    cases listed with
    | error e => exact Discipline.safe_ret trivial
    | ok all =>
      obtain ⟨-, rfl⟩ := exec_list hc.exec
      dsimp only
      split
      · exact Discipline.safe_ret trivial
      rename_i hnone
      have hunmounted : Unmounted t x.name s₂ := by
        refine ⟨hs₂, fun i v hv m hm hname => ?_⟩
        have hmem := Store.mem_list.2 (Store.row_eq_some hv).1
        have hv' := List.find?_eq_none.1 hnone v hmem
        simp only [List.any_eq_true, beq_iff_eq, not_exists, not_and] at hv'
        exact hv' m hm hname
      refine (records_overlay D).query (stable_unmounted x.name) hunmounted rfl
        fun s₃ removed _ _ hs₃ => ?_
      cases removed with
      | some e => exact Discipline.safe_ret trivial
      | none =>
        exact record_call (f := fun r => pure r) (stable_unmounted x.name) hs₃
          fun _ _ _ _ _ hs₄ => ⟨hs₄, Discipline.safe_ret trivial⟩

theorem record_code (j : Job) : (records D).Respects t (j.code D) s := by
  cases j with
  | recover => exact record_free recovers_recover.unrecording
  | monitor v => exact record_free (settles_monitorLoop v).cleans.recovers.unrecording
  | create spec => exact Overlay.ignored (record_create spec)
  | start id => exact Overlay.ignored (record_start id)
  | stop id seconds =>
    exact Overlay.ignored (record_free (cleans_stop id seconds).recovers.unrecording)
  | restart id seconds =>
    refine (record_free (cleans_stop id seconds).recovers.unrecording).bind fun stopped s₁ _ => ?_
    split
    · exact (record_start id).bind fun _ _ _ =>
        trivial
    · exact trivial
  | wait id => exact Overlay.ignored (record_free (queries_wait id).cleans.recovers.unrecording)
  | remove id force =>
    exact Overlay.ignored (record_free (cleans_remove id force).recovers.unrecording)
  | baseRm ref =>
    refine Overlay.ignored ((records_overlay D).allocating fun s₁ _ => record_free ?_)
    refine (removal_baseRmLocked ref).mono fun o ho => ?_
    cases o <;> first | rfl | cases ho
  | basePull ref => exact Overlay.ignored (record_free ⟨rfl, fun _ => trivial⟩)
  | baseLoad ref v kernel rootfs =>
    refine Overlay.ignored (record_free ?_)
    unfold baseLoad
    split
    · exact trivial
    · exact ⟨rfl, fun _ => trivial⟩
  | volumeCreate v =>
    refine Overlay.ignored ((records_overlay D).allocating fun s₁ _ => record_free ?_)
    refine (puts_volumeCreateLocked v).mono fun o ho => ?_
    rcases ho with ho | ⟨w, rfl⟩
    · cases o <;> first | rfl | cases ho
    · rfl
  | volumeRm name =>
    exact Overlay.ignored ((records_overlay D).allocating fun s₁ hs₁ =>
      record_volumeRmLocked name hs₁)

end jobs

theorem records_sound (D : Setup) : (records D).Sound fun s => s = Host.initial where
  boots s hs := by
    subst hs
    have hnone : ∀ i v, Host.initial.store.row i ≠ some v := by
      intro i v hv
      simp [Host.initial, Store.empty, Store.row] at hv
    exact ⟨⟨fun i v hv => absurd hv (hnone i v), fun i _ v _ hv => absurd hv (hnone i v),
      fun i _ v _ hv => absurd hv (hnone i v), fun i v hv => absurd hv (hnone i v)⟩,
      trivial, fun _ => trivial⟩
  crashes s hi := ⟨⟨hi.placed, hi.slots, hi.apart, hi.mounted⟩, trivial, fun _ => trivial⟩
  accepts _ _ _ _ _ := trivial
  jobs j _ _ _ _ _ := record_code j

def stewardship (D : Setup) : Discipline (daemon D) := (ownership D).extend (records D)

theorem stewardship_sound (D : Setup) : (stewardship D).Sound fun s => s = Host.initial :=
  (ownership_sound D).extend (records_sound D)

section outlines
variable {D : Setup} {t : ℕ} {α : Type} {ok : Host → (o : Op) → o.Reply → Bool}
  {P : List (Call Op Op.Reply) → Host → (o : Op) → o.Reply → Prop}
  {post : List (Call Op Op.Reply) → α → Host → Prop} {calls : List (Call Op Op.Reply)}
  {Q : Host → Prop} {s : Host} {o : Op} {f : o.Reply → Prog α}

/-- One call of an operation, with all that the disciplines say about it. -/
theorem steward_call (hQ : (records D).Stable t Q) (hs : Q s)
    (h : ∀ s₁ r s₂, OwnedCall D t s₁ o r s₂ → Allocated D s₁ → Q s₁ → ok s₁ o r = true →
      P calls s₁ o r ∧
        (stewardship D).Outline ok t P post (calls ++ [⟨o, r⟩]) (f r) s₂) :
    (stewardship D).Outline ok t P post calls (op o >>= f) s := by
  have hQ' : (stewardship D).Stable t Q := fun s s' hi =>
    hQ s s' (Discipline.interferes_extend hi).2
  refine Discipline.Outline.step hQ' hs fun s₁ r s₂ hi hs₁ hx hp hok => ?_
  exact h s₁ r s₂ ⟨hi.1, hp.1, hx⟩ hi.2 hs₁ hok

theorem steward_query (hQ : (records D).Stable t Q) (hs : Q s) (ho : o.isQuery = true)
    (h : ∀ s₁ r, OwnedCall D t s₁ o r s₁ → Allocated D s₁ → Q s₁ → ok s₁ o r = true →
      P calls s₁ o r ∧
        (stewardship D).Outline ok t P post (calls ++ [⟨o, r⟩]) (f r) s₁) :
    (stewardship D).Outline ok t P post calls (op o >>= f) s := by
  refine steward_call hQ hs fun s₁ r s₂ hc ha hs₁ hok => ?_
  obtain rfl := exec_query ho hc.exec
  exact h s₂ r hc ha hs₁ hok

theorem steward_uses {allowed : Op → Prop} {p : Prog α} (hp : p.Uses allowed)
    (hQ : (records D).Stable t Q)
    (h : ∀ calls o r s s', allowed o → OwnedCall D t s o r s' → Q s → P calls s o r ∧ Q s')
    (hs : Q s) :
    (stewardship D).Outline ok t P (fun calls' _ s' => calls <+: calls' ∧ Q s') calls p s :=
  Discipline.outline_of_uses
    (fun s s' hi => hQ s s' (Discipline.interferes_extend hi).2) hp
    (fun calls o r s s' ho hi hs hx hp _ => h calls o r s s' ho ⟨hi.1, hp.1, hx⟩ hs) hs

theorem steward_rest {allowed : Op → Prop} {p : Prog α} (hp : p.Uses allowed)
    (h : ∀ calls o r s, allowed o → P calls s o r) :
    (stewardship D).Outline ok t P (fun _ _ _ => True) calls p s :=
  (steward_uses hp (Discipline.stable_const _ t True)
    (fun calls o r s _ ho _ _ => ⟨h calls o r s ho, trivial⟩) trivial).weaken fun _ _ _ _ => trivial

theorem steward_lasting {p : Prog α} (hQ : Lasting Q) (hs : Q s) (h : ∀ calls s o r, P calls s o r) :
    (stewardship D).Outline ok t P (fun calls' _ s' => calls <+: calls' ∧ Q s') calls p s :=
  steward_uses p.uses_true ((records_overlay D).stable hQ.robust)
    (fun calls o r s s' _ hc hs => ⟨h calls s o r, hQ s s' t hc.inv hc.evolves hs⟩) hs

/-- The mutex pattern, for calls of the body that satisfy `P`. -/
theorem steward_locked {k : String} {body : Prog α} {R : Host → Prop}
    (hQ : (records D).Stable t Q) (hs : Q s) (hP : ∀ calls s, P calls s (.lock k) ())
    (hP' : ∀ calls s, P calls s (.unlock k) ())
    (hlock : ∀ s₁, Q s₁ → R { s₁ with locks := Function.update s₁.locks k (some t) })
    (hbody : ∀ s₁, R s₁ → (stewardship D).Outline ok t P (fun _ _ _ => True)
      (calls ++ [⟨.lock k, ()⟩]) body s₁) :
    (stewardship D).Outline ok t P (fun _ _ _ => True) calls (locked k body) s := by
  refine steward_call hQ hs fun s₁ r s₂ hc _ hs₁ _ => ⟨hP calls s₁, ?_⟩
  have hx := hc.exec
  simp only [exec] at hx
  split_ifs at hx
  cases hx
  apply Discipline.Outline.bind
  refine (hbody _ (hlock s₁ hs₁)).weaken fun calls' a s₃ _ => ?_
  exact steward_call (Discipline.stable_const _ t True) trivial fun s₄ _ _ _ _ _ _ =>
    ⟨hP' calls' s₄, trivial⟩

end outlines

namespace Sample

def followed {α : Type} (ok : Host → (o : Op) → o.Reply → Bool) (first : List (System.Move Job))
    (j : Job) (p : Prog α) (second : List (System.Move Job)) :
    Option (ℕ × List (Call Op Op.Reply) × Prog α × Config Host Op Op.Reply) :=
  let S := (daemon setup).restrict ok
  (S.replay reply (S.booted Host.initial) first).bind fun c =>
    if S.accepts c.state j then
      (S.follow reply c.count p (S.start c j) second).map fun r => (c.count, r)
    else none

theorem during_followed {α : Type} {ok : Host → (o : Op) → o.Reply → Bool}
    {first second : List (System.Move Job)} {j : Job} {p q : Prog α} {k : α → Prog Unit} {t : ℕ}
    {calls : List (Call Op Op.Reply)} {c : Config Host Op Op.Reply}
    (hj : j.code setup = p >>= k) (h : followed ok first j p second = some (t, calls, q, c)) :
    ∃ c₀, (daemon setup).Runs (System.Meets ok) ((daemon setup).booted Host.initial) c₀ ∧
      (daemon setup).During ok t p c₀ calls q c := by
  obtain ⟨c₁, hfirst, hrest⟩ := Option.bind_eq_some_iff.1 h
  split_ifs at hrest with haccepts
  obtain ⟨r, hfollow, hr⟩ := Option.map_eq_some_iff.1 hrest
  cases hr
  have hruns := (System.restrict_runs (daemon setup)).1 (System.replay_runs _ hfirst)
  refine ⟨(daemon setup).start c₁ j, hruns.tail ⟨.request j, trivial, .request haccepts⟩, ?_⟩
  exact (System.During.request (daemon setup) hj).follow (daemon setup) hfollow

end Sample

theorem allocated_of_reachable {D : Setup} {c : Config Host Op Op.Reply}
    (h : daemonReachable D c) : Allocated D c.state := ((stewardship_sound D).guarded h).inv.2

section invariant
variable {D : Setup} {s : Host}

theorem nodup_sandboxes (hi : Inv s) : s.store.sandboxes.Nodup := hi.keyed.ids.of_map

theorem Allocated.nodup_slots (ha : Allocated D s) (hi : Inv s) :
    (s.store.sandboxes.map Sandbox.slot).Nodup := by
  refine (nodup_sandboxes hi).map_on fun v hv w hw hslot => ?_
  have hid := ha.slots v.id w.id v w (hi.keyed.row_of_mem hv) (hi.keyed.row_of_mem hw) hslot
  exact hi.keyed.eq_of_id hv hw hid

theorem Allocated.nodup_hostPorts (ha : Allocated D s) (hi : Inv s) :
    (s.store.sandboxes.flatMap fun v => v.spec.ports.map Port.hostPort).Nodup := by
  rw [List.nodup_flatMap]
  refine ⟨fun v hv => (ha.placed v.id v (hi.keyed.row_of_mem hv)).ports, ?_⟩
  refine (nodup_sandboxes hi).imp_of_mem fun {v w} hv hw hne => ?_
  intro port hpv hpw
  obtain ⟨p, hp, rfl⟩ := List.mem_map.1 hpv
  obtain ⟨q, hq, hpq⟩ := List.mem_map.1 hpw
  have hid : v.id ≠ w.id := fun h => hne (hi.keyed.eq_of_id hv hw h)
  exact ha.apart v.id w.id v w (hi.keyed.row_of_mem hv) (hi.keyed.row_of_mem hw) hid p hp q hq
    hpq.symm

end invariant

section runs
variable {D : Setup} {c c₁ c₂ c' : Config Host Op Op.Reply} {id : String}
  {ok : Host → (o : Op) → o.Reply → Bool} {Q : Sandbox → Prop}

/-- The sandbox was created, and its record satisfies `Q` until it is deleted. -/
def RowKept (id : String) (Q : Sandbox → Prop) (s : Host) : Prop :=
  (∃ name, (id, name) ∈ s.created) ∧ ∀ v, s.store.row id = some v → Q v

structure RunEdit (D : Setup) (ok : Host → (o : Op) → o.Reply → Bool) (id : String) (e : Edit)
    (x y : Sandbox) (s : Host) : Prop where
  inv : Inv s
  noAlias : s.NoAlias
  found : s.store.row id = some x
  applied : e.apply x = .ok y
  permitted : ∃ t r, editPermit t s id e ∧ recordPermit D t s (.update id e) r ∧
    ok s (.update id e) r = true

variable {l : Label Op Op.Reply Job}

theorem noAlias_of_step (hc : daemonReachable D c)
    (hs : (daemon D).Step c l c') (hn : c'.state.NoAlias) : c.state.NoAlias := by
  have hcreated := created_of_step hc hs
  exact fun a ha b hb => hn a (hcreated a ha) b (hcreated b hb)

theorem rowKept_step (hc : daemonReachable D c)
    (hs : (daemon D).Step c l c') (hok : System.Meets ok c l) (hn : c'.state.NoAlias)
    (hedit : ∀ e x y now s, RunEdit D ok id e x y s → Q x → Q { y with updated := now })
    (h : RowKept id Q c.state) : RowKept id Q c'.state := by
  obtain ⟨⟨name, hname⟩, hrow⟩ := h
  refine ⟨⟨name, created_of_step hc hs _ hname⟩, fun v hv => ?_⟩
  rcases row_of_step hc hs id with hr | ⟨t, e, r, x, y, rfl, hp, hed⟩ | ⟨_, hnew, _⟩ | hr
  · exact hrow v (hr.symm.trans hv)
  · obtain ⟨now, hself⟩ := hed.row_self
    cases hself.symm.trans hv
    have hq := ((stewardship_sound D).permit hc hs).2
    exact hedit e x y now c.state ⟨inv_of_reachable hc, noAlias_of_step hc hs hn, hed.found,
      hed.applied, t, r, hp, hq, hok⟩ (hrow x hed.found)
  · exact absurd rfl (hnew _ hname)
  · rw [hv] at hr
    cases hr

theorem rowKept_of_runs (hc : daemonReachable D c₁)
    (hruns : (daemon D).Runs (System.Meets ok) c₁ c₂) (hn : c₂.state.NoAlias)
    (hedit : ∀ e x y now s, RunEdit D ok id e x y s → Q x → Q { y with updated := now })
    (h : RowKept id Q c₁.state) : RowKept id Q c₂.state := by
  induction hruns with
  | refl => exact h
  | tail hrun hs ih =>
    obtain ⟨l, hok, hstep⟩ := hs
    have hmid : daemonReachable D _ := System.Reachable.runs _ hc hrun
    exact rowKept_step hmid hstep hok hn hedit (ih (noAlias_of_step hmid hstep hn))

/-- Whatever happens to a sandbox, its record keeps its identifier, name, specification and slot,
and its generation does not go back. -/
theorem identity_kept {v w : Sandbox} (hc : daemonReachable D c₁)
    (hruns : (daemon D).Runs (System.Meets ok) c₁ c₂) (hn : c₂.state.NoAlias)
    (hv : c₁.state.store.row id = some v) (hw : c₂.state.store.row id = some w) :
    SameKeys v w ∧ w.slot = v.slot ∧ v.generation ≤ w.generation := by
  obtain ⟨hmem, rfl⟩ := Store.row_eq_some hv
  refine (rowKept_of_runs (Q := fun w => SameKeys v w ∧ w.slot = v.slot ∧
    v.generation ≤ w.generation) hc hruns hn ?_ ⟨⟨_, (inv_of_reachable hc).recorded v hmem⟩, ?_⟩).2 w hw
  · rintro e x y now s hedit ⟨⟨hid, hname, hspec⟩, hslot, hgen⟩
    obtain ⟨t, r, hp, hq, _⟩ := hedit.permitted
    have hkeys := hp.sameKeys hedit.found hedit.applied
    refine ⟨⟨hkeys.1.trans hid, hkeys.2.1.trans hname, hkeys.2.2.trans hspec⟩, ?_⟩
    cases hwhole : e.whole with
    | none =>
      rw [Edit.apply_frame hedit.applied hwhole]
      exact ⟨hslot, hgen⟩
    | some z =>
      obtain rfl := Edit.apply_whole hedit.applied hwhole
      cases e with
      | createCommit z =>
        cases hwhole
        have hnew := hp.2.1 x hedit.found
        exact ⟨(hq.2.2 x hedit.found).trans hslot, by omega⟩
      | startCommit z =>
        cases hwhole
        have hnext := (hp.2.2.2.2.2.2 hedit.noAlias).2 x hedit.found
        exact ⟨(hq.2.2.1 x hedit.found).trans hslot, by dsimp only; omega⟩
      | _ => cases hwhole
  · intro x hx
    cases hv.symm.trans hx
    exact ⟨⟨rfl, rfl, rfl⟩, rfl, le_rfl⟩

def isStart : Label Op Op.Reply Job → Bool
  | .run _ (.update _ e) _ => Host.isAdmission e
  | _ => false

/-- A step raises a generation by one at most, and only if it commits a start. -/
theorem generation_step {w : Sandbox} (hc : daemonReachable D c)
    (hs : (daemon D).Step c l c') (hn : c'.state.NoAlias) (hw : c'.state.store.row id = some w) :
    w.generation = 0 ∨ ∃ v, c.state.store.row id = some v ∧
      w.generation ≤ v.generation + if isStart l then 1 else 0 := by
  have hn₀ := noAlias_of_step hc hs hn
  cases hs with
  | request | crash => exact .inr ⟨w, hw, Nat.le_add_right _ _⟩
  | @run t o next r s ht hx => ?_
  have hp : permit t c.state o r := (ownership_sound D).permit hc (.run ht hx)
  rw [System.resume_state] at hw
  rcases row_step hp hx id with hr | ⟨e, x, y, rfl, hpe, hed⟩ | ⟨-, v, rfl, -, hr⟩ | ⟨-, hr⟩
  · exact .inr ⟨w, hr ▸ hw, Nat.le_add_right _ _⟩
  · refine .inr ⟨x, hed.found, ?_⟩
    obtain ⟨now, hself⟩ := hed.row_self
    cases hself.symm.trans hw
    rcases hed.generation hpe with hsame | ⟨-, -, hadmission⟩
    · exact hsame.le.trans (Nat.le_add_right _ _)
    · have hstart : isStart (.run t (.update id e) r : Label Op Op.Reply Job) = true := hadmission
      rw [if_pos hstart]
      cases e with
      | startCommit z =>
        obtain rfl := Edit.apply_whole hed.applied rfl
        have hnext := (hpe.2.2.2.2.2.2 hn₀).2 x hed.found
        dsimp only
        omega
      | _ => cases hadmission
  · obtain rfl : v = w := Option.some.inj (hr.symm.trans hw)
    exact .inl hp.2.2.2.1
  · rw [hw] at hr
    cases hr

/-- A generation counts starts, so that it fits into an `int` for as many starts as do. -/
theorem generation_le_starts {labels : List (Label Op Op.Reply Job)} {v : Sandbox}
    (h : (daemon D).Trace ((daemon D).booted Host.initial) labels c) (hn : c.state.NoAlias)
    (hv : v ∈ c.state.store.sandboxes) : v.generation ≤ labels.countP isStart := by
  induction h generalizing v with
  | nil => cases hv
  | @snoc labels l c c' h hs ih =>
    have hc : daemonReachable D c := ⟨_, rfl, h.runs⟩
    have hw := (inv_of_reachable (hc.step _ hs)).keyed.row_of_mem hv
    rw [List.countP_append, List.countP_singleton]
    rcases generation_step hc hs hn hw with hzero | ⟨x, hx, hle⟩
    · omega
    · have hbound := ih (noAlias_of_step hc hs hn) (Store.row_eq_some hx).1
      exact hle.trans (Nat.add_le_add_right hbound _)

/-- The sandbox that a call starts, kills or deletes, or of whose VMM it records the fate. -/
def Op.handled : Op → Option String
  | .vmStart v _ | .kill v => some v.id
  | .delete id => some id
  | .update _ (.createFail _) | .update _ (.createCommit _) | .update _ .stopping => none
  | .update id _ => some id
  | _ => none

theorem permit.owns {t : ℕ} {s : Host} {o : Op} {r : o.Reply} (hp : permit t s o r)
    (hn : s.NoAlias) (ho : o.handled = some id) : Owns t id s := by
  cases o with
  | vmStart | delete =>
    cases ho
    exact (hp hn).1
  | kill =>
    cases ho
    exact hp hn
  | update i e =>
    cases e with
    | createFail | createCommit | stopping => cases ho
    | startCommit =>
      cases ho
      exact (hp.2.2.2.2.2.2 hn).1
    | setPID | running | killFailed | deferRemoval =>
      cases ho
      exact hp hn
    | _ =>
      cases ho
      exact (hp hn).1
  | _ => cases ho

/-- A sandbox is handled by one thread at a time: the one that does owns it alone. -/
theorem handled_by_owner (hc : daemonReachable D c) (hn : c.state.NoAlias) {t : ℕ} {o : Op}
    {r : o.Reply} (hs : (daemon D).Step c (.run t o r) c') (ho : o.handled = some id) :
    Owns t id c.state ∧ ∀ u, Owns u id c.state → u = t := by
  have hmixed : ∀ {u w}, c.state.locks id = some u → c.state.booting = some w →
      id ∉ c.state.monitored → u = w := by
    intro u w hu hb hm
    rcases (inv_of_reachable hc).locks id u hu with h | h | h
    · cases h.symm.trans hb
    · exact Option.some.inj (h.symm.trans hb)
    · exact absurd h hm
  have howns : Owns t id c.state := ((ownership_sound D).permit hc hs).owns hn ho
  refine ⟨howns, fun u hu => ?_⟩
  rcases howns with ht | ⟨hb, hm⟩ <;> rcases hu with hu | ⟨hb', hm'⟩
  · exact Option.some.inj (hu.symm.trans ht)
  · exact (hmixed ht hb' hm').symm
  · exact hmixed hu hb hm
  · exact Option.some.inj (hb'.symm.trans hb)

end runs

open Sample in
/-- A sandbox is created and started. -/
theorem identity_kept_started : ∃ c₁ c₂ v w, daemonReachable setup c₁ ∧
    (daemon setup).Runs (System.Meets System.anyCall) c₁ c₂ ∧ v.generation = 0 ∧
    w.generation = 1 ∧ SameKeys v w ∧ w.slot = v.slot := by
  have hrun : ((afterBoth ((daemon setup).restrict System.anyCall) createA
      ([.request (.start "a")] ++ steps 3 14)).bind fun p =>
        (p.1.store.row (ident 0)).bind fun v => (p.2.store.row (ident 0)).map fun w =>
          (v.generation, w.generation, p.2.created)) = some (0, 1, [(ident 0, "a")]) := by
    decide +kernel
  obtain ⟨⟨s₁, s₂⟩, hs, hrest⟩ := Option.bind_eq_some_iff.1 hrun
  obtain ⟨v, hv, hrest⟩ := Option.bind_eq_some_iff.1 hrest
  obtain ⟨w, hw, hfacts⟩ := Option.map_eq_some_iff.1 hrest
  simp only [Prod.mk.injEq] at hfacts
  obtain ⟨hgen, hgen', hcreated⟩ := hfacts
  obtain ⟨c₁, c₂, h₁, h₂, rfl, rfl⟩ := runs_afterBoth hs
  have hreach : daemonReachable setup c₁ :=
    System.Reachable.runs _ ⟨_, rfl, .refl⟩ ((System.restrict_runs (daemon setup)).1 h₁)
  have hruns := (System.restrict_runs (daemon setup)).1 h₂
  have hn : c₂.state.NoAlias := by
    unfold Host.NoAlias
    rw [hcreated]
    decide
  obtain ⟨hkeys, hslot, _⟩ := identity_kept hreach hruns hn hv hw
  exact ⟨c₁, c₂, v, w, hreach, hruns, hgen, hgen', hkeys, hslot⟩

def Sample.nextHandled (t : ℕ) (c : Config Host Op Op.Reply) : Option (Option String) :=
  match c.threads t with
  | .call o _ => (exec setup t c.state o (reply c.state o 0)).map fun _ => o.handled
  | .pure _ => none

open Sample in
/-- A start is about to launch the VMM. -/
theorem handled_by_owner_launch : ∃ c o r c', daemonReachable setup c ∧
    (daemon setup).Step c (.run 3 o r) c' ∧ o.handled = some (ident 0) ∧
    ∀ u, Owns u (ident 0) c.state → u = 3 := by
  have hrun : (((daemon setup).replay reply ((daemon setup).booted Host.initial)
      (createA ++ [.request (.start "a")] ++ steps 3 13)).bind fun c =>
        (nextHandled 3 c).map fun x => (x, c.state.created)) =
      some (some (ident 0), [(ident 0, "a")]) := by
    decide +kernel
  obtain ⟨c, hc, hnext⟩ := Option.bind_eq_some_iff.1 hrun
  obtain ⟨_, hnext, hfacts⟩ := Option.map_eq_some_iff.1 hnext
  obtain ⟨rfl, hcreated⟩ := Prod.mk.inj hfacts
  unfold nextHandled at hnext
  split at hnext
  · rename_i o next ht
    obtain ⟨s', hx, ho⟩ := Option.map_eq_some_iff.1 hnext
    have hreach : daemonReachable setup c := ⟨_, rfl, System.replay_runs _ hc⟩
    have hn : c.state.NoAlias := by
      unfold Host.NoAlias
      rw [hcreated]
      decide
    have hs : (daemon setup).Step c (.run 3 o (reply c.state o 0)) _ := .run ht hx
    exact ⟨c, o, _, _, hreach, hs, ho, (handled_by_owner hreach hn hs ho).2⟩
  · cases hnext

/-- Stored sandboxes have different identifiers, names, slots and host ports, slots of the
address range, and mounts of existing volumes. -/
theorem allocation_invariant (D : Setup) (c : Config Host Op Op.Reply) (h : daemonReachable D c) :
    (c.state.store.sandboxes.map Sandbox.id).Nodup ∧
    (c.state.store.sandboxes.map Sandbox.name).Nodup ∧
    (c.state.store.sandboxes.map Sandbox.slot).Nodup ∧
    (∀ v ∈ c.state.store.sandboxes, 1 ≤ v.slot ∧ v.slot ≤ 16000) ∧
    (c.state.store.sandboxes.flatMap fun v => v.spec.ports.map Port.hostPort).Nodup ∧
    ∀ v ∈ c.state.store.sandboxes, ∀ m ∈ v.spec.mounts,
      ∃ x ∈ c.state.store.volumes, x.name = m.name := by
  have hi := inv_of_reachable h
  have ha := allocated_of_reachable h
  refine ⟨hi.keyed.ids, hi.keyed.names, ha.nodup_slots hi, fun v hv => ?_, ha.nodup_hostPorts hi,
    fun v hv => ?_⟩
  · exact (ha.placed v.id v (hi.keyed.row_of_mem hv)).slot
  · exact ha.mounted v.id v (hi.keyed.row_of_mem hv)

open Sample in
theorem allocation_invariant_created :
    ∃ c, daemonReachable setup c ∧ c.state.store.sandboxes.length = 2 ∧
      (c.state.store.sandboxes.map Sandbox.slot).Nodup ∧ ∀ v ∈ c.state.store.sandboxes,
        1 ≤ v.slot ∧ v.slot ≤ 16000 ∧ ∃ m ∈ v.spec.mounts,
          ∃ x ∈ c.state.store.volumes, x.name = m.name := by
  have hrun : ((after createBoth).map fun s => (s.store.sandboxes.length,
      s.store.sandboxes.all fun v => !v.spec.mounts.isEmpty)) = some (2, true) := by
    decide +kernel
  obtain ⟨s, hs, hfacts⟩ := Option.map_eq_some_iff.1 hrun
  obtain ⟨hlength, hmounts⟩ := Prod.mk.inj hfacts
  obtain ⟨c, hc, rfl⟩ := reachable_after hs
  obtain ⟨_, _, hnodup, hslots, _, hvolumes⟩ := allocation_invariant setup c hc
  refine ⟨c, hc, hlength, hnodup, fun v hv => ⟨(hslots v hv).1, (hslots v hv).2, ?_⟩⟩
  obtain ⟨m, hm⟩ : ∃ m, m ∈ v.spec.mounts := by
    apply List.exists_mem_of_ne_nil
    simpa [List.isEmpty_iff] using List.all_eq_true.1 hmounts v hv
  exact ⟨m, hm, hvolumes v hv m hm⟩

end Niflhel
