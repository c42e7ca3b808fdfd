import Niflhel.BaseHeld
import Niflhel.Overlay
import Niflhel.Volumes

/-!
# The bases that sandboxes refer to

A second discipline, for runs that respect the first one and whose calls on the base store
meet `keepsBases`. A record gets its base digest once, from the commit of `Create`, under
the allocation mutex and after a pull that left the digest held. From then on only
`base-rm` could remove the bundle, under the same mutex and after it saw no reference.
-/

namespace Niflhel
open Concurrent

/-- The condition on calls of the base store. An import replaces no digest record of
another bundle; when a removal runs, its reference still resolves to the digest that was
checked, and all records of the bundle are deleted. -/
def keepsBases (D : Setup) (s : Host) : (o : Op) → o.Reply → Bool
  | .basesPull ref policy, (_, fetched, _) =>
      Base.pullKeeps D.crypto D.trust s.bases ref policy fetched
  | .basesImport ref v _ _, _ => Base.importKeeps D.crypto s.bases ref v
  | .basesRemove ref checked, (_, deletions) =>
      Base.removesWhole D.crypto D.trust s.bases ref deletions &&
        match Base.get D.crypto D.trust s.bases ref with
        | .ok b => b.digest == checked
        | .error _ => true
  | _, _ => true

structure Pinned (D : Setup) (s : Host) : Prop where
  linked : Base.Linked D.crypto D.trust s.bases
  rows : ∀ id v, s.store.row id = some v → v.baseDigest ≠ "" →
    Base.Held D.crypto s.bases v.baseDigest

def pinPermit (D : Setup) (t : ℕ) (s : Host) : (o : Op) → o.Reply → Prop
  | .insert v, _ => v.baseDigest = ""
  | .update id (.createCommit w), _ =>
      (∀ v, s.store.row id = some v → v.baseDigest = "") ∧
        Base.Held D.crypto s.bases w.baseDigest
  | .update id (.startCommit w), _ => ∀ v, s.store.row id = some v → v.baseDigest = w.baseDigest
  | .basesRemove _ checked, _ => s.locks allocations = some t ∧
      ∀ id v, s.store.row id = some v → v.baseDigest ≠ checked
  | _, _ => True

section effects
variable {D : Setup} {t : ℕ} {s s' : Host} {o : Op} {r : o.Reply} {id : String}

theorem exec_bases (h : exec D t s o r = some s') (ho : o.isBaseUpdate = false) :
    s'.bases = s.bases := by
  cases effect_of_exec h with
  | plain _ hb _ => exact hb ho
  | _ => rfl

/-- The base store after a call that meets the condition. -/
theorem bases_step (hk : keepsBases D s o r = true) (h : exec D t s o r = some s')
    (hl : Base.Linked D.crypto D.trust s.bases) :
    Base.Linked D.crypto D.trust s'.bases ∧ ∀ d, Base.Held D.crypto s.bases d →
      (∀ ref, o ≠ .basesRemove ref d) → Base.Held D.crypto s'.bases d := by
  cases ho : o.isBaseUpdate with
  | false =>
    rw [exec_bases h ho]
    exact ⟨hl, fun _ hd _ => hd⟩
  | true =>
    cases o with
    | basesPull ref policy =>
      obtain ⟨r₁, fetched, writes⟩ := r
      simp only [exec] at h
      split_ifs at h
      cases h
      obtain ⟨hlinked, hheld⟩ := Base.linked_pull hl policy fetched hk writes
      exact ⟨hlinked, fun d hd _ => hheld d hd⟩
    | basesImport ref v kernel rootfs =>
      obtain ⟨r₁, writes⟩ := r
      simp only [exec] at h
      split_ifs at h
      cases h
      obtain ⟨hlinked, hheld⟩ := Base.linked_importBundle hl hk kernel rootfs writes
      exact ⟨hlinked, fun d hd _ => hheld d hd⟩
    | basesRemove ref checked =>
      obtain ⟨r₁, deletions⟩ := r
      simp only [exec] at h
      split_ifs at h
      cases h
      obtain ⟨hwhole, hcheck⟩ := (Bool.and_eq_true _ _).mp hk
      refine ⟨Base.linked_remove hl hwhole, fun d hd hne => hd.remove hl fun b hb he => ?_⟩
      simp only [hb, beq_iff_eq] at hcheck
      exact hne ref (by rw [← hcheck, he])
    | _ => cases ho

/-- Where the base digest of a row comes from. -/
theorem row_base (hp : permit t s o r) (hq : pinPermit D t s o r) (h : exec D t s o r = some s')
    {w : Sandbox} (hw : s'.store.row id = some w) :
    (∃ v, s.store.row id = some v ∧ v.baseDigest = w.baseDigest) ∨
      (s.locks allocations = some t ∧
        (w.baseDigest = "" ∧ (∀ a ∈ s.created, a.1 ≠ id) ∨
          (∃ v, s.store.row id = some v ∧ v.baseDigest = "") ∧
            Base.Held D.crypto s.bases w.baseDigest ∧ o.isBaseUpdate = false)) := by
  rcases row_step hp h id with hr | ⟨e, x, y, rfl, hpe, hed⟩ | ⟨hr, v, rfl, hv, hnew⟩ | ⟨_, hr⟩
  · exact Or.inl ⟨w, hr.symm.trans hw, rfl⟩
  · obtain ⟨now, hself⟩ := hed.row_self
    cases hself.symm.trans hw
    cases hwhole : e.whole with
    | none =>
      refine Or.inl ⟨x, hed.found, ?_⟩
      rw [Edit.apply_frame hed.applied hwhole]
    | some z =>
      have hy := Edit.apply_whole hed.applied hwhole
      cases e with
      | createCommit z =>
        cases hwhole
        refine Or.inr ⟨hpe.1, Or.inr ⟨⟨x, hed.found, hq.1 x hed.found⟩, ?_, rfl⟩⟩
        rw [hy]
        exact hq.2
      | startCommit z =>
        cases hwhole
        refine Or.inl ⟨x, hed.found, ?_⟩
        rw [hy]
        exact hq x hed.found
      | _ => cases hwhole
  · subst hv
    cases hnew.symm.trans hw
    exact Or.inr ⟨hp.1, Or.inl ⟨hq, hp.2.2.1⟩⟩
  · rw [hw] at hr
    cases hr

theorem pinned_step (hi : Pinned D s) (hk : keepsBases D s o r = true) (hp : permit t s o r)
    (hq : pinPermit D t s o r) (h : exec D t s o r = some s') : Pinned D s' := by
  obtain ⟨hlinked, hheld⟩ := bases_step hk h hi.linked
  refine ⟨hlinked, fun id w hw hne => ?_⟩
  rcases row_base hp hq h hw with ⟨v, hv, hbase⟩ | ⟨_, ⟨hempty, _⟩ | ⟨_, hd, ho⟩⟩
  · apply hheld
    · rw [← hbase] at hne ⊢
      exact hi.rows id v hv hne
    · rintro ref rfl
      exact hq.2 id v hv hbase
  · exact absurd hempty hne
  · rw [exec_bases h ho]
    exact hd

end effects

noncomputable def keptDaemon (D : Setup) : System Host Op Op.Reply Job :=
  (ownership D).enforced.restrict (keepsBases D)

structure KeptCall (D : Setup) (t : ℕ) (s : Host) (o : Op) (r : o.Reply) (s' : Host) : Prop where
  inv : Inv s
  keeps : keepsBases D s o r = true
  permitted : permit t s o r
  exec : exec D t s o r = some s'

theorem keptDaemon_exec {D : Setup} {t : ℕ} {s s' : Host} {o : Op} {r : o.Reply} :
    (keptDaemon D).exec t s o r = some s' ↔ KeptCall D t s o r s' := by
  unfold keptDaemon
  rw [System.restrict_exec_eq_some, Discipline.enforced_exec_eq_some]
  exact ⟨fun ⟨hk, ⟨hi, hp⟩, hx⟩ => ⟨hi, hk, hp, hx⟩,
    fun h => ⟨h.keeps, ⟨h.inv, h.permitted⟩, h.exec⟩⟩

def pinning (D : Setup) : Discipline (keptDaemon D) where
  inv := Pinned D
  permit := pinPermit D
  fresh _ _ := True
  pre _ _ _ := True
  inv_step hi hq hx := by
    have hc := keptDaemon_exec.1 hx
    exact pinned_step hi hc.keeps hc.permitted hq hc.exec
  fresh_step _ _ _ _ _ := trivial

section assertions
variable {D : Setup} {t : ℕ} {s s' : Host} {id d : String}

theorem pinning_overlay (D : Setup) : Overlay D (pinning D) where
  owned h := by
    have hc := keptDaemon_exec.1 h
    exact ⟨hc.inv, hc.permitted, hc.exec⟩
  neutral {t s o r} ho := by
    cases o <;> trivial
  pre _ _ _ := trivial

/-- While `t` allocates, no other thread changes the base digest of a row. -/
theorem interferes_row (hi : (pinning D).Interferes t s s') (ha : Holds t allocations s)
    {w : Sandbox} (hw : s'.store.row id = some w) :
    ∃ v, s.store.row id = some v ∧ v.baseDigest = w.baseDigest := by
  obtain ⟨_, u, o, r, hu, hq, hx⟩ := hi
  have hc := keptDaemon_exec.1 hx
  rcases row_base hc.permitted hq hc.exec hw with hv | ⟨hlock, _⟩
  · exact hv
  · exact absurd (Option.some.inj (hlock.symm.trans ha)) hu

theorem interferes_held (hi : (pinning D).Interferes t s s') (ha : Holds t allocations s)
    (hd : Base.Held D.crypto s.bases d) : Base.Held D.crypto s'.bases d := by
  obtain ⟨hpin, u, o, r, hu, hq, hx⟩ := hi
  have hc := keptDaemon_exec.1 hx
  apply (bases_step hc.keeps hc.exec hpin.linked).2 d hd
  rintro ref rfl
  exact hu (Option.some.inj (hq.1.symm.trans ha))

def Unreferenced (t : ℕ) (d : String) (s : Host) : Prop :=
  Holds t allocations s ∧ ∀ id v, s.store.row id = some v → v.baseDigest ≠ d

theorem stable_unreferenced (d : String) : (pinning D).Stable t (Unreferenced t d) := by
  rintro s s' hi ⟨ha, hnone⟩
  refine ⟨(pinning_overlay D).stable (robust_holds allocations) s s' hi ha, fun id w hw => ?_⟩
  obtain ⟨v, hv, hbase⟩ := interferes_row hi ha hw
  rw [← hbase]
  exact hnone id v hv

def Unpinned (t : ℕ) (id : String) (s : Host) : Prop :=
  Holds t allocations s ∧ ∀ v, s.store.row id = some v → v.baseDigest = ""

theorem stable_unpinned (id : String) : (pinning D).Stable t (Unpinned t id) := by
  rintro s s' hi ⟨ha, hnone⟩
  refine ⟨(pinning_overlay D).stable (robust_holds allocations) s s' hi ha, fun w hw => ?_⟩
  obtain ⟨v, hv, hbase⟩ := interferes_row hi ha hw
  rw [← hbase]
  exact hnone v hv

theorem stable_unpinned_held (id d : String) :
    (pinning D).Stable t fun s => Unpinned t id s ∧ Base.Held D.crypto s.bases d := by
  rintro s s' hi ⟨hu, hd⟩
  exact ⟨stable_unpinned id s s' hi hu, interferes_held hi hu.1 hd⟩

/-- The record `id` was read with this base digest, which then is its digest for good. -/
def BaseRead (id d : String) (s : Host) : Prop :=
  (∃ name, (id, name) ∈ s.created) ∧
    (d ≠ "" → ∀ v, s.store.row id = some v → v.baseDigest = d)

theorem stable_baseRead (id d : String) : (pinning D).Stable t (BaseRead id d) := by
  rintro s s' ⟨_, u, o, r, _, hq, hx⟩ ⟨⟨name, hname⟩, hread⟩
  have hc := keptDaemon_exec.1 hx
  refine ⟨⟨name, (evolves hc.inv hc.permitted hc.exec).created _ hname⟩, fun hd w hw => ?_⟩
  rcases row_base hc.permitted hq hc.exec hw with
    ⟨v, hv, hbase⟩ | ⟨_, ⟨_, hfresh⟩ | ⟨⟨v, hv, hempty⟩, _⟩⟩
  · rw [← hbase]
    exact hread hd v hv
  · exact absurd rfl (hfresh _ hname)
  · exact absurd ((hread hd v hv).symm.trans hempty) hd

end assertions

section rules
variable {D : Setup} {t : ℕ} {α : Type} {post : α → Host → Prop} {P : Host → Prop} {s : Host}
  {o : Op} {f : o.Reply → Prog α}

theorem pinPermit_of_not_pins (ho : o.pins = false) (r : o.Reply) : pinPermit D t s o r := by
  cases o with
  | update id e =>
    cases e with
    | createCommit | startCommit => cases ho
    | _ => trivial
  | insert | basesRemove => cases ho
  | _ => trivial

theorem pin_free {p : Prog α} (hp : Unpinning p) : (pinning D).Respects t p s :=
  (pinning_overlay D).free hp fun _ r _ ho => pinPermit_of_not_pins ho r

theorem pin_call (hP : (pinning D).Stable t P) (hs : P s)
    (h : ∀ s₁ r s₂, KeptCall D t s₁ o r s₂ → Pinned D s₁ → P s₁ → pinPermit D t s₁ o r ∧
      (pinning D).Safe t post (f r) s₂) : (pinning D).Safe t post (op o >>= f) s :=
  (pinning_overlay D).call hP hs fun s₁ r s₂ hx => h s₁ r s₂ (keptDaemon_exec.1 hx)

end rules

section operations
variable {D : Setup} {t : ℕ} {s : Host} {v : Sandbox}

theorem pin_baseRmLocked (ref : String) (hs : Holds t allocations s) :
    (pinning D).Respects t (baseRmLocked ref) s := by
  have hP := (pinning_overlay D).stable (t := t) (robust_holds allocations)
  unfold baseRmLocked
  refine pin_call hP hs fun s₁ base s₂ hc _ hs₁ => ⟨trivial, ?_⟩
  cases base with
  | error e => exact Discipline.safe_ret trivial
  | ok b =>
    have hx := hc.exec
    simp only [exec] at hx
    split_ifs at hx
    cases hx
    refine (pinning_overlay D).query hP hs₁ rfl fun s₃ listed hc₃ _ hs₃ => ?_
    cases listed with
    | error e => exact Discipline.safe_ret trivial
    | ok all =>
      obtain ⟨-, rfl⟩ := exec_list hc₃.exec
      dsimp only
      cases hfind : s₃.store.list.find? fun v => v.baseDigest == b.digest with
      | some v => exact Discipline.safe_ret trivial
      | none =>
        have hnone : Unreferenced t b.digest s₃ := by
          refine ⟨hs₃, fun id v hv hbase => ?_⟩
          have hmem := Store.mem_list.2 (Store.row_eq_some hv).1
          exact absurd (by simp [hbase]) (List.find?_eq_none.1 hfind v hmem)
        exact pin_call (stable_unreferenced b.digest) hnone fun _ _ _ _ _ hs₄ =>
          ⟨hs₄, Discipline.safe_ret trivial⟩

theorem pin_completeCreate (hs : Unpinned t v.id s) : (pinning D).Respects t (completeCreate v) s := by
  have hprep := (pinning_overlay D).prepare (v := v) (t := t) (s := s)
    (Q := fun b s => Unpinned t v.id s ∧ Base.Held D.crypto s.bases b.digest)
    (stable_unpinned v.id) (fun b => stable_unpinned_held v.id b.digest) hs
    fun s₁ r s₂ hx hpin hs₁ => by
      -- The pulled bundle is recorded, hence held, in the state after the pull.
      have hc := keptDaemon_exec.1 hx
      have hlinked := (bases_step hc.keeps hc.exec hpin.linked).1
      obtain ⟨base, fetched, writes⟩ := r
      have hpulled := hc.exec
      simp only [exec] at hpulled
      split_ifs at hpulled with hr
      cases hpulled
      refine ⟨trivial, fun b hb => ⟨hs₁, hlinked.held _ b (Base.lookup_of_pull ?_)⟩⟩
      exact hr.symm.trans hb
  refine hprep.bind fun r s₁ hs₁ => ?_
  cases r with
  | error e => exact pin_free (cleans_createFail v.id e).unpinning
  | ok w =>
    obtain ⟨p, img, b, rfl, hb⟩ := hs₁ w rfl
    refine pin_call (stable_unpinned_held v.id b.digest) hb
      fun s₂ r s₃ _ _ hs₂ => ⟨⟨hs₂.1.2, hs₂.2⟩, ?_⟩
    cases r with
    | error e => exact pin_free (cleans_createFail v.id e).unpinning
    | ok now => exact Discipline.safe_ret trivial

theorem pin_createLocked (spec : Spec) (hs : Holds t allocations s) :
    (pinning D).Respects t (createLocked spec) s := by
  have hP := (pinning_overlay D).stable (t := t) (robust_holds allocations)
  refine (pinning_overlay D).query hP hs rfl fun
    | _, .error e, _, _, _ => trivial
    | s₁, .ok all, _, _, hs₁ => ?_
  dsimp only
  split
  · exact trivial
  refine ((pinning_overlay D).queries (queries_checkVolumes spec.mounts) hP hs₁).bind fun
      | .error e, _, _ => trivial
      | .ok _, s₂, hs₂ => ?_
  dsimp only
  split
  · exact trivial
  refine pin_call hP hs₂ fun s₃ id s₄ hc _ hs₃ => ⟨trivial, ?_⟩
  have hx := hc.exec
  simp only [exec] at hx
  split_ifs at hx
  cases hx
  refine (pinning_overlay D).query hP hs₃ rfl fun s₅ now _ _ hs₅ => ?_
  generalize hv : newRecord spec id _ now = v
  have hvid : v.id = id := by
    rw [← hv]
    rfl
  have hbase : v.baseDigest = "" := by
    rw [← hv]
    rfl
  refine pin_call hP hs₅ fun s₆ r s₇ hc₆ _ hs₆ => ⟨hbase, ?_⟩
  cases r with
  | some e => exact trivial
  | none => ?_
  obtain ⟨st, hst, rfl⟩ := exec_insert hc₆.exec
  subst hvid
  refine pin_completeCreate ⟨hs₆, fun w hw => ?_⟩
  have hrow : (s₆.insert v st).store.row v.id = some v := by
    change st.row v.id = _
    rw [Store.row_create hst, if_pos rfl]
  rw [← Option.some.inj (hrow.symm.trans hw)]
  exact hbase

theorem pin_create (spec : Spec) : (pinning D).Respects t (create D spec) s := by
  unfold create
  split
  · exact trivial
  · dsimp only
    split
    · exact trivial
    · exact (pinning_overlay D).allocating fun s₁ hs₁ => pin_createLocked _ hs₁

theorem pin_admission (hs : BaseRead v.id v.baseDigest s) (hd : v.baseDigest ≠ "") :
    (pinning D).Respects t (admission v) s := by
  have hP := stable_baseRead (D := D) (t := t) v.id v.baseDigest
  unfold admission
  refine (pinning_overlay D).query hP hs rfl fun s₁ got _ _ hs₁ => ?_
  cases got with
  | error e => exact Discipline.safe_ret trivial
  | ok all =>
    dsimp only
    split
    · exact Discipline.safe_ret trivial
    refine (pinning_overlay D).query hP hs₁ rfl fun s₂ available _ _ hs₂ => ?_
    cases available with
    | error e => exact Discipline.safe_ret trivial
    | ok available =>
      dsimp only
      split
      · exact Discipline.safe_ret trivial
      refine pin_call hP hs₂ fun s₃ r s₄ _ _ hs₃ => ⟨fun w hw => hs₃.2 hd w hw, ?_⟩
      cases r with
      | error | ok => exact Discipline.safe_ret trivial

theorem pin_startLocked (id : String) : (pinning D).Respects t (startLocked id) s := by
  unfold startLocked
  refine (pinning_overlay D).query (Discipline.stable_const _ t True) trivial rfl fun s₁ got hc _ _ => ?_
  cases got with
  | error e => exact Discipline.safe_ret trivial
  | ok v =>
    obtain ⟨hknown, hrow⟩ :=
      hc.inv.known_of_mem (Store.get_eq_ok (exec_get hc.exec).2).1
    have hread : BaseRead v.id v.baseDigest s₁ := by
      refine ⟨⟨_, hknown.1⟩, fun _ w hw => ?_⟩
      rw [Option.some.inj (hrow.symm.trans hw)]
    have hP := stable_baseRead (D := D) (t := t) v.id v.baseDigest
    dsimp only
    split
    · exact Discipline.safe_ret trivial
    refine (pinning_overlay D).query hP hread rfl fun s₂ check _ _ hs₂ => ?_
    cases check with
    | some e => exact Discipline.safe_ret trivial
    | none =>
      refine pin_call hP hs₂ fun s₃ base s₄ hc₃ hpin hs₃ => ⟨trivial, ?_⟩
      cases base with
      | error e => exact Discipline.safe_ret trivial
      | ok b =>
        have hx := hc₃.exec
        simp only [exec] at hx
        split_ifs at hx with hget
        cases hx
        -- The empty reference has no record, so the digest is not empty.
        have hd : v.baseDigest ≠ "" := by
          intro hempty
          have hlook := Base.get_eq_ok hget
          rw [hempty, hpin.linked.unnamed] at hlook
          cases hlook
        have hadmit : (pinning D).Respects t
            (locked allocations (admission v)) s₃ :=
          (pinning_overlay D).locked_true hP hs₃ (fun _ _ h => h) fun s₅ hs₅ =>
            pin_admission hs₅ hd
        refine hadmit.bind fun a s₅ _ => ?_
        cases a with
        | error e => exact Discipline.safe_ret trivial
        | ok w => exact pin_free (unpinning_boot w b)

theorem pin_start (id : String) : (pinning D).Respects t (start id) s := by
  refine (pinning_overlay D).query (Discipline.stable_const _ t True) trivial rfl fun
    | _, .error e, _, _, _ => trivial
    | s₁, .ok v, _, _, _ => ?_
  refine pin_call (Discipline.stable_const _ t True) trivial fun s₂ r s₃ _ _ _ =>
    ⟨trivial, ?_⟩
  refine (pin_startLocked v.id).bind fun a s₄ _ => ?_
  exact pin_free (p := op (.unlock v.id) >>= fun _ => pure a) ⟨rfl, fun _ => trivial⟩

theorem Stores.unpinning {α : Type} {p : Prog α} (h : Stores p) : Unpinning p := by
  refine h.mono fun o ho => ?_
  cases o <;> first | rfl | cases ho

theorem pin_code (j : Job) : (pinning D).Respects t (j.code D) s := by
  cases j with
  | recover => exact pin_free recovers_recover.unpinning
  | monitor v => exact pin_free (settles_monitorLoop v).cleans.unpinning
  | create spec => exact Overlay.ignored (pin_create spec)
  | start id => exact Overlay.ignored (pin_start id)
  | stop id seconds => exact Overlay.ignored (pin_free (cleans_stop id seconds).unpinning)
  | restart id seconds =>
    refine (pin_free (cleans_stop id seconds).unpinning).bind
      fun stopped s₁ _ => ?_
    split
    · exact (pin_start id).bind fun _ _ _ => trivial
    · exact trivial
  | wait id => exact Overlay.ignored (pin_free (queries_wait id).cleans.unpinning)
  | remove id force => exact Overlay.ignored (pin_free (cleans_remove id force).unpinning)
  | baseRm ref => exact Overlay.ignored ((pinning_overlay D).allocating fun s₁ hs₁ => pin_baseRmLocked ref hs₁)
  | basePull ref => exact Overlay.ignored (pin_free (stores_basePull ref).unpinning)
  | baseLoad ref v kernel rootfs =>
    exact Overlay.ignored (pin_free (stores_baseLoad ref v kernel rootfs).unpinning)
  | volumeCreate v =>
    exact Overlay.ignored ((pinning_overlay D).allocating fun _ _ => pin_free (stores_volumeCreateLocked v).unpinning)
  | volumeRm name =>
    exact Overlay.ignored ((pinning_overlay D).allocating fun _ _ => pin_free (stores_volumeRmLocked name).unpinning)

end operations

theorem pinning_sound (D : Setup) : (pinning D).Sound fun s => s = Host.initial where
  boots s hs := by
    subst hs
    refine ⟨⟨Base.linked_empty, fun id v hv => ?_⟩, trivial, fun _ => trivial⟩
    simp [Host.initial, Store.empty, Store.row] at hv
  crashes s hi := ⟨⟨hi.linked, hi.rows⟩, trivial, fun _ => trivial⟩
  accepts _ _ _ _ _ := trivial
  jobs j _ _ _ _ _ := pin_code j

theorem pinned_of_runs {D : Setup} {c : Config Host Op Op.Reply}
    (h : (daemon D).Runs (System.Meets (keepsBases D)) ((daemon D).booted Host.initial) c) :
    Pinned D c.state := by
  have hruns := (ownership_sound D).enforced_runs rfl h
  have hkept := (System.restrict_runs (ownership D).enforced).2 hruns
  exact ((pinning_sound D).guarded ⟨Host.initial, rfl, hkept⟩).inv

/-- In every run whose calls on the base store meet the condition, the base of every
stored sandbox is held. -/
theorem referenced_base_held (D : Setup) (c : Config Host Op Op.Reply)
    (h : (daemon D).Runs (System.Meets (keepsBases D)) ((daemon D).booted Host.initial) c) :
    ∀ v ∈ c.state.store.sandboxes, v.baseDigest ≠ "" →
      Base.Held D.crypto c.state.bases v.baseDigest := by
  intro v hv hd
  have hreach : daemonReachable D c := System.Reachable.runs _ ⟨_, rfl, .refl⟩ h
  exact (pinned_of_runs h).rows v.id v ((inv_of_reachable hreach).keyed.row_of_mem hv) hd

open Sample in
/-- A second base is pulled, and `base-rm` deletes it. -/
theorem referenced_base_held_created : ∃ c, (daemon setup).Runs (System.Meets (keepsBases setup))
        ((daemon setup).booted Host.initial) c ∧
      (Base.get setup.crypto setup.trust c.state.bases "x").toOption = none ∧
      ∃ v ∈ c.state.store.sandboxes, v.baseDigest ≠ "" ∧
        Base.Held setup.crypto c.state.bases v.baseDigest := by
  have hrun : ((afterBoth ((daemon setup).restrict (keepsBases setup))
      (createA ++ [.request (.basePull "x"), .run 3 1]) (.request (.baseRm "x") :: steps 4 5)).map
        fun p => ((Base.get setup.crypto setup.trust p.1.bases "x").toOption.isSome,
          (Base.get setup.crypto setup.trust p.2.bases "x").toOption,
          p.2.store.sandboxes.any fun v => v.baseDigest != "")) = some (true, none, true) := by
    decide +kernel
  obtain ⟨⟨s₁, s₂⟩, hs, hfacts⟩ := Option.map_eq_some_iff.1 hrun
  simp only [Prod.mk.injEq] at hfacts
  obtain ⟨_, hgone, hany⟩ := hfacts
  obtain ⟨c₁, c₂, h₁, h₂, rfl, rfl⟩ := runs_afterBoth hs
  obtain ⟨v, hv, hbase⟩ := List.any_eq_true.1 hany
  have hruns := (System.restrict_runs (daemon setup)).1 (h₁.trans h₂)
  have hd : v.baseDigest ≠ "" := by simpa using hbase
  exact ⟨c₂, hruns, hgone, v, hv, hd, referenced_base_held setup c₂ hruns v hv hd⟩

namespace Sample

/-- While `base-rm x` has checked a base that nobody uses, a pull lets `x` refer to the base
of sandbox `a`; then the removal runs. -/
def retagAndRemove : List (System.Move Job) :=
  createA ++ [.request (.basePull "x"), .run 3 1, .request (.baseRm "x")] ++ steps 4 3 ++
    [.request (.basePull "x"), .run 5 0] ++ steps 4 2

end Sample

open Sample in
theorem referenced_base_removed :
    ∃ c, daemonReachable setup c ∧ ∃ v ∈ c.state.store.sandboxes, v.baseDigest ≠ "" ∧
      ¬ Base.Held setup.crypto c.state.bases v.baseDigest := by
  have hrun : ((after retagAndRemove).map fun s => s.store.sandboxes.any fun v =>
      v.baseDigest != "" &&
        (s.bases.refs.lookup (Base.record setup.crypto v.baseDigest)).isNone) = some true := by
    decide +kernel
  obtain ⟨s, hs, hany⟩ := Option.map_eq_some_iff.1 hrun
  obtain ⟨c, hc, rfl⟩ := reachable_after hs
  obtain ⟨v, hv, hgone⟩ := List.any_eq_true.1 hany
  simp only [Bool.and_eq_true, bne_iff_ne, Option.isNone_iff_eq_none] at hgone
  refine ⟨c, hc, v, hv, hgone.1, fun hheld => ?_⟩
  obtain ⟨b, hb, _⟩ := hheld
  rw [hgone.2] at hb
  cases hb

end Niflhel
