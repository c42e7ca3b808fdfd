import Niflhel.Admission

/-!
# The listeners of a sandbox

Host ports and the DNS responder of a sandbox are opened after its admission by `Start`, or by
the recovery of a running one, and closed by `stopDNS`. A discipline on top of the lock
discipline says who may open them, and that they are closed before a reservation ends. So
whatever listens belongs to an admitted sandbox, as long as no name aliases an identifier.
-/

namespace Niflhel
open Concurrent
open Concurrent.Program (uses_perform uses_bind)

def Silent (id : String) (s : Host) : Prop := s.ports id = [] ∧ s.dns id = false

/-- Edits that can end the reservation of an admitted record. -/
def listenPermit (t : ℕ) (s : Host) : (o : Op) → o.Reply → Prop
  | .reservePorts v, _ | .startDNS v, _ => s.NoAlias → Owns t v.id s ∧ s.admitted v.id = true
  | .update id e, _ => e.ends = true → s.NoAlias → Silent id s
  | .delete id, _ => s.NoAlias → Silent id s
  | _, _ => True

def Op.isListener : Op → Bool
  | .reservePorts _ | .startDNS _ | .stopDNS _ => true
  | _ => false

section effects
variable {D : Setup} {t u : ℕ} {s s' : Host} {o : Op} {r : o.Reply} {id : String}

theorem exec_listeners (h : exec D t s o r = some s') (ho : o.isListener = false) :
    s'.ports = s.ports ∧ s'.dns = s.dns := by
  cases o with
  | reservePorts v | startDNS v | stopDNS i => cases ho
  | external | vmStart | goMonitor | serve => exact Option.some.inj h ▸ ⟨rfl, rfl⟩
  | lock k | unlock k | newID | claimMonitor v =>
    simp only [exec] at h
    split_ifs at h
    exact Option.some.inj h ▸ ⟨rfl, rfl⟩
  | releaseMonitor v =>
    simp only [exec] at h
    split_ifs at h
    · exact Option.some.inj h ▸ ⟨rfl, rfl⟩
    · exact Option.some.inj h ▸ ⟨rfl, rfl⟩
  | basesPull ref policy =>
    obtain ⟨r₁, fetched, writes⟩ := r
    simp only [exec] at h
    split_ifs at h
    exact Option.some.inj h ▸ ⟨rfl, rfl⟩
  | basesImport | basesRemove =>
    obtain ⟨r₁, n⟩ := r
    simp only [exec] at h
    split_ifs at h
    exact Option.some.inj h ▸ ⟨rfl, rfl⟩
  | list | get | volume | basesGet =>
    cases r with
    | error e => exact Option.some.inj h ▸ ⟨rfl, rfl⟩
    | ok a =>
      simp only [exec] at h
      split_ifs at h
      exact Option.some.inj h ▸ ⟨rfl, rfl⟩
  | update i e =>
    obtain ⟨store, admitted, rfl⟩ := exec_update_frame h
    exact ⟨rfl, rfl⟩
  | insert | delete | putVolume | deleteVolume | kill =>
    cases r with
    | some e => exact Option.some.inj h ▸ ⟨rfl, rfl⟩
    | none =>
      simp only [exec, unlessError, Option.map_eq_some_iff] at h
      obtain ⟨a, _, rfl⟩ := h
      exact ⟨rfl, rfl⟩

/-- Silence ends only with a call that opens a listener for the sandbox. -/
theorem silent_of_exec (h : exec D t s o r = some s') (hs : Silent id s) :
    Silent id s' ∨ ∃ v, v.id = id ∧ (o = .reservePorts v ∨ o = .startDNS v) := by
  cases ho : o.isListener with
  | false =>
    obtain ⟨hports, hdns⟩ := exec_listeners h ho
    exact .inl ⟨by rw [hports, hs.1], by rw [hdns, hs.2]⟩
  | true =>
    cases o with
    | reservePorts v =>
      by_cases hv : v.id = id
      · exact .inr ⟨v, hv, .inl rfl⟩
      · left
        cases r with
        | some e => cases h; exact hs
        | none =>
          cases h
          split
          · exact hs
          · exact ⟨by simpa [Ne.symm hv] using hs.1, hs.2⟩
    | startDNS v =>
      by_cases hv : v.id = id
      · exact .inr ⟨v, hv, .inr rfl⟩
      · left
        cases r with
        | some e => cases h; exact hs
        | none =>
          cases h
          exact ⟨hs.1, by simpa [Ne.symm hv] using hs.2⟩
    | stopDNS i =>
      cases h
      left
      by_cases hi : id = i
      · subst hi
        exact ⟨by simp, by simp⟩
      · exact ⟨by simpa [hi] using hs.1, by simpa [hi] using hs.2⟩
    | _ => cases ho

/-- Whatever listens belongs to an admitted sandbox. -/
def Attended (s : Host) : Prop := s.NoAlias → ∀ id, s.admitted id = true ∨ Silent id s

theorem attended_step (hi : Attended s) (hc : OwnedCall D t s o r s') (hq : listenPermit t s o r) :
    Attended s' := by
  intro hn' id
  have hn := hc.evolves.noAlias hn'
  rcases hi hn id with ha | hs
  · by_cases hupdate : ∃ e, o = .update id e
    · obtain ⟨e, rfl⟩ := hupdate
      cases r with
      | error err => exact .inl (Option.some.inj hc.exec ▸ ha)
      | ok now =>
        obtain ⟨x, y, hed, _⟩ := edited hc.permitted hc.exec
        cases he : e.ends with
        | false => exact .inl (hed.keeps_admission hc.inv hc.permitted he ha)
        | true =>
          obtain ⟨hports, hdns⟩ := exec_listeners hc.exec rfl
          obtain ⟨hp, hd⟩ := hq he hn
          exact .inr ⟨by rw [hports, hp], by rw [hdns, hd]⟩
    · have hother : o = .delete id ∨ s'.admitted id = s.admitted id := by
        cases effect_of_exec hc.exec with
        | @edited i e now x y hx hy =>
          have hne : id ≠ i := fun h => hupdate ⟨e, by rw [h]⟩
          exact .inr (by simp [Host.update, hne])
        | @deleted i =>
          by_cases hid : id = i
          · exact .inl (by rw [hid])
          · exact .inr (by simp [Host.delete, hid])
        | _ => exact .inr rfl
      rcases hother with rfl | hsame
      · obtain ⟨hports, hdns⟩ := exec_listeners hc.exec rfl
        obtain ⟨hp, hd⟩ := hq hn
        exact .inr ⟨by rw [hports, hp], by rw [hdns, hd]⟩
      · exact .inl (hsame.trans ha)
  · rcases silent_of_exec hc.exec hs with h | ⟨v, rfl, ho⟩
    · exact .inr h
    · have hadmitted : s.admitted v.id = true ∧ o.isCore = false := by
        rcases ho with rfl | rfl
        · exact ⟨(hq hn).2, rfl⟩
        · exact ⟨(hq hn).2, rfl⟩
      obtain ⟨volumes, bases, dns, ports, monitors, _, _, rfl⟩ := exec_of_not_core hc.exec hadmitted.2
      exact .inl hadmitted.1

end effects

def listening (D : Setup) : Discipline (ownership D).enforced where
  inv := Attended
  permit := listenPermit
  fresh _ _ := True
  pre j t s :=
    match j with
    | .recover => s.booting = some t ∧ s.monitored = [] ∧ ∀ id, Silent id s
    | _ => True
  inv_step hi hq hx := attended_step hi (enforced_exec.1 hx) hq
  fresh_step _ _ _ _ _ := trivial

theorem listening_overlay (D : Setup) : Overlay D (listening D) where
  owned h := enforced_exec.1 h
  neutral {t s o r} ho := by
    cases o with
    | lock | unlock | external | list | get | volume => trivial
    | _ => cases ho
  pre {o j} hj t s := by
    cases o with
    | goMonitor v =>
      obtain rfl : Job.monitor v = j := Option.some.inj hj
      trivial
    | _ => cases hj

section assertions
variable {D : Setup} {t : ℕ} {s : Host} {id : String}

def OwnedSilent (t : ℕ) (id : String) (s : Host) : Prop := s.NoAlias → Owns t id s ∧ Silent id s

theorem stable_ownedSilent (id : String) : (listening D).Stable t (OwnedSilent t id) := by
  rintro s s' ⟨_, u, o, r, hu, hq, hx⟩ hs hn'
  have hc := enforced_exec.1 hx
  have hn := hc.evolves.noAlias hn'
  obtain ⟨ho, hsilent⟩ := hs hn
  refine ⟨hc.evolves.owns hu ho, ?_⟩
  rcases silent_of_exec hc.exec hsilent with h | ⟨v, rfl, hopens⟩
  · exact h
  · have hown : Owns u v.id s := by
      rcases hopens with rfl | rfl
      · exact (hq hn).1
      · exact (hq hn).1
    exact absurd (hc.inv.owns_unique hown ho) hu

theorem stable_owned (id : String) : (listening D).Stable t (Owned t id) :=
  (listening_overlay D).stable (robust_owned_self id)

theorem stable_ownedAdmitted (id : String) : (listening D).Stable t (OwnedAdmitted t id) :=
  (listening_overlay D).stable (robust_ownedAdmitted id)

end assertions

section rules
variable {D : Setup} {t : ℕ} {s : Host} {v : Sandbox} {id : String} {α : Type}
  {post : α → Host → Prop}

theorem listen_any {o : Op} {f : o.Reply → Prog α} (ho : ∀ s r, listenPermit t s o r)
    (h : ∀ r s₁, (listening D).Safe t post (f r) s₁) :
    (listening D).Safe t post (op o >>= f) s :=
  (listening_overlay D).call (Discipline.stable_const _ t True) trivial
    fun s₁ r s₂ _ _ _ => ⟨ho s₁ r, h r s₂⟩

/-- Only the owner of a sandbox kills its process. -/
theorem listen_kill {g : Option String → Prog α}
    (h : ∀ r s₁, Owned t v.id s₁ → (listening D).Safe t post (g r) s₁) :
    (listening D).Safe t post (kill v >>= g) s := by
  refine (listening_overlay D).call (Discipline.stable_const _ t True) trivial
    fun s₁ r s₂ hx _ _ => ⟨trivial, h r s₂ ?_⟩
  have hc := enforced_exec.1 hx
  have howned : Owned t v.id s₁ := fun hn => ⟨hc.permitted hn, trivial⟩
  cases r with
  | some e => exact exec_kill_some hc.exec howned
  | none => exact fun hn => ⟨(exec_kill_none hc.exec howned hn).1, trivial⟩

theorem listen_close {g : Unit → Prog α} (hs : Owned t id s)
    (h : ∀ s₁, OwnedSilent t id s₁ → (listening D).Safe t post (g ()) s₁) :
    (listening D).Safe t post (stopDNS id >>= g) s := by
  refine (listening_overlay D).call (stable_owned id) hs fun s₁ r s₂ hx _ hs₁ => ⟨trivial, h s₂ ?_⟩
  obtain rfl := Option.some.inj (enforced_exec.1 hx).exec
  exact fun hn => ⟨(hs₁ hn).1, by simp, by simp⟩

/-- An update of a sandbox for which nothing listens. -/
theorem listen_update {e : Edit} {g : Except String Time → Prog α} (hs : OwnedSilent t id s)
    (h : ∀ r s₁, OwnedSilent t id s₁ → (listening D).Safe t post (g r) s₁) :
    (listening D).Safe t post (storeUpdate id e >>= g) s := by
  refine (listening_overlay D).call (stable_ownedSilent id) hs
    fun s₁ r s₂ hx _ hs₁ => ⟨fun _ hn => (hs₁ hn).2, h r s₂ ?_⟩
  obtain ⟨store, admitted, rfl⟩ := exec_update_frame (enforced_exec.1 hx).exec
  exact hs₁

end rules

section operations
variable {D : Setup} {t : ℕ} {s : Host} {v : Sandbox}

theorem listen_conclude (exit : Exit) (autoRemove : Bool) (hs : Owned t v.id s) :
    (listening D).Respects t (conclude v exit autoRemove) s := by
  have L := listening_overlay D
  have hP := @stable_ownedSilent D t v.id
  refine listen_close hs fun s₁ hs₁ => ?_
  refine (L.queries (queries_removeResources v) hP hs₁).bind fun errs s₂ hs₂ => ?_
  refine listen_update hs₂ fun _ s₃ hs₃ => ?_
  split
  · refine L.query hP hs₃ rfl fun
      | _, some e, _, _, hs₄ => listen_update hs₄ fun _ _ _ => trivial
      | s₄, none, _, _, hs₄ => ?_
    refine L.query hP hs₄ rfl fun s₅ _ _ _ hs₅ => ?_
    exact L.call hP hs₅ fun s₆ _ _ _ _ hs₆ =>
      ⟨fun hn => (hs₆ hn).2, trivial⟩
  · exact trivial

theorem listen_locked {α : Type} {k : String} {body : Prog α}
    (h : ∀ s₁, (listening D).Respects t body s₁) : (listening D).Respects t (locked k body) s :=
  (listening_overlay D).locked_true (Q := fun _ => True) (Discipline.stable_const _ t True) trivial
    (fun _ _ _ => trivial) fun s₁ _ => h s₁

theorem listen_finish (v : Sandbox) (exit : Exit) : (listening D).Respects t (finish v exit) s := by
  have L := listening_overlay D
  have htrue := Discipline.stable_const (listening D) t True
  refine listen_locked fun s₁ => ?_
  refine L.query htrue trivial rfl fun
    | _, .error e, _, _, _ => trivial
    | s₂, .ok current, _, _, _ => ?_
  dsimp only
  split
  · exact trivial
  refine (L.queries (queries_requestShutdown v) htrue trivial).bind fun _ s₃ _ => ?_
  exact listen_kill fun
    | some e, _, _ => listen_any (fun _ _ h => nomatch h) fun _ _ => trivial
    | none, _, hs₄ => listen_conclude exit current.spec.autoRemove hs₄

theorem listen_startFail (v : Sandbox) (err : String) :
    (listening D).Respects t (startFail v err) s := by
  have L := listening_overlay D
  refine listen_kill fun
    | some e, _, _ => listen_any (fun _ _ h => nomatch h) fun _ _ => trivial
    | none, s₁, hs₁ => ?_
  refine listen_close hs₁ fun s₂ hs₂ => ?_
  refine (L.queries (queries_removeResources v) (stable_ownedSilent v.id) hs₂).bind
    fun errs s₃ hs₃ => ?_
  exact listen_update hs₃ fun _ _ _ => trivial

theorem listen_monitor (v : Sandbox) : (listening D).Respects t (monitor v) s := by
  exact listen_any (fun _ _ => trivial) fun
    | false, _ => trivial
    | true, _ => listen_any (f := pure) (fun _ _ => trivial) fun _ _ => trivial

theorem listen_launch (v : Sandbox) (b : Base.Bundle) : (listening D).Respects t (launch v b) s := by
  refine listen_any (fun _ _ => trivial) fun r s₁ => ?_
  obtain ⟨pid, pidStart, err⟩ := r
  cases err with
  | some e => exact listen_startFail _ e
  | none =>
  refine listen_any (fun _ _ h => nomatch h) fun
    | .error e, _ => listen_startFail _ e
    | .ok now, s₂ => ?_
  refine listen_any (fun _ _ => trivial) fun
    | some e, _ => listen_startFail _ e
    | none, s₃ => ?_
  refine listen_any (fun _ _ => trivial) fun
    | some e, _ => listen_startFail _ e
    | none, s₄ => ?_
  exact listen_any (fun _ _ h => nomatch h) fun
    | .error e, _ => listen_startFail _ e
    | .ok now', _ => (listen_monitor _).bind fun _ _ _ => trivial

theorem listen_open {α : Type} {post : α → Host → Prop} {o : Op} {f : o.Reply → Prog α} {id : String}
    (ho : o.isCore = false) (hs : OwnedAdmitted t id s)
    (hperm : ∀ s₁ r, OwnedAdmitted t id s₁ → listenPermit t s₁ o r)
    (h : ∀ r s₁, OwnedAdmitted t id s₁ → (listening D).Safe t post (f r) s₁) :
    (listening D).Safe t post (op o >>= f) s := by
  refine (listening_overlay D).call (stable_ownedAdmitted id) hs
    fun s₁ r s₂ hx _ hs₁ => ⟨hperm s₁ r hs₁, h r s₂ ?_⟩
  obtain ⟨volumes, bases, dns, ports, monitors, _, _, rfl⟩ :=
    exec_of_not_core (enforced_exec.1 hx).exec ho
  exact hs₁

theorem listen_boot (b : Base.Bundle) (hs : OwnedAdmitted t v.id s) :
    (listening D).Respects t (boot v b) s := by
  refine listen_open rfl hs (fun _ _ h => h) fun
    | some e, _, _ => listen_startFail v e
    | none, s₁, hs₁ => ?_
  refine listen_open rfl hs₁ (fun _ _ _ => trivial) fun
    | some e, _, _ => listen_startFail v e
    | none, s₂, hs₂ => ?_
  dsimp only
  split
  · exact listen_open rfl hs₂ (fun _ _ h => h) fun
      | some e, _, _ => listen_startFail v e
      | none, _, _ => listen_launch v b
  · exact listen_launch v b

def AdmittedRecord (t : ℕ) (r : Except String Sandbox) (s : Host) : Prop :=
  ∀ w, r = .ok w → OwnedAdmitted t w.id s ∧ ∃ name, (w.id, name) ∈ s.created

theorem stable_admittedRecord (r : Except String Sandbox) :
    (listening D).Stable t (AdmittedRecord t r) := by
  intro s s' h hs w hw
  obtain ⟨hadmitted, name, hname⟩ := hs w hw
  refine ⟨stable_ownedAdmitted w.id s s' h hadmitted, name, ?_⟩
  obtain ⟨_, u, o, r', _, _, hx⟩ := h
  exact (enforced_exec.1 hx).evolves.created _ hname

theorem listen_admission (v : Sandbox) : (listening D).Safe t (AdmittedRecord t) (admission v) s := by
  have L := listening_overlay D
  have htrue := Discipline.stable_const (listening D) t True
  have herr : ∀ (e : String) (s₁ : Host), (listening D).Safe t (AdmittedRecord t)
      (pure (.error e) : Prog (Except String Sandbox)) s₁ := by rintro e s₁ w ⟨⟩
  unfold admission
  refine L.query htrue trivial rfl fun s₁ got _ _ _ => ?_
  cases got with
  | error e => exact herr e s₁
  | ok all =>
  dsimp only
  split
  · exact herr _ s₁
  refine L.query htrue trivial rfl fun s₂ available _ _ _ => ?_
  cases available with
  | error e => exact herr e s₂
  | ok available =>
  dsimp only
  split
  · exact herr _ s₂
  refine L.call htrue trivial fun s₃ r s₄ hx _ _ => ⟨by rintro ⟨⟩, ?_⟩
  have hc := enforced_exec.1 hx
  cases r with
  | error e => exact herr e s₄
  | ok now =>
    refine Discipline.safe_ret fun w hw => ?_
    obtain rfl : startingRecord v = w := Except.ok.inj hw
    have hp : editPermit t s₃ (startingRecord v).id (.startCommit (startingRecord v)) := hc.permitted
    obtain ⟨x, y, hed, _⟩ := edited hp hc.exec
    have hcreated := hc.inv.row_recorded hed.found
    refine ⟨fun hn => ⟨?_, ?_⟩, x.name, hc.evolves.created _ hcreated⟩
    · have hown := (hp.2.2.2.2.2.2 (hc.evolves.noAlias hn)).1
      rw [hed.frame]
      exact hown
    · rw [hed.admitted_self, Edit.apply_whole hed.applied rfl]
      simp [Host.isAdmission, reservesVMResources, startingRecord]

theorem listen_startLocked (id : String) : (listening D).Respects t (startLocked id) s := by
  have L := listening_overlay D
  have htrue := Discipline.stable_const (listening D) t True
  refine L.query htrue trivial rfl fun
    | _, .error e, _, _, _ => trivial
    | s₁, .ok v, _, _, _ => ?_
  dsimp only
  split
  · exact trivial
  refine listen_any (fun _ _ => trivial) fun
    | some e, _ => trivial
    | none, s₂ => ?_
  refine listen_any (fun _ _ => trivial) fun
    | .error e, _ => trivial
    | .ok b, s₃ => ?_
  have hadmission : (listening D).Safe t (AdmittedRecord t) (locked allocations (admission v)) s₃ := by
    refine L.locked (Q := fun _ => True) htrue trivial (fun _ _ _ => trivial)
      (fun s₄ _ => listen_admission v) stable_admittedRecord fun r s₄ hi₄ h w hw => ?_
    obtain ⟨hadmitted, name, hname⟩ := h w hw
    exact ⟨fun hn => ⟨(hadmitted hn).1.unlock (hi₄.ne_allocations hname), (hadmitted hn).2⟩,
      name, hname⟩
  exact hadmission.bind fun
    | .error e, _, _ => trivial
    | .ok w, _, hs₄ => listen_boot b (hs₄ w rfl).1

theorem listen_start (id : String) : (listening D).Respects t (start id) s := by
  exact listen_any (fun _ _ => trivial) fun
    | .error _, _ => trivial
    | .ok v, _ => listen_locked fun _ => listen_startLocked v.id

theorem listen_removeLocked (id : String) (force : Bool) :
    (listening D).Respects t (removeLocked id force) s := by
  have L := listening_overlay D
  refine listen_any (fun _ _ => trivial) fun
    | .error e, _ => trivial
    | .ok v, s₁ => ?_
  have hP := @stable_ownedSilent D t v.id
  dsimp only
  split
  · exact trivial
  refine listen_kill fun
    | some e, _, _ => trivial
    | none, s₂, hs₂ => ?_
  refine listen_close hs₂ fun s₃ hs₃ => ?_
  refine L.query hP hs₃ rfl fun
    | _, some e, _, _, _ => trivial
    | s₄, none, _, _, hs₄ => ?_
  refine L.query hP hs₄ rfl fun
    | _, some e, _, _, _ => trivial
    | s₅, none, _, _, hs₅ => ?_
  refine listen_update hs₅ fun _ s₆ hs₆ => ?_
  refine L.query hP hs₆ rfl fun s₇ rmErr _ _ hs₇ => ?_
  cases rmErr with
  | some e => exact trivial
  | none => exact L.call (f := pure) hP hs₇ fun s₈ _ _ _ _ hs₈ =>
    ⟨fun hn => (hs₈ hn).2, trivial⟩

theorem listen_remove (id : String) (force : Bool) : (listening D).Respects t (remove id force) s := by
  exact listen_any (fun _ _ => trivial) fun
    | .error _, _ => trivial
    | .ok v, _ => listen_locked fun _ => listen_removeLocked v.id force

theorem listen_queries {α : Type} {p : Prog α} (hp : Queries p) : (listening D).Respects t p s :=
  (listening_overlay D).queries hp (Discipline.stable_const _ t True) trivial

theorem listen_monitorRounds (v : Sandbox) (n failures : ℕ) :
    (listening D).Respects t (monitorRounds v n failures) s := by
  induction n generalizing failures s with
  | zero => exact trivial
  | succ n ih =>
    refine listen_any (fun _ _ => trivial) fun
      | .error e, _ => trivial
      | .ok current, s₁ => ?_
    dsimp only
    split
    · exact trivial
    refine (listen_queries (queries_poll v failures)).bind fun
      | .inr exit, _, _ => listen_any (fun _ _ => trivial) fun _ _ => listen_finish v exit
      | .inl failures', s₂, _ => ?_
    dsimp only
    split
    · exact listen_any (fun _ _ => trivial) fun now _ => listen_finish v (controlLost now)
    · exact ih failures'

theorem listen_monitorLoop (v : Sandbox) : (listening D).Respects t (monitorLoop v) s := by
  refine listen_any (fun _ _ => trivial) fun n s₁ => ?_
  refine (listen_monitorRounds v n 0).bind fun _ s₂ _ => ?_
  exact listen_any (f := pure) (fun _ _ => trivial) fun _ _ => trivial

theorem listen_stop (id : String) (seconds : ℤ) : (listening D).Respects t (stop id seconds) s := by
  unfold stop
  refine listen_any (fun _ _ => trivial) fun got s₁ => ?_
  cases got with
  | error e => exact Discipline.safe_ret trivial
  | ok v =>
  dsimp only
  split
  · exact Discipline.safe_ret trivial
  split
  · exact Discipline.safe_ret trivial
  refine listen_any (by rintro _ _ ⟨⟩) fun _ s₂ => ?_
  refine (listen_queries (queries_requestStop v seconds)).bind fun answer s₃ _ => ?_
  split
  · refine listen_any (fun _ _ => trivial) fun now s₄ => ?_
    exact (listen_finish v (forcedStop now)).bind fun _ _ _ => listen_queries (queries_awaitStop v)
  · exact listen_queries (queries_awaitStop v)

def Op.isMute : Op → Bool
  | .reservePorts _ | .startDNS _ | .delete _ => false
  | .update _ e => !e.ends
  | _ => true

theorem listen_mute {α : Type} {p : Prog α} (hp : p.Uses fun o => o.isMute = true) :
    (listening D).Respects t p s := by
  refine (listening_overlay D).free hp fun o r s ho => ?_
  cases o with
  | reservePorts | startDNS | delete => cases ho
  | update i e =>
    intro he
    simp [Op.isMute, he] at ho
  | _ => trivial

theorem Queries.mute {α : Type} {p : Prog α} (h : Queries p) : p.Uses fun o => o.isMute = true := by
  refine h.mono fun o ho => ?_
  cases o with
  | external | list | get | volume => rfl
  | _ => cases ho

theorem Stores.mute {α : Type} {p : Prog α} (h : Stores p) : p.Uses fun o => o.isMute = true := by
  refine h.mono fun o ho => ?_
  cases o with
  | reservePorts | startDNS | delete | update => cases ho
  | _ => rfl

theorem mute_locked {α : Type} {p : Prog α} (k : String) (hp : p.Uses fun o => o.isMute = true) :
    (locked k p).Uses fun o => o.isMute = true :=
  uses_perform rfl fun _ => uses_bind hp fun _ => uses_perform rfl fun _ => trivial

theorem mute_prepare (v : Sandbox) : (prepare v).Uses fun o => o.isMute = true := by
  refine uses_perform rfl fun
    | some e => trivial
    | none => ?_
  refine uses_perform rfl fun
    | .error e => trivial
    | .ok img => ?_
  refine uses_perform rfl fun pulled => ?_
  obtain ⟨base, fetched, writes⟩ := pulled
  cases base with
  | error e => trivial
  | ok b =>
  dsimp only
  split
  · trivial
  refine uses_perform rfl fun
    | some e => trivial
    | none => ?_
  refine uses_perform rfl fun
    | some e => trivial
    | none => ?_
  refine uses_perform rfl fun
    | some e => trivial
    | none => ?_
  exact uses_perform rfl fun
    | some e => trivial
    | none => trivial

theorem mute_createLocked (spec : Spec) : (createLocked spec).Uses fun o => o.isMute = true := by
  have hfail : ∀ id e, (createFail id e).Uses fun o => o.isMute = true := fun id e =>
    uses_perform rfl fun _ => uses_perform rfl fun _ => trivial
  refine uses_perform rfl fun
    | .error e => trivial
    | .ok all => ?_
  dsimp only
  split
  · trivial
  refine uses_bind (queries_checkVolumes spec.mounts).mute fun
    | .error e => trivial
    | .ok _ => ?_
  dsimp only
  split
  · trivial
  refine uses_perform rfl fun id => uses_perform rfl fun now => uses_perform rfl fun
    | some e => trivial
    | none => ?_
  refine uses_bind (mute_prepare _) fun
    | .error e => hfail id e
    | .ok w => ?_
  exact uses_perform rfl fun
    | .error e => hfail id e
    | .ok now => trivial

theorem mute_create (spec : Spec) : (create D spec).Uses fun o => o.isMute = true := by
  unfold create
  split
  · trivial
  dsimp only
  split
  · trivial
  · exact mute_locked allocations (mute_createLocked _)

def Op.concerns (id : String) : Op → Prop
  | .update i _ | .delete i => i = id
  | .reservePorts v | .startDNS v | .goMonitor v => v.id = id
  | .insert _ | .serve => False
  | _ => True

/-- The recovering thread still has to treat the given sandboxes, for which nothing listens. -/
structure Awaiting (t : ℕ) (rest : List Sandbox) (s : Host) : Prop where
  recovering : Recovering t rest s
  silent : s.NoAlias → ∀ v ∈ rest, Silent v.id s
  admitted : s.NoAlias → ∀ v ∈ rest, v.state.isActive = true → s.admitted v.id = true

theorem stable_awaiting (rest : List Sandbox) : (listening D).Stable t (Awaiting t rest) := by
  intro s s' h hs
  have howns : ∀ v ∈ rest, Owns t v.id s := fun v hv => .inr ⟨hs.recovering.1, hs.recovering.2 v hv⟩
  have hn : s'.NoAlias → s.NoAlias := by
    obtain ⟨_, u, o, r, _, _, hx⟩ := h
    exact (enforced_exec.1 hx).evolves.noAlias
  refine ⟨(listening_overlay D).stable (robust_recovering rest) s s' h hs.recovering,
    fun hn' v hv => ?_, fun hn' v hv hact => ?_⟩
  · have hsilent : OwnedSilent t v.id s := fun hn => ⟨howns v hv, hs.silent hn v hv⟩
    exact (stable_ownedSilent v.id s s' h hsilent hn').2
  · have hadmitted : OwnedAdmitted t v.id s := fun hn => ⟨howns v hv, hs.admitted hn v hv hact⟩
    exact (stable_ownedAdmitted v.id s s' h hadmitted hn').2

variable {rest : List Sandbox}

theorem awaiting_of_call {o : Op} {r : o.Reply} {s' : Host} {id : String}
    (hc : OwnedCall D t s o r s') (ho : o.concerns id) (hrest : ∀ w ∈ rest, w.id ≠ id)
    (hs : Awaiting t rest s) : Awaiting t rest s' := by
  refine ⟨⟨?_, fun w hw => ?_⟩, fun hn w hw => ?_, fun hn w hw hact => ?_⟩
  · have hb := hs.recovering.1
    cases effect_of_exec hc.exec with
    | served => cases ho
    | _ => exact hb
  · have hm := hs.recovering.2 w hw
    cases effect_of_exec hc.exec with
    | @handed v r =>
      obtain rfl : v.id = id := ho
      rw [List.mem_cons, not_or]
      exact ⟨hrest w hw, hm⟩
    | _ => exact hm
  · rcases silent_of_exec hc.exec (hs.silent (hc.evolves.noAlias hn) w hw) with h | ⟨v, hv, hopens⟩
    · exact h
    · rcases hopens with rfl | rfl
      · exact absurd (hv.symm.trans ho) (hrest w hw)
      · exact absurd (hv.symm.trans ho) (hrest w hw)
  · have ha := hs.admitted (hc.evolves.noAlias hn) w hw hact
    cases effect_of_exec hc.exec with
    | @edited i e now x y hx hy =>
      obtain rfl : i = id := ho
      simpa [Host.update, hrest w hw] using ha
    | @deleted i =>
      obtain rfl : i = id := ho
      simpa [Host.delete, hrest w hw] using ha
    | _ => exact ha

theorem Restores.concerns {α : Type} {p : Prog α} (h : Restores v p) : p.Uses (Op.concerns v.id) := by
  refine h.mono fun o ho => ?_
  cases o with
  | update i e => exact ho.1
  | delete i => exact ho
  | reservePorts x | startDNS x | goMonitor x => exact congrArg Sandbox.id ho
  | insert | serve => cases ho
  | _ => trivial

theorem listen_interrupt (hs : OwnedSilent t v.id s) : (listening D).Respects t (interrupt v) s := by
  have L := listening_overlay D
  have hP := @stable_ownedSilent D t v.id
  refine L.call hP hs fun s₁ killed s₂ hx _ hs₁ => ⟨trivial, ?_⟩
  cases killed with
  | some e => exact listen_any (fun _ _ h => nomatch h) fun _ _ => trivial
  | none =>
    have hs₂ : OwnedSilent t v.id s₂ := by
      obtain rfl := Option.some.inj (enforced_exec.1 hx).exec
      exact hs₁
    refine (L.queries (queries_removeResources v) hP hs₂).bind fun errs s₃ hs₃ => ?_
    exact listen_update hs₃ fun _ _ _ => trivial

theorem listen_retryCleanup (v : Sandbox) : (listening D).Respects t (retryCleanup v) s := by
  have L := listening_overlay D
  refine listen_kill fun
    | some e, _, _ => trivial
    | none, s₁, hs₁ => ?_
  refine listen_close hs₁ fun s₂ hs₂ => ?_
  refine (L.queries (queries_removeResources v) (stable_ownedSilent v.id) hs₂).bind
    fun errs s₃ hs₃ => ?_
  dsimp only
  split
  · exact listen_update hs₃ fun _ _ _ => trivial
  · exact trivial

theorem listen_adopt (hs : OwnedAdmitted t v.id s) : (listening D).Respects t (adopt v) s := by
  refine listen_open rfl hs (fun _ _ h => h) fun
    | some e, _, _ => trivial
    | none, s₁, hs₁ => ?_
  dsimp only
  split
  · exact listen_open rfl hs₁ (fun _ _ h => h) fun
      | some e, _, _ => trivial
      | none, _, _ => (listen_monitor v).bind fun _ _ _ => trivial
  · exact (listen_monitor v).bind fun _ _ _ => trivial

theorem listen_apart {α : Type} {p : Prog α} (hp : Restores v p)
    (hnew : ∀ w ∈ rest, w.id ≠ v.id) (hs : Awaiting t rest s)
    (h : (listening D).Respects t p s) :
    (listening D).Safe t (fun _ s' => Awaiting t rest s') p s :=
  (h.frame (stable_awaiting rest) hp.concerns
    (fun _ _ _ _ ho _ _ hx hs => awaiting_of_call (enforced_exec.1 hx) ho hnew hs) hs).weaken
    fun _ _ h => h.2

theorem Awaiting.tail (h : Awaiting t (v :: rest) s) : Awaiting t rest s :=
  ⟨h.recovering.tail, fun hn w hw => h.silent hn w (List.mem_cons_of_mem _ hw),
    fun hn w hw => h.admitted hn w (List.mem_cons_of_mem _ hw)⟩

theorem Awaiting.owns (h : Awaiting t (v :: rest) s) : Owns t v.id s :=
  .inr ⟨h.recovering.1, h.recovering.2 v (List.mem_cons_self ..)⟩

theorem listen_recoverOne (hs : Awaiting t (v :: rest) s) (hnew : ∀ w ∈ rest, w.id ≠ v.id) :
    (listening D).Safe t (fun _ s' => Awaiting t rest s') (recoverOne v) s := by
  have L := listening_overlay D
  have hP := @stable_awaiting D t (v :: rest)
  have hdone : ∀ s₁, Awaiting t rest s₁ → (listening D).Safe t (fun _ s' => Awaiting t rest s')
      (pure none : Prog (Option String)) s₁ := fun _ h => Discipline.safe_ret h
  have hresume : v.state.isActive = true → (listening D).Safe t
      (fun _ s' => Awaiting t rest s') (resumeOne v) s := by
    intro hact
    refine L.query hP hs rfl fun s₁ alive _ _ hs₁ => ?_
    cases alive with
    | true =>
      refine listen_apart (restores_adopt v) hnew hs₁.tail (listen_adopt fun hn => ⟨hs₁.owns, ?_⟩)
      exact hs₁.admitted hn v (List.mem_cons_self ..) hact
    | false =>
      refine L.query hP hs₁ rfl fun s₂ now _ _ hs₂ => ?_
      exact (listen_apart (settles_finish v _).restores hnew hs₂.tail (listen_finish v _)).bind
        fun _ s₃ hs₃ => hdone s₃ hs₃
  have hinterrupt : (listening D).Safe t (fun _ s' => Awaiting t rest s') (do
        interrupt v
        return none : Prog (Option String)) s := by
    refine (listen_apart (settles_interrupt v).restores hnew hs.tail (listen_interrupt fun hn => ?_)).bind
      fun _ s₁ hs₁ => hdone s₁ hs₁
    exact ⟨hs.owns, hs.silent hn v (List.mem_cons_self ..)⟩
  unfold recoverOne
  split
  · rename_i hstate
    exact hresume (by rw [hstate]; rfl)
  · rename_i hstate
    exact hresume (by rw [hstate]; rfl)
  · exact hinterrupt
  · exact hinterrupt
  · exact hinterrupt
  · split
    · exact hdone s hs.tail
    · exact (listen_apart (settles_retryCleanup v).restores hnew hs.tail (listen_retryCleanup v)).bind
        fun _ s₁ hs₁ => hdone s₁ hs₁
  · exact hdone s hs.tail
  · exact hdone s hs.tail

theorem listen_recoverAll (all : List Sandbox) (hids : (all.map Sandbox.id).Nodup)
    (hs : Awaiting t all s) : (listening D).Respects t (recoverAll all) s := by
  induction all generalizing s with
  | nil => exact trivial
  | cons v rest ih =>
    obtain ⟨hnew, hrest⟩ := List.nodup_cons.1 hids
    have hne : ∀ w ∈ rest, w.id ≠ v.id := fun w hw he => hnew (List.mem_map.2 ⟨w, hw, he⟩)
    exact (listen_recoverOne hs hne).bind fun
      | some e, _, _ => trivial
      | none, _, hs₁ => ih hrest hs₁

theorem listen_recover (hs : s.booting = some t ∧ s.monitored = [] ∧ ∀ id, Silent id s) :
    (listening D).Respects t recover s := by
  have L := listening_overlay D
  -- Before the list is read, the thread owns every sandbox.
  have hP : (listening D).Stable t fun s => (s.booting = some t ∧ ∀ id, id ∉ s.monitored) ∧
      (s.NoAlias → ∀ id, Silent id s) := by
    rintro s s' h ⟨hb, hsilent⟩
    refine ⟨L.stable robust_unmonitored s s' h hb, fun hn' id => ?_⟩
    have howned : OwnedSilent t id s := fun hn => ⟨.inr ⟨hb.1, hb.2 id⟩, hsilent hn id⟩
    exact (stable_ownedSilent id s s' h howned hn').2
  refine L.query hP ⟨⟨hs.1, fun id => by simp [hs.2.1]⟩, fun _ => hs.2.2⟩ rfl
    fun
      | _, .error e, _, _, _ => trivial
      | s₁, .ok all, hc, _, hs₁ => ?_
  obtain ⟨-, rfl⟩ := exec_list hc.exec
  obtain ⟨⟨hb, hm⟩, hsilent⟩ := hs₁
  have hawait : Awaiting t s₁.store.list s₁ := by
    refine ⟨⟨hb, fun v _ => hm v.id⟩, fun hn v _ => hsilent hn v.id, fun _ v hv hact => ?_⟩
    exact hc.inv.active v (hc.inv.keyed.row_of_mem (Store.mem_list.1 hv)) hact
  refine (listen_recoverAll _ hc.inv.keyed.list_ids hawait).bind fun r s₂ _ => ?_
  split
  · exact listen_any (f := pure) (fun _ _ => trivial) fun _ _ => trivial
  · exact trivial

theorem listen_code (j : Job) (hs : (listening D).pre j t s) :
    (listening D).Respects t (j.code D) s := by
  cases j with
  | recover => exact listen_recover hs
  | monitor v => exact listen_monitorLoop v
  | create spec => exact Overlay.ignored (listen_mute (mute_create spec))
  | start id => exact Overlay.ignored (listen_start id)
  | stop id seconds => exact Overlay.ignored (listen_stop id seconds)
  | restart id seconds =>
    refine (listen_stop id seconds).bind fun stopped s₁ _ => ?_
    split
    · exact (listen_start id).bind fun _ _ _ => trivial
    · exact trivial
  | wait id => exact Overlay.ignored (listen_queries (queries_wait id))
  | remove id force => exact Overlay.ignored (listen_remove id force)
  | baseRm ref =>
    refine Overlay.ignored (listen_mute (mute_locked allocations ?_))
    refine (removal_baseRmLocked ref).mono fun o ho => ?_
    cases o with
    | list | basesGet | basesRemove => rfl
    | _ => cases ho
  | basePull ref => exact Overlay.ignored (listen_mute (stores_basePull ref).mute)
  | baseLoad ref v kernel rootfs =>
    exact Overlay.ignored (listen_mute (stores_baseLoad ref v kernel rootfs).mute)
  | volumeCreate v =>
    exact Overlay.ignored (listen_mute (mute_locked allocations (stores_volumeCreateLocked v).mute))
  | volumeRm name =>
    exact Overlay.ignored (listen_mute (mute_locked allocations (stores_volumeRmLocked name).mute))

end operations

theorem listening_sound (D : Setup) : (listening D).Sound fun s => s = Host.initial where
  boots s hs := by
    subst hs
    exact ⟨fun _ id => .inr ⟨rfl, rfl⟩, ⟨rfl, rfl, fun _ => ⟨rfl, rfl⟩⟩, fun _ => trivial⟩
  crashes s _ := ⟨fun _ id => .inr ⟨rfl, rfl⟩, ⟨rfl, rfl, fun _ => ⟨rfl, rfl⟩⟩, fun _ => trivial⟩
  accepts s j _ hj t := by
    cases j with
    | recover =>
      simp only [Discipline.enforced, daemon, Job.isRequest, Bool.and_false] at hj
      cases hj
    | _ => trivial
  jobs j _ _ _ hpre _ := listen_code j hpre

variable {c : Config Host Op Op.Reply}

theorem attended_of_reachable {D : Setup} (h : daemonReachable D c) : Attended c.state :=
  (((ownership_sound D).extend (listening_sound D)).guarded h).inv.2

/-- A new sandbox is not named after the identifier of an earlier one, nor is an earlier one
named after its identifier. -/
def namesApart (s : Host) : (o : Op) → o.Reply → Bool
  | .insert v, none => s.created.all fun a => a.1 != v.name && a.2 != v.id
  | _, _ => true

theorem noAlias_insert {s : Host} {v : Sandbox} {st : Store} (hn : s.NoAlias)
    (hv : namesApart s (.insert v) none = true) : (s.insert v st).NoAlias := by
  have hapart : ∀ a ∈ s.created, a.1 ≠ v.name ∧ a.2 ≠ v.id := by
    simpa [namesApart] using hv
  intro a ha b hb hab
  rcases List.mem_cons.1 ha with rfl | ha
  · rcases List.mem_cons.1 hb with rfl | hb
    · rfl
    · exact absurd hab.symm (hapart b hb).1
  · rcases List.mem_cons.1 hb with rfl | hb
    · exact absurd hab (hapart a ha).2
    · exact hn a ha b hb hab

theorem noAlias_step {D : Setup} {c' : Config Host Op Op.Reply} {l : Label Op Op.Reply Job}
    (hs : (daemon D).Step c l c') (hok : System.Meets namesApart c l) (hn : c.state.NoAlias) :
    c'.state.NoAlias := by
  cases hs with
  | request | crash => exact hn
  | @run t o next r s ht hx =>
    rw [System.resume_state]
    cases effect_of_exec (show exec D t c.state o r = some s from hx) with
    | inserted hst => exact noAlias_insert hn hok
    | _ => exact hn

theorem noAlias_of_runs {D : Setup}
    (h : (daemon D).Runs (System.Meets namesApart) ((daemon D).booted Host.initial) c) :
    c.state.NoAlias := by
  induction h with
  | refl => exact nofun
  | tail _ hs ih =>
    obtain ⟨l, hok, hstep⟩ := hs
    exact noAlias_step hstep hok ih

/-- In every run without aliases, whatever listens for a sandbox listens for one that is
starting, running, stopping or failed with its resources unreleased. -/
theorem listeners_released (D : Setup) (c : Config Host Op Op.Reply)
    (h : (daemon D).Runs (System.Meets namesApart) ((daemon D).booted Host.initial) c) (id : String)
    (hlisten : c.state.ports id ≠ [] ∨ c.state.dns id = true) :
    ∃ v, c.state.store.row id = some v ∧ (v.state = .starting ∨ v.state = .running ∨
      v.state = .stopping ∨ (v.state = .failed ∧ v.vmResourcesReleased = false)) := by
  have hc : daemonReachable D c := ⟨_, rfl, System.Runs.mono _ h fun _ _ _ => trivial⟩
  rcases attended_of_reachable hc (noAlias_of_runs h) id with ha | ⟨hports, hdns⟩
  · obtain ⟨v, hv, hres, _⟩ := (inv_of_reachable hc).admitted id ha
    refine ⟨v, hv, ?_⟩
    cases hs : v.state <;> simp_all [reservesVMResources]
  · rcases hlisten with hl | hl
    · exact absurd hports hl
    · rw [hdns] at hl
      cases hl

open Sample in
theorem listeners_released_started :
    ∃ c, (daemon setup).Runs (System.Meets namesApart) ((daemon setup).booted Host.initial) c ∧
      c.state.dns (ident 0) = true ∧ ∃ v, c.state.store.row (ident 0) = some v ∧
        (v.state = .starting ∨ v.state = .running ∨ v.state = .stopping ∨
          (v.state = .failed ∧ v.vmResourcesReleased = false)) := by
  have hrun : ((afterBoth ((daemon setup).restrict namesApart) createA
      ([.request (.start "a")] ++ steps 3 13)).map fun p => p.2.dns (ident 0)) = some true := by
    decide +kernel
  obtain ⟨⟨s₁, s₂⟩, hs, hdns⟩ := Option.map_eq_some_iff.1 hrun
  obtain ⟨c₁, c₂, h₁, h₂, rfl, rfl⟩ := runs_afterBoth hs
  have hruns := (System.restrict_runs (daemon setup)).1 (h₁.trans h₂)
  exact ⟨c₂, hruns, hdns, listeners_released setup c₂ hruns (ident 0) (.inr hdns)⟩

open Sample in
/-- `Start` of `a` reads and admits the sandbox named after the identifier of `a`, under the
mutex of `a`. That sandbox is removed before `Start` opens its listeners. -/
theorem removed_sandbox_listens : ∃ c, daemonReachable setup c ∧ c.state.locks (ident 1) = none ∧
      c.state.dns (ident 1) = true ∧ c.state.store.row (ident 1) = none := by
  have hrun : ((after (createAliased ++ [.request (.start "a")] ++ steps 4 12 ++
      [.request (.remove (ident 1) true)] ++ steps 5 11 ++ steps 4 1)).map fun s =>
        (s.locks (ident 1), s.dns (ident 1), (s.store.row (ident 1)).isNone)) =
      some (none, true, true) := by
    decide +kernel
  obtain ⟨s, hs, hfacts⟩ := Option.map_eq_some_iff.1 hrun
  obtain ⟨c, hc, rfl⟩ := reachable_after hs
  simp only [Prod.mk.injEq, Option.isNone_iff_eq_none] at hfacts
  exact ⟨c, hc, hfacts.1, hfacts.2.1, hfacts.2.2⟩

end Niflhel
