import Niflhel.Ownership

/-!
# Every job of the daemon respects the lock discipline

One lemma for each operation, from the assertions it starts with. The rules `safe_call`
and `safe_plain` step over one call; what a call's answer tells is read off `exec`.
-/

namespace Niflhel
open Concurrent GoText

section rules
variable {D : Setup} {t : ℕ} {α : Type} {post : α → Host → Prop} {P : Host → Prop} {s s' : Host}
  {o : Op} {f : o.Reply → Prog α} {id : String} {body : Prog α}

theorem safe_call (hP : Robust t P) (hs : P s) (hfork : forks o = none)
    (h : ∀ s₁ r s₂, Inv s₁ → P s₁ → exec D t s₁ o r = some s₂ → permit t s₁ o r ∧
      (ownership D).Safe t post (f r) s₂) :
    (ownership D).Safe t post (op o >>= f) s := by
  refine Discipline.Safe.step hP.stable hs fun s₁ hi hs₁ r s₂ hx => ?_
  obtain ⟨hperm, hnext⟩ := h s₁ r s₂ hi hs₁ hx
  refine ⟨hperm, fun j hj => ?_, hnext⟩
  have hj' : forks o = some j := hj
  rw [hfork] at hj'
  cases hj'

theorem permit_of_not_core (ho : o.isCore = false) (r : o.Reply) : permit t s o r := by
  cases o <;> trivial

theorem forks_of_not_core (ho : o.isCore = false) : forks o = none := by
  cases o <;> first | rfl | cases ho

theorem safe_plain (hP : Robust t P) (hs : P s) (ho : o.isCore = false)
    (h : ∀ s₁ r s₂, exec D t s₁ o r = some s₂ → Inv s₂ → P s₂ →
      (ownership D).Safe t post (f r) s₂) :
    (ownership D).Safe t post (op o >>= f) s := by
  refine safe_call hP hs (forks_of_not_core ho) fun s₁ r s₂ hi hs₁ hx => ?_
  have hperm : ∀ u, permit u s₁ o r := fun u => permit_of_not_core ho r
  refine ⟨hperm t, h s₁ r s₂ hx (inv_step hi (hperm t) hx) ?_⟩
  -- Seen from thread `t`, the call could have been made by any other thread.
  obtain ⟨volumes, bases, dns, ports, monitors, _, _, rfl⟩ := exec_of_not_core hx ho
  exact hP s₁ _ (t + 1) (Nat.succ_ne_self t) hi { Evolves.refl (t + 1) s₁ with } hs₁

theorem safe_pure {a : α} (h : post a s) : (ownership D).Safe t post (pure a : Prog α) s := h

/-- An update that may fail keeps what does not depend on the sandbox table. -/
theorem exec_update_frame {e : Edit} {r : Except String Time}
    (h : exec D t s (.update id e) r = some s') :
    ∃ store admitted, s' = { s with store := store, admitted := admitted } := by
  cases r with
  | error err =>
    cases h
    exact ⟨_, _, rfl⟩
  | ok now =>
    obtain ⟨x, y, _, _, rfl⟩ := exec_update h
    exact ⟨_, _, rfl⟩

theorem safe_update {e : Edit} {g : Except String Time → Prog α}
    (hP : Robust t P) (hs : P s) (hperm : ∀ s₁, Inv s₁ → P s₁ → editPermit t s₁ id e)
    (hkeep : ∀ s₁ store admitted, P s₁ → P { s₁ with store := store, admitted := admitted })
    (h : ∀ r s₁, Inv s₁ → P s₁ → (ownership D).Safe t post (g r) s₁) :
    (ownership D).Safe t post (storeUpdate id e >>= g) s := by
  refine safe_call hP hs rfl fun s₁ r s₂ hi hs₁ hx => ?_
  have hp : permit t s₁ (.update id e) r := hperm s₁ hi hs₁
  refine ⟨hp, h r s₂ (inv_step hi hp hx) ?_⟩
  obtain ⟨store, admitted, rfl⟩ := exec_update_frame hx
  exact hkeep s₁ store admitted hs₁

theorem exec_kill_none {v : Sandbox} (h : exec D t s (.kill v) none = some s')
    (ho : Owned t v.id s) : OwnedDead t v.id s' := by
  cases h
  exact fun hn => ⟨(ho hn).1, by simp⟩

theorem exec_kill_some {v : Sandbox} {e : String} (h : exec D t s (.kill v) (some e) = some s')
    (ho : Owned t v.id s) : Owned t v.id s' := by
  cases h
  exact ho

theorem safe_kill {v : Sandbox} {g : Option String → Prog α} (hs : Owned t v.id s)
    (hfail : ∀ e s₁, Inv s₁ → Owned t v.id s₁ → (ownership D).Safe t post (g (some e)) s₁)
    (hdead : ∀ s₁, Inv s₁ → OwnedDead t v.id s₁ → (ownership D).Safe t post (g none) s₁) :
    (ownership D).Safe t post (kill v >>= g) s := by
  refine safe_call (robust_owned_self v.id) hs rfl fun s₁ r s₂ hi ho hx => ?_
  have hp : permit t s₁ (.kill v) r := fun hn => (ho hn).1
  refine ⟨hp, ?_⟩
  have hi₂ := inv_step hi hp hx
  cases r with
  | some e => exact hfail e s₂ hi₂ (exec_kill_some hx ho)
  | none => exact hdead s₂ hi₂ (exec_kill_none hx ho)

/-- The mutex pattern: a lock that may be taken, a body and a release. -/
theorem safe_locked_post {k : String} {Q : Host → Prop} {R : α → Host → Prop}
    (hP : Robust t P) (hs : P s)
    (hperm : ∀ s₁, Inv s₁ → P s₁ → s₁.booting = none ∨ s₁.booting = some t ∨ k ∈ s₁.monitored)
    (hlock : ∀ s₁, P s₁ → Q { s₁ with locks := Function.update s₁.locks k (some t) })
    (hbody : ∀ s₁, Inv s₁ → Q s₁ → (ownership D).Safe t R body s₁)
    (hR : ∀ a, Robust t (R a))
    (hunlock : ∀ a s₁, Inv s₁ → R a s₁ →
      post a { s₁ with locks := Function.update s₁.locks k none }) :
    (ownership D).Safe t post (locked k body) s := by
  refine safe_call hP hs rfl fun s₁ r s₂ hi hs₁ hx => ?_
  have hp : permit t s₁ (.lock k) r := hperm s₁ hi hs₁
  refine ⟨hp, ?_⟩
  have hi₂ := inv_step hi hp hx
  simp only [exec] at hx
  split_ifs at hx
  cases hx
  refine (hbody _ hi₂ (hlock s₁ hs₁)).bind fun a s₃ hs₃ => ?_
  refine safe_call (hR a) hs₃ rfl fun s₄ r' s₅ hi₄ hs₄ hx' => ⟨trivial, ?_⟩
  simp only [exec] at hx'
  split_ifs at hx'
  cases hx'
  exact safe_pure (hunlock a s₄ hi₄ hs₄)

theorem safe_locked {k : String} {Q : Host → Prop} (hP : Robust t P) (hs : P s)
    (hperm : ∀ s₁, Inv s₁ → P s₁ → s₁.booting = none ∨ s₁.booting = some t ∨ k ∈ s₁.monitored)
    (hlock : ∀ s₁, P s₁ → Q { s₁ with locks := Function.update s₁.locks k (some t) })
    (hbody : ∀ s₁, Inv s₁ → Q s₁ → (ownership D).Respects t body s₁) :
    (ownership D).Respects t (locked k body) s :=
  safe_locked_post hP hs hperm hlock hbody (fun _ => robust_true) fun _ _ _ _ => trivial

end rules

section operations
variable {D : Setup} {t : ℕ} {s : Host} {v : Sandbox}

def Plain {α : Type} (p : Prog α) : Prop := p.Uses fun o => o.isCore = false

theorem Queries.plain {α : Type} {p : Prog α} (h : Queries p) : Plain p := by
  refine h.mono fun o ho => ?_
  cases o <;> first | rfl | cases ho

theorem safe_of_plain {α : Type} {p : Prog α} {P : Host → Prop} (hp : Plain p) (hP : Robust t P)
    (hs : P s) : (ownership D).Safe t (fun _ s' => P s') p s := by
  induction p generalizing s with
  | pure a => exact hs
  | call o next ih => exact safe_plain hP hs hp.1 fun _ r _ _ _ hs₁ => ih r (hp.2 r) hs₁

theorem safe_conclude (exit : Exit) (autoRemove : Bool) (hs : OwnedDead t v.id s) :
    (ownership D).Respects t (conclude v exit autoRemove) s := by
  have hP : Robust t (OwnedDead t v.id) := robust_ownedDead v.id
  refine safe_plain hP hs rfl fun _ _ s₁ _ _ hs₁ => ?_
  refine (safe_of_plain (queries_removeResources v).plain hP hs₁).bind ?_
  rintro ⟨netErr, vmErr⟩ s₂ hs₂
  refine safe_update hP hs₂ (fun _ _ h => h) (fun _ _ _ h => h) fun _ s₃ _ hs₃ => ?_
  split
  · refine safe_plain hP hs₃ rfl fun _ saved s₄ _ _ hs₄ => ?_
    cases saved with
    | some e =>
      refine safe_update hP hs₄ (fun _ _ h hn => (h hn).1) (fun _ _ _ h => h)
        fun _ _ _ _ => safe_pure trivial
    | none =>
      refine safe_plain hP hs₄ rfl fun _ _ s₅ _ _ hs₅ => ?_
      refine safe_call hP hs₅ rfl fun s₆ _ s₇ _ hs₆ _ => ⟨hs₆, safe_pure trivial⟩
  · exact safe_pure trivial

theorem safe_finishLocked (exit : Exit) (hs : Owned t v.id s) :
    (ownership D).Respects t (finishLocked v exit) s := by
  have hP : Robust t (Owned t v.id) := robust_owned_self v.id
  refine safe_plain hP hs rfl fun
    | _, .error e, _, _, _, _ => safe_pure trivial
    | _, .ok current, s₁, _, _, hs₁ => ?_
  dsimp only
  split
  · exact safe_pure trivial
  · refine (safe_of_plain (queries_requestShutdown v).plain hP hs₁).bind ?_
    intro _ s₂ hs₂
    refine safe_kill hs₂ (fun e s₃ _ hs₃ => ?_) fun s₃ _ hs₃ => ?_
    · exact safe_update hP hs₃ (fun _ _ h hn => (h hn).1) (fun _ _ _ h => h)
        fun _ _ _ _ => safe_pure trivial
    · exact safe_conclude exit current.spec.autoRemove hs₃

theorem safe_finish {P : Host → Prop} (hP : Robust t P) (hs : P s) (exit : Exit)
    (hperm : ∀ s₁, P s₁ → s₁.booting = none ∨ s₁.booting = some t ∨ v.id ∈ s₁.monitored) :
    (ownership D).Respects t (finish v exit) s := by
  refine safe_locked (Q := Owned t v.id) hP hs (fun s₁ _ h => hperm s₁ h) (fun s₁ _ hn => ?_)
    fun s₁ _ hs₁ => safe_finishLocked exit hs₁
  exact ⟨Or.inl (by simp), trivial⟩

theorem safe_monitorRounds (v : Sandbox) (n failures : ℕ) (hs : Listed v.id s) :
    (ownership D).Respects t (monitorRounds v n failures) s := by
  have hP : Robust t (Listed v.id) := (lasting_listed v.id).robust
  have hperm : ∀ s₁, Listed v.id s₁ →
      s₁.booting = none ∨ s₁.booting = some t ∨ v.id ∈ s₁.monitored := fun s₁ h =>
    h.elim Or.inl fun h => Or.inr (Or.inr h)
  induction n generalizing failures s with
  | zero => exact safe_pure trivial
  | succ n ih =>
    refine safe_plain hP hs rfl fun
      | _, .error e, _, _, _, _ => safe_pure trivial
      | _, .ok current, s₁, _, _, hs₁ => ?_
    dsimp only
    split
    · exact safe_pure trivial
    · refine (safe_of_plain (queries_poll v failures).plain hP hs₁).bind fun polled s₂ hs₂ => ?_
      cases polled with
      | inr exit =>
        refine safe_plain hP hs₂ rfl fun _ _ s₃ _ _ hs₃ => ?_
        exact safe_finish hP hs₃ exit hperm
      | inl failures' =>
        dsimp only
        split
        · refine safe_plain hP hs₂ rfl fun _ now s₃ _ _ hs₃ => ?_
          exact safe_finish hP hs₃ (controlLost now) hperm
        · exact ih failures' hs₂

theorem safe_monitorLoop (v : Sandbox) (hs : Listed v.id s) :
    (ownership D).Respects t (monitorLoop v) s := by
  have hP : Robust t (Listed v.id) := (lasting_listed v.id).robust
  refine safe_plain hP hs rfl fun _ n s₁ _ _ hs₁ => ?_
  refine (safe_monitorRounds v n 0 hs₁).bind fun _ s₂ _ => ?_
  exact safe_plain robust_true trivial rfl fun _ _ _ _ _ _ => safe_pure trivial

theorem safe_stop (id : String) (seconds : ℤ) (hs : Serving s) :
    (ownership D).Respects t (stop id seconds) s := by
  have hP : Robust t Serving := lasting_serving.robust
  have hwait : ∀ (v : Sandbox) (s₁ : Host), (ownership D).Respects t (awaitStop v) s₁ :=
    fun v _ => safe_of_plain (queries_awaitStop v).plain robust_true trivial
  unfold stop
  refine safe_plain hP hs rfl fun _ got s₁ _ _ hs₁ => ?_
  cases got with
  | error e => exact safe_pure trivial
  | ok v =>
    dsimp only
    split
    · exact safe_pure trivial
    split
    · exact safe_pure trivial
    refine safe_update hP hs₁ (fun _ _ _ => trivial) (fun _ _ _ h => h) fun _ s₂ _ hs₂ => ?_
    refine (safe_of_plain (queries_requestStop v seconds).plain hP hs₂).bind fun answer s₃ hs₃ => ?_
    split
    · refine safe_plain hP hs₃ rfl fun _ now s₄ _ _ hs₄ => ?_
      refine (safe_finish hP hs₄ (forcedStop now) fun _ h => Or.inl h).bind fun _ s₅ _ => ?_
      exact hwait v s₅
    · exact hwait v s₃

theorem exec_get {id : String} {s' : Host} (h : exec D t s (.get id) (.ok v) = some s') :
    s' = s ∧ s.store.get id = .ok v := by
  simp only [exec] at h
  split_ifs at h with hg
  exact ⟨(Option.some.inj h).symm, hg⟩

theorem exec_list {all : List Sandbox} {s' : Host} (h : exec D t s .list (.ok all) = some s') :
    s' = s ∧ all = s.store.list := by
  simp only [exec] at h
  split_ifs at h with hg
  exact ⟨(Option.some.inj h).symm, hg⟩

theorem Inv.known_of_mem (hi : Inv s) (hv : v ∈ s.store.sandboxes) :
    Known v s ∧ s.store.row v.id = some v := by
  have hrow := hi.keyed.row_of_mem hv
  refine ⟨⟨hi.recorded v hv, fun w hw => ?_⟩, hrow⟩
  obtain rfl : v = w := Option.some.inj (hrow.symm.trans hw)
  exact ⟨rfl, rfl, rfl⟩

theorem eq_of_hasPrefix_of_isID {a b : String} (ha : isID a = true) (hb : isID b = true)
    (h : hasPrefix a b = true) : a = b := by
  have hpre : b.toList <+: a.toList := List.isPrefixOf_iff_prefix.1 h
  have hla : a.toList.length = 32 := by
    simp only [isID, Bool.and_eq_true, decide_eq_true_eq] at ha
    exact ha.1
  have hlb : b.toList.length = 32 := by
    simp only [isID, Bool.and_eq_true, decide_eq_true_eq] at hb
    exact hb.1
  exact String.toList_injective (hpre.eq_of_length (hlb.trans hla.symm)).symm

/-- Without aliases, reading a record by its identifier returns no other record. -/
theorem Inv.get_id (hi : Inv s) (hn : s.NoAlias) {id name : String} (hid : (id, name) ∈ s.created)
    (h : s.store.get id = .ok v) : v.id = id := by
  obtain ⟨hmem, hm⟩ := Store.get_eq_ok h
  have hrec := hi.recorded v hmem
  rcases hm with hm | hm | hm
  · exact hm
  · exact hn _ hrec _ hid hm
  · exact eq_of_hasPrefix_of_isID (hi.ids _ hrec) (hi.ids _ hid) hm

theorem safe_startFail (err : String) (hs : Owned t v.id s) :
    (ownership D).Respects t (startFail v err) s := by
  have hP : Robust t (OwnedDead t v.id) := robust_ownedDead v.id
  refine safe_kill hs (fun e s₁ _ hs₁ => ?_) fun s₁ _ hs₁ => ?_
  · refine safe_update (robust_owned_self v.id) hs₁ (fun _ _ h hn => ⟨(h hn).1, fun hr => ?_⟩)
      (fun _ _ _ h => h) fun _ _ _ _ => safe_pure trivial
    cases hr
  · refine safe_plain hP hs₁ rfl fun _ _ s₂ _ _ hs₂ => ?_
    refine (safe_of_plain (queries_removeResources v).plain hP hs₂).bind ?_
    rintro ⟨netErr, vmErr⟩ s₃ hs₃
    exact safe_update hP hs₃ (fun _ _ h hn => ⟨(h hn).1, fun _ => (h hn).2⟩) (fun _ _ _ h => h)
      fun _ _ _ _ => safe_pure trivial

/-- Starting a monitor hands the sandbox over. -/
theorem safe_monitor {P : Host → Prop} {post : Unit → Host → Prop} (hP : Robust t P) (hs : P s)
    (hperm : ∀ s₁, P s₁ → s₁.booting = none ∨ s₁.booting = some t)
    (hleft : ∀ s₁, P s₁ → post () s₁)
    (hgone : ∀ s₁, P s₁ → post () { s₁ with monitored := v.id :: s₁.monitored }) :
    (ownership D).Safe t post (monitor v) s := by
  refine safe_plain hP hs rfl fun
    | _, false, s₁, _, _, hs₁ => safe_pure (hleft s₁ hs₁)
    | _, true, s₁, _, _, hs₁ => ?_
  refine Discipline.Safe.step hP.stable hs₁ fun s₂ _ hs₂ r s₃ hx => ?_
  cases hx
  refine ⟨hperm s₂ hs₂, fun j hj u => ?_, hgone s₂ hs₂⟩
  cases hj
  exact Or.inr (List.mem_cons_self ..)

theorem safe_launch (b : Base.Bundle) (hs : OwnedAdmitted t v.id s ∧ Serving s) :
    (ownership D).Respects t (launch v b) s := by
  have hP : Robust t fun s => Owned t v.id s ∧ Serving s :=
    (robust_owned_self v.id).and lasting_serving.robust
  refine safe_call ((robust_ownedAdmitted v.id).and lasting_serving.robust) hs rfl
    fun s₁ r s₂ _ hs₁ hx => ⟨hs₁.1, ?_⟩
  cases hx
  obtain ⟨pid, pidStart, err⟩ := r
  have hs₂ : Owned t v.id { s₁ with live := Function.update s₁.live v.id true } ∧
      Serving { s₁ with live := Function.update s₁.live v.id true } :=
    ⟨fun hn => ⟨(hs₁.1 hn).1, trivial⟩, hs₁.2⟩
  cases err with
  | some e => exact safe_startFail e hs₂.1
  | none => ?_
  refine safe_update hP hs₂ (fun _ _ h hn => (h.1 hn).1) (fun _ _ _ h => h)
    fun
      | .error e, _, _, hs₃ => safe_startFail e hs₃.1
      | .ok now, s₃, _, hs₃ => ?_
  refine safe_plain hP hs₃ rfl fun
    | _, some e, _, _, _, hs₄ => safe_startFail e hs₄.1
    | _, none, s₄, _, _, hs₄ => ?_
  refine safe_plain hP hs₄ rfl fun
    | _, some e, _, _, _, hs₅ => safe_startFail e hs₅.1
    | _, none, s₅, _, _, hs₅ => ?_
  refine safe_update hP hs₅ (fun _ _ h hn => (h.1 hn).1) (fun _ _ _ h => h)
    fun
      | .error e, _, _, hs₆ => safe_startFail e hs₆.1
      | .ok now', s₆, _, hs₆ => ?_
  have hmonitor : ∀ w : Sandbox,
      (ownership D).Respects t (monitor w) s₆ := fun w =>
    safe_monitor lasting_serving.robust hs₆.2 (fun _ h => Or.inl h)
      (fun _ _ => trivial) fun _ _ => trivial
  exact (hmonitor _).bind
    fun _ s₇ _ => safe_pure trivial

theorem safe_boot (b : Base.Bundle) (hs : OwnedAdmitted t v.id s ∧ Serving s) :
    (ownership D).Respects t (boot v b) s := by
  have hP : Robust t fun s => OwnedAdmitted t v.id s ∧ Serving s :=
    (robust_ownedAdmitted v.id).and lasting_serving.robust
  have hfail : ∀ (e : String) (s₁ : Host), OwnedAdmitted t v.id s₁ ∧ Serving s₁ →
      (ownership D).Respects t (startFail v e) s₁ := fun e s₁ h =>
    safe_startFail e fun hn => ⟨(h.1 hn).1, trivial⟩
  refine safe_plain hP hs rfl fun
    | _, some e, s₁, _, _, hs₁ => hfail e s₁ hs₁
    | _, none, s₁, _, _, hs₁ => ?_
  refine safe_plain hP hs₁ rfl fun
    | _, some e, s₂, _, _, hs₂ => hfail e s₂ hs₂
    | _, none, s₂, _, _, hs₂ => ?_
  dsimp only
  split
  · exact safe_plain hP hs₂ rfl fun
      | _, some e, s₃, _, _, hs₃ => hfail e s₃ hs₃
      | _, none, _, _, _, hs₃ => safe_launch b hs₃
  · exact safe_launch b hs₂

/-- The scan of the admission check finds every reserving sandbox with a common volume. -/
theorem volumeConflict_eq_none {all : List Sandbox} (h : volumeConflict v all = none) :
    ∀ x ∈ all, x.id ≠ v.id → reservesVMResources x = true → sharesVolume v x = false := by
  induction all with
  | nil => simp
  | cons y rest ih =>
    intro x hx hne hres
    simp only [volumeConflict] at h
    split_ifs at h with hskip
    · rcases List.mem_cons.1 hx with rfl | hx
      · rcases hskip with hskip | hskip
        · exact absurd hskip hne
        · simp [hres] at hskip
      · exact ih h x hx hne hres
    · split at h
      · cases h
      · rename_i hnone
        rcases List.mem_cons.1 hx with rfl | hx
        · rw [List.find?_eq_none] at hnone
          simpa [sharesVolume] using hnone
        · exact ih h x hx hne hres

/-- While a thread allocates, no other sandbox is admitted. -/
theorem robust_exclusive (v : Sandbox) : Robust t fun s => Holds t allocations s ∧ Exclusive v s := by
  intro s s' u hu hi he hs
  have hother := hs.1.ne hu
  refine ⟨robust_holds allocations s s' u hu hi he hs.1, fun x hx ha hne => ?_⟩
  have ha' : s.admitted x.id = true := (he.admits x.id ha).resolve_right hother
  rcases he.rows x.id x hx with ⟨w, hw, hk, _⟩ | ⟨halloc, _⟩
  · have hwid : w.id = x.id := hk.1.symm
    rw [sharesVolume_comm, hk.sharesVolume, sharesVolume_comm]
    refine hs.2 w (by rwa [hwid]) (by rwa [hwid]) ?_
    rw [hwid]
    exact hne
  · exact absurd halloc hother

theorem Inv.exclusive_of_list (hi : Inv s) (h : volumeConflict v s.store.list = none) :
    Exclusive v s := by
  intro x hx ha hne
  obtain ⟨w, hw, hres, _⟩ := hi.admitted x.id ha
  obtain rfl : x = w := Option.some.inj (hx.symm.trans hw)
  exact volumeConflict_eq_none h x (Store.mem_list.2 (Store.row_eq_some hx).1) hne hres

/-- What the admission check hands to the rest of `Start`. -/
def Admitted (t : ℕ) (r : Except String Sandbox) (s : Host) : Prop :=
  match r with
  | .error _ => True
  | .ok w => OwnedAdmitted t w.id s ∧ Known w s

theorem robust_admitted (r : Except String Sandbox) : Robust t (Admitted t r) := by
  cases r with
  | error e => exact robust_true
  | ok w => exact (robust_ownedAdmitted w.id).and (lasting_known w).robust

theorem known_startingRecord (h : Known v s) : Known (startingRecord v) s := h

theorem safe_commitStart (hs : (OwnedGeneration t v.id v.generation s ∧ Known v s) ∧
      Holds t allocations s ∧ Exclusive v s) :
    (ownership D).Safe t (Admitted t) (do
      match ← storeUpdate (startingRecord v).id (.startCommit (startingRecord v)) with
      | .error e => return .error e
      | .ok _ => return .ok (startingRecord v)) s := by
  refine safe_call (((robust_ownedGeneration v.id v.generation).and (lasting_known v).robust).and
    (robust_exclusive v)) hs rfl fun s₁ r s₂ hi hs₁ hx => ?_
  obtain ⟨⟨hgen, hknown⟩, halloc, hexcl⟩ := hs₁
  have hp : editPermit t s₁ v.id (.startCommit (startingRecord v)) :=
    ⟨halloc, rfl, rfl, Nat.succ_pos _, fun w hw => ⟨(hknown.2 w hw).1.symm,
      (hknown.2 w hw).2.1.symm, (hknown.2 w hw).2.2.symm⟩, hexcl,
      fun hn => ⟨(hgen hn).1, (hgen hn).2.2⟩⟩
  refine ⟨hp, ?_⟩
  cases r with
  | error e => exact (trivial : Admitted t (.error e) s₂)
  | ok now => ?_
  obtain ⟨x, y, hed, _⟩ := edited hp hx
  refine (⟨fun hn => ⟨?_, ?_⟩, ?_⟩ : Admitted t (.ok (startingRecord v)) s₂)
  · have hn₁ : s₁.NoAlias := (hed.evolves hi hp).noAlias hn
    have hfr := hed.frame
    have ho := (hgen hn₁).1
    rw [hfr]
    exact ho
  · have hy := Edit.apply_whole hed.applied rfl
    change s₂.admitted v.id = true
    rw [hed.admitted_self, hy]
    simp [Host.isAdmission, reservesVMResources, startingRecord]
  · exact known_startingRecord (lasting_known v s₁ s₂ t hi (hed.evolves hi hp) hknown)

theorem safe_admission (hs : (OwnedGeneration t v.id v.generation s ∧ Known v s) ∧
      Holds t allocations s) : (ownership D).Safe t (Admitted t) (admission v) s := by
  have hP : Robust t fun s => (OwnedGeneration t v.id v.generation s ∧ Known v s) ∧
      Holds t allocations s :=
    ((robust_ownedGeneration v.id v.generation).and (lasting_known v).robust).and
      (robust_holds allocations)
  have herr : ∀ (e : String) (s₁ : Host), (ownership D).Safe t (Admitted t)
      (pure (.error e) : Prog (Except String Sandbox)) s₁ := fun e s₁ => safe_pure trivial
  refine safe_plain hP hs rfl fun
    | _, .error e, s₂, _, _, _ => herr e s₂
    | s₁, .ok all, s₂, hx, hi, hs₂ => ?_
  obtain ⟨rfl, rfl⟩ := exec_list hx
  cases hc : volumeConflict v s₂.store.list with
  | some e =>
    simp only [hc]
    exact herr e s₂
  | none =>
    simp only [hc]
    have hexcl := hi.exclusive_of_list hc
    refine safe_plain (((robust_ownedGeneration v.id v.generation).and
      (lasting_known v).robust).and (robust_exclusive v)) ⟨hs₂.1, hs₂.2, hexcl⟩ rfl
      fun
        | _, .error e, s₃, _, _, _ => herr e s₃
        | _, .ok available, s₃, _, _, hs₃ => ?_
    dsimp only
    split
    · exact herr _ s₃
    · exact safe_commitStart hs₃

theorem lasting_created (id : String) : Lasting fun s => ∃ name, (id, name) ∈ s.created := by
  rintro s s' u _ he ⟨name, hname⟩
  exact ⟨name, he.created _ hname⟩

theorem safe_startLocked (id : String) (hs : Holds t id s ∧ Serving s ∧
      ∃ name, (id, name) ∈ s.created) :
    (ownership D).Respects t (startLocked id) s := by
  refine safe_plain ((robust_holds id).and (lasting_serving.robust.and (lasting_created id).robust)) hs rfl
    fun
      | _, .error e, _, _, _, _ => safe_pure trivial
      | s₁, .ok v, s₂, hx, hi, hs₂ => ?_
  obtain ⟨rfl, hget⟩ := exec_get hx
  obtain ⟨hholds, hserving, name, hname⟩ := hs₂
  obtain ⟨hknown, hrow⟩ := hi.known_of_mem (Store.get_eq_ok hget).1
  have hgen : OwnedGeneration t v.id v.generation s₂ := by
    intro hn
    rw [hi.get_id hn hname hget] at hrow ⊢
    refine ⟨Or.inl hholds, ⟨_, hname, rfl⟩, fun w hw => ?_⟩
    rw [Option.some.inj (hw.symm.trans hrow)]
  have hP : Robust t fun s => (OwnedGeneration t v.id v.generation s ∧ Known v s) ∧
      Serving s := ((robust_ownedGeneration v.id v.generation).and
    (lasting_known v).robust).and lasting_serving.robust
  dsimp only
  split
  · exact safe_pure trivial
  refine safe_plain hP ⟨⟨hgen, hknown⟩, hserving⟩ rfl fun
    | _, some e, _, _, _, _ => safe_pure trivial
    | _, none, s₃, _, _, hs₃ => ?_
  refine safe_plain hP hs₃ rfl fun
    | _, .error e, _, _, _, _ => safe_pure trivial
    | _, .ok b, s₄, _, _, hs₄ => ?_
  have hadmission : (ownership D).Safe t (Admitted t)
      (locked allocations (admission v)) s₄ := by
    refine safe_locked_post (Q := fun s => (OwnedGeneration t v.id v.generation s ∧
      Known v s) ∧ Holds t allocations s) hP hs₄ (fun _ _ h => Or.inl h.2) ?_
      (fun s₅ _ hs₅ => safe_admission hs₅) robust_admitted ?_
    · rintro s₅ ⟨⟨hg, hk⟩, _⟩
      exact ⟨⟨fun hn => ⟨(hg hn).1.lock allocations, (hg hn).2⟩, hk⟩, by simp [Holds]⟩
    · intro a s₅ hi₅ ha
      cases a with
      | error e => trivial
      | ok w =>
        obtain ⟨hadm, hkw⟩ := ha
        exact ⟨fun hn => ⟨(hadm hn).1.unlock (hi₅.ne_allocations hkw.1),
          (hadm hn).2⟩, hkw⟩
  refine (hadmission.persist lasting_serving.persistent hs₄.2).bind ?_
  rintro a s₅ ⟨ha, hserv⟩
  cases a with
  | error e => exact safe_pure trivial
  | ok w => exact safe_boot b ⟨ha.1, hserv⟩

/-- An operation on a record that has been read goes on under the record's own mutex. -/
theorem safe_entered {α : Type} {body : Prog α} (hi : Inv s) (hv : v ∈ s.store.sandboxes)
    (hs : Serving s) (hbody : ∀ s₁, (Holds t v.id s₁ ∧ Serving s₁ ∧
      ∃ name, (v.id, name) ∈ s₁.created) → (ownership D).Respects t body s₁) :
    (ownership D).Respects t (locked v.id body) s :=
  safe_locked (lasting_serving.robust.and (lasting_known v).robust) ⟨hs, (hi.known_of_mem hv).1⟩
    (fun _ _ h => Or.inl h.1) (fun _ h => ⟨by simp [Holds], h.1, _, h.2.1⟩) fun s₁ _ => hbody s₁

theorem safe_start (id : String) (hs : Serving s) : (ownership D).Respects t (start id) s := by
  refine safe_plain lasting_serving.robust hs rfl fun
    | _, .error e, _, _, _, _ => safe_pure trivial
    | s₁, .ok v, s₂, hx, hi, hs₂ => ?_
  obtain ⟨rfl, hget⟩ := exec_get hx
  exact safe_entered hi (Store.get_eq_ok hget).1 hs₂ fun _ => safe_startLocked v.id

theorem safe_removeLocked (id : String) (force : Bool) (hs : Holds t id s ∧
      ∃ name, (id, name) ∈ s.created) :
    (ownership D).Respects t (removeLocked id force) s := by
  refine safe_plain ((robust_holds id).and (lasting_created id).robust) hs rfl fun
    | _, .error e, _, _, _, _ => safe_pure trivial
    | s₁, .ok v, s₂, hx, hi, hs₂ => ?_
  obtain ⟨rfl, hget⟩ := exec_get hx
  obtain ⟨hholds, name, hname⟩ := hs₂
  have howned : Owned t v.id s₂ := by
    intro hn
    rw [hi.get_id hn hname hget]
    exact ⟨Or.inl hholds, trivial⟩
  have hP : Robust t (OwnedDead t v.id) := robust_ownedDead v.id
  dsimp only
  split
  · exact safe_pure trivial
  refine safe_kill howned (fun e _ _ _ => safe_pure trivial) fun s₃ _ hs₃ => ?_
  refine safe_plain hP hs₃ rfl fun _ _ s₄ _ _ hs₄ => ?_
  refine safe_plain hP hs₄ rfl fun
    | _, some e, _, _, _, _ => safe_pure trivial
    | _, none, s₅, _, _, hs₅ => ?_
  refine safe_plain hP hs₅ rfl fun
    | _, some e, _, _, _, _ => safe_pure trivial
    | _, none, s₆, _, _, hs₆ => ?_
  refine safe_update hP hs₆ (fun _ _ h => h) (fun _ _ _ h => h)
    fun _ s₇ _ hs₇ => ?_
  refine safe_plain hP hs₇ rfl fun _ rmErr s₈ _ _ hs₈ => ?_
  cases rmErr with
  | some e => exact safe_pure trivial
  | none => exact safe_call (f := pure) hP hs₈ rfl fun s₉ _ _ _ hs₉ _ =>
    ⟨hs₉, safe_pure trivial⟩

theorem safe_remove (id : String) (force : Bool) (hs : Serving s) :
    (ownership D).Respects t (remove id force) s := by
  refine safe_plain lasting_serving.robust hs rfl fun
    | _, .error e, _, _, _, _ => safe_pure trivial
    | s₁, .ok v, s₂, hx, hi, hs₂ => ?_
  obtain ⟨rfl, hget⟩ := exec_get hx
  exact safe_entered hi (Store.get_eq_ok hget).1 hs₂
    fun _ h => safe_removeLocked v.id force ⟨h.1, h.2.2⟩

/-- While a thread allocates, an unused identifier stays unused. -/
theorem robust_unused (id : String) :
    Robust t fun s => Holds t allocations s ∧ ∀ a ∈ s.created, a.1 ≠ id := by
  intro s s' u hu hi he hs
  have hother := hs.1.ne hu
  refine ⟨robust_holds allocations s s' u hu hi he hs.1, ?_⟩
  rw [he.fresh hother]
  exact hs.2

/-- A record under creation: its thread allocates and it has never been started. -/
def Creating (t : ℕ) (v : Sandbox) (s : Host) : Prop :=
  Holds t allocations s ∧ Known v s ∧ IsGeneration v.id 0 s

theorem robust_creating (v : Sandbox) : Robust t (Creating t v) := by
  rintro s s' u hu hi he ⟨halloc, hknown, hgen⟩
  have hother := halloc.ne hu
  refine ⟨robust_holds allocations s s' u hu hi he halloc, lasting_known v s s' u hi he hknown,
    fun w hw => ?_⟩
  rcases he.rows v.id w hw with ⟨x, hx, _, hsame | ⟨hu', _⟩⟩ | ⟨hu', _⟩
  · rw [hsame]
    exact hgen x hx
  · exact absurd hu' hother
  · exact absurd hu' hother

def Prepared (t : ℕ) (v : Sandbox) (r : Except String Sandbox) (s : Host) : Prop :=
  Creating t v s ∧ ∀ w, r = .ok w → SameKeys v w ∧ w.generation = v.generation

theorem safe_prepare (hs : Creating t v s) : (ownership D).Safe t (Prepared t v) (prepare v) s := by
  have hP : Robust t (Creating t v) := robust_creating v
  have herr : ∀ (e : String) (s₁ : Host), Creating t v s₁ → (ownership D).Safe t (Prepared t v)
      (pure (.error e) : Prog (Except String Sandbox)) s₁ := by
    intro e s₁ h
    refine safe_pure ⟨h, fun w hw => ?_⟩
    cases hw
  refine safe_plain hP hs rfl fun
    | _, some e, s₁, _, _, hs₁ => herr e s₁ hs₁
    | _, none, s₁, _, _, hs₁ => ?_
  refine safe_plain hP hs₁ rfl fun
    | _, .error e, s₂, _, _, hs₂ => herr e s₂ hs₂
    | _, .ok img, s₂, _, _, hs₂ => ?_
  refine safe_plain hP hs₂ rfl fun _ pulled s₃ _ _ hs₃ => ?_
  obtain ⟨base, fetched, writes⟩ := pulled
  cases base with
  | error e => exact herr e s₃ hs₃
  | ok b => ?_
  dsimp only
  split
  · exact herr _ s₃ hs₃
  · refine safe_plain hP hs₃ rfl fun
      | _, some e, s₄, _, _, hs₄ => herr e s₄ hs₄
      | _, none, s₄, _, _, hs₄ => ?_
    refine safe_plain hP hs₄ rfl fun
      | _, some e, s₅, _, _, hs₅ => herr e s₅ hs₅
      | _, none, s₅, _, _, hs₅ => ?_
    refine safe_plain hP hs₅ rfl fun
      | _, some e, s₆, _, _, hs₆ => herr e s₆ hs₆
      | _, none, s₆, _, _, hs₆ => ?_
    refine safe_plain hP hs₆ rfl fun
      | _, some e, s₇, _, _, hs₇ => herr e s₇ hs₇
      | _, none, s₇, _, _, hs₇ => ?_
    refine safe_pure ⟨hs₇, fun w hw => ?_⟩
    cases hw
    exact ⟨⟨rfl, rfl, rfl⟩, rfl⟩

theorem safe_createFail (e : String) (hs : Creating t v s) :
    (ownership D).Respects t (createFail v.id e) s := by
  have hP : Robust t (Creating t v) := robust_creating v
  refine safe_plain hP hs rfl fun _ _ s₁ _ _ hs₁ => ?_
  exact safe_call hP hs₁ rfl fun s₂ _ _ _ hs₂ _ =>
    ⟨⟨hs₂.1, hs₂.2.2⟩, safe_pure trivial⟩

theorem safe_completeCreate (hs : Creating t v s) (hv : v.generation = 0) :
    (ownership D).Respects t (completeCreate v) s := by
  refine (safe_prepare hs).bind fun
    | .error e, _, hs₁ => safe_createFail e hs₁.1
    | .ok w, s₁, hs₁ => ?_
  obtain ⟨hkeys, hgen⟩ := hs₁.2 w rfl
  refine safe_call (robust_creating v) hs₁.1 rfl fun s₂ r s₃ _ hs₂ hx => ?_
  have hp : editPermit t s₂ v.id (.createCommit { w with state := .created }) := by
    refine ⟨hs₂.1, hs₂.2.2, hkeys.1, rfl, hgen.trans hv, fun x hx => ?_⟩
    obtain ⟨hid, hname, hspec⟩ := hs₂.2.1.2 x hx
    exact ⟨hkeys.1.trans hid.symm, hkeys.2.1.trans hname.symm, hkeys.2.2.trans hspec.symm⟩
  refine ⟨hp, ?_⟩
  cases r with
  | error e =>
    cases hx
    exact safe_createFail e hs₂
  | ok now => exact safe_pure trivial

theorem safe_createLocked (spec : Spec) (hs : Holds t allocations s) :
    (ownership D).Respects t (createLocked spec) s := by
  have hP : Robust t (Holds t allocations) := robust_holds allocations
  refine safe_plain hP hs rfl fun
    | _, .error e, _, _, _, _ => safe_pure trivial
    | _, .ok all, s₁, _, _, hs₁ => ?_
  dsimp only
  split
  · exact safe_pure trivial
  refine (safe_of_plain (queries_checkVolumes spec.mounts).plain hP hs₁).bind fun
      | .error e, _, _ => safe_pure trivial
      | .ok _, s₂, hs₂ => ?_
  dsimp only
  split
  · exact safe_pure trivial
  refine safe_plain hP hs₂ rfl fun s₃ id s₄ hx _ hs₄ => ?_
  simp only [exec] at hx
  split_ifs at hx with hid
  cases hx
  refine safe_plain (robust_unused id) ⟨hs₄, hid.2⟩ rfl fun _ now s₅ _ _ hs₅ => ?_
  generalize hv : newRecord spec id _ now = v
  have hvid : v.id = id := by
    rw [← hv]
    rfl
  refine safe_call (robust_unused id) hs₅ rfl fun s₆ r s₇ hi hs₆ hx => ?_
  have hp : permit t s₆ (.insert v) r := by
    refine ⟨hs₆.1, by rw [hvid]; exact hid.1, by rw [hvid]; exact hs₆.2, ?_⟩
    rw [← hv]
    exact ⟨rfl, rfl, rfl⟩
  refine ⟨hp, ?_⟩
  have hi₇ := inv_step hi hp hx
  cases r with
  | some e => exact safe_pure trivial
  | none => ?_
  obtain ⟨st, hst, rfl⟩ := exec_insert hx
  have hmem : v ∈ (s₆.insert v st).store.sandboxes := by
    rw [(Store.create_eq_ok hst).2]
    exact List.mem_cons_self ..
  obtain ⟨hknown, hrow⟩ := hi₇.known_of_mem hmem
  have hzero : v.generation = 0 := by
    rw [← hv]
    rfl
  have hcreating : Creating t v (s₆.insert v st) := by
    refine ⟨hs₆.1, hknown, fun w hw => ?_⟩
    rw [← Option.some.inj (hrow.symm.trans hw)]
    exact hzero
  subst hvid
  exact safe_completeCreate hcreating hzero

theorem safe_create (spec : Spec) (hs : Serving s) : (ownership D).Respects t (create D spec) s := by
  unfold create
  split
  · exact safe_pure trivial
  · dsimp only
    split
    · exact safe_pure trivial
    · refine safe_locked lasting_serving.robust hs (fun _ _ h => Or.inl h) (fun s₁ _ => ?_)
        fun s₁ _ hs₁ => safe_createLocked _ hs₁
      simp [Holds]

def Op.isCalm : Op → Bool
  | .goMonitor _ | .serve => false
  | _ => true

theorem exec_calm {o : Op} {r : o.Reply} {s' : Host} (ho : o.isCalm = true)
    (h : exec D t s o r = some s') : s'.booting = s.booting ∧ s'.monitored = s.monitored := by
  cases effect_of_exec h with
  | handed | served => cases ho
  | _ => exact ⟨rfl, rfl⟩

theorem Cleans.calm {α : Type} {p : Prog α} (h : Cleans p) : p.Uses fun o => o.isCalm = true := by
  refine h.mono fun o ho => ?_
  cases o with
  | goMonitor | serve => cases ho
  | _ => rfl

/-- The recovering thread still has to treat the given sandboxes. -/
def Recovering (t : ℕ) (rest : List Sandbox) (s : Host) : Prop :=
  s.booting = some t ∧ ∀ v ∈ rest, v.id ∉ s.monitored

/-- While a thread recovers, no other hands a sandbox over. -/
theorem Evolves.unhanded {u : ℕ} {s' : Host} {id : String} (he : Evolves u s s') (hu : u ≠ t)
    (hb : s.booting = some t) (hm : id ∉ s.monitored) : id ∉ s'.monitored := by
  intro hmem
  rcases he.handed id hmem with h | h | h
  · exact hm h
  · rw [hb] at h
    cases h
  · exact hu (Option.some.inj (h.symm.trans hb))

theorem robust_recovering (rest : List Sandbox) : Robust t (Recovering t rest) :=
  fun _ _ _ hu _ he h => ⟨he.boots t (Ne.symm hu) h.1, fun v hv => he.unhanded hu h.1 (h.2 v hv)⟩

variable {rest : List Sandbox}

theorem Recovering.owned (h : Recovering t rest s) (hv : v ∈ rest) : Owned t v.id s := fun _ => ⟨Or.inr ⟨h.1, h.2 v hv⟩, trivial⟩

theorem safe_recovering {α : Type} {p : Prog α} (hclean : Cleans p)
    (hs : Recovering t rest s) (h : (ownership D).Respects t p s) :
    (ownership D).Safe t (fun _ s' => Recovering t rest s') p s := by
  refine (h.frame
    (robust_recovering rest).stable hclean.calm ?_ hs).weaken fun _ _ h => h.2
  intro o r s₁ s₂ ho _ _ hx h₁
  obtain ⟨hb, hm⟩ := exec_calm ho hx
  unfold Recovering
  rw [hb, hm]
  exact h₁

theorem safe_interrupt (hs : Owned t v.id s) : (ownership D).Respects t (interrupt v) s := by
  have hP : Robust t (OwnedDead t v.id) := robust_ownedDead v.id
  refine safe_kill hs (fun e s₁ _ hs₁ => ?_) fun s₁ _ hs₁ => ?_
  · refine safe_update (robust_owned_self v.id) hs₁ (fun _ _ h hn => ⟨(h hn).1, fun hr => ?_⟩)
      (fun _ _ _ h => h) fun _ _ _ _ => safe_pure trivial
    cases hr
  · refine (safe_of_plain (queries_removeResources v).plain hP hs₁).bind ?_
    rintro ⟨netErr, vmErr⟩ s₂ hs₂
    exact safe_update hP hs₂ (fun _ _ h hn => ⟨(h hn).1, fun _ => (h hn).2⟩) (fun _ _ _ h => h)
      fun _ _ _ _ => safe_pure trivial

theorem safe_retryCleanup (hs : Owned t v.id s) : (ownership D).Respects t (retryCleanup v) s := by
  have hP : Robust t (OwnedDead t v.id) := robust_ownedDead v.id
  refine safe_kill hs (fun e s₁ _ hs₁ => safe_pure trivial) fun s₁ _ hs₁ => ?_
  refine safe_plain hP hs₁ rfl fun _ _ s₂ _ _ hs₂ => ?_
  refine (safe_of_plain (queries_removeResources v).plain hP hs₂).bind ?_
  rintro ⟨netErr, vmErr⟩ s₃ hs₃
  dsimp only
  split
  · exact safe_update hP hs₃ (fun _ _ h => h) (fun _ _ _ h => h)
      fun _ _ _ _ => safe_pure trivial
  · exact safe_pure trivial

theorem safe_adopt (hs : Recovering t rest s) (hnew : ∀ w ∈ rest, w.id ≠ v.id) :
    (ownership D).Safe t (fun _ s' => Recovering t rest s') (adopt v) s := by
  have hP : Robust t (Recovering t rest) := robust_recovering rest
  have hmonitor : ∀ s₁, Recovering t rest s₁ → (ownership D).Safe t
      (fun _ s' => Recovering t rest s') (do monitor v; return none : Prog (Option String)) s₁ := by
    intro s₁ hs₁
    refine (safe_monitor hP hs₁ (fun _ h => Or.inr h.1)
      (fun _ h => h) fun s₂ h => ⟨h.1, fun w hw => ?_⟩).bind fun _ s₂ hs₂ => safe_pure hs₂
    rw [List.mem_cons, not_or]
    exact ⟨hnew w hw, h.2 w hw⟩
  refine safe_plain hP hs rfl fun
    | _, some e, _, _, _, hs₁ => safe_pure hs₁
    | _, none, s₁, _, _, hs₁ => ?_
  dsimp only
  split
  · exact safe_plain hP hs₁ rfl fun
      | _, some e, _, _, _, hs₂ => safe_pure hs₂
      | _, none, s₂, _, _, hs₂ => hmonitor s₂ hs₂
  · exact hmonitor s₁ hs₁

theorem Recovering.tail (h : Recovering t (v :: rest) s) : Recovering t rest s := ⟨h.1, fun w hw => h.2 w (List.mem_cons_of_mem _ hw)⟩

theorem safe_recoverOne (hs : Recovering t (v :: rest) s) (hnew : ∀ w ∈ rest, w.id ≠ v.id) :
    (ownership D).Safe t (fun _ s' => Recovering t rest s') (recoverOne v) s := by
  have hP : Robust t (Recovering t (v :: rest)) := robust_recovering (v :: rest)
  have howned : Owned t v.id s := hs.owned (List.mem_cons_self ..)
  have hdone : ∀ s₁, Recovering t rest s₁ → (ownership D).Safe t
      (fun _ s' => Recovering t rest s') (pure none : Prog (Option String)) s₁ :=
    fun _ h => safe_pure h
  have hresume : ∀ s₁, Recovering t (v :: rest) s₁ → (ownership D).Safe t
      (fun _ s' => Recovering t rest s') (resumeOne v) s₁ := by
    intro s₁ hs₁
    refine safe_plain hP hs₁ rfl fun
      | _, true, _, _, _, hs₂ => safe_adopt hs₂.tail hnew
      | _, false, s₂, _, _, hs₂ => ?_
    refine safe_plain hP hs₂ rfl fun _ now s₃ _ _ hs₃ => ?_
    refine (safe_recovering (settles_finish v _).cleans hs₃.tail
      (safe_finish hP hs₃ _ fun _ h => Or.inr (Or.inl h.1))).bind fun _ s₄ hs₄ => hdone s₄ hs₄
  have hinterrupt : (ownership D).Safe t (fun _ s' => Recovering t rest s') (do
        interrupt v
        return none : Prog (Option String)) s :=
    (safe_recovering (settles_interrupt v).cleans hs.tail
      (safe_interrupt howned)).bind fun _ s₁ hs₁ => hdone s₁ hs₁
  unfold recoverOne
  split
  · exact hresume s hs
  · exact hresume s hs
  · exact hinterrupt
  · exact hinterrupt
  · exact hinterrupt
  · split
    · exact hdone s hs.tail
    · exact (safe_recovering (settles_retryCleanup v).cleans hs.tail
        (safe_retryCleanup howned)).bind fun _ s₁ hs₁ => hdone s₁ hs₁
  · exact hdone s hs.tail
  · exact hdone s hs.tail

theorem safe_recoverAll (all : List Sandbox) (hids : (all.map Sandbox.id).Nodup)
    (hs : Recovering t all s) :
    (ownership D).Safe t (fun _ s' => s'.booting = some t) (recoverAll all) s := by
  induction all generalizing s with
  | nil => exact safe_pure hs.1
  | cons v rest ih =>
    obtain ⟨hnew, hrest⟩ := List.nodup_cons.1 hids
    have hne : ∀ w ∈ rest, w.id ≠ v.id := fun w hw he =>
      hnew (List.mem_map.2 ⟨w, hw, he⟩)
    exact (safe_recoverOne hs hne).bind fun
      | some e, _, hs₁ => safe_pure hs₁.1
      | none, _, hs₁ => ih hrest hs₁

theorem robust_unmonitored : Robust t fun s => s.booting = some t ∧ ∀ id, id ∉ s.monitored :=
  fun _ _ _ hu _ he h => ⟨he.boots t (Ne.symm hu) h.1, fun id => he.unhanded hu h.1 (h.2 id)⟩

theorem safe_recover (hs : s.booting = some t ∧ s.monitored = []) :
    (ownership D).Respects t recover s := by
  have hboot : Robust t fun s : Host => s.booting = some t :=
    fun _ _ _ hu _ he h => he.boots t (Ne.symm hu) h
  refine safe_plain robust_unmonitored ⟨hs.1, fun id => by simp [hs.2]⟩ rfl
    fun
      | _, .error e, _, _, _, _ => safe_pure trivial
      | s₁, .ok all, s₂, hx, hi, hs₂ => ?_
  obtain ⟨rfl, rfl⟩ := exec_list hx
  refine (safe_recoverAll _ hi.keyed.list_ids
    ⟨hs₂.1, fun v _ => hs₂.2 v.id⟩).bind fun r s₃ hs₃ => ?_
  split
  · exact safe_call (f := pure) hboot hs₃ rfl fun _ _ _ _ h _ => ⟨h, safe_pure trivial⟩
  · exact safe_pure trivial

theorem plain_baseRmLocked (ref : String) : Plain (baseRmLocked ref) := by
  refine (removal_baseRmLocked ref).mono fun o ho => ?_
  cases o <;> first | rfl | cases ho

theorem Stores.plain {α : Type} {p : Prog α} (h : Stores p) : Plain p := by
  refine h.mono fun o ho => ?_
  cases o <;> first | rfl | cases ho

theorem safe_locked_plain {α : Type} {p : Prog α} (k : String) (hp : Plain p) (hs : Serving s) :
    (ownership D).Respects t (locked k p) s :=
  safe_locked lasting_serving.robust hs (fun _ _ h => Or.inl h) (fun _ _ => trivial)
    fun _ _ h => safe_of_plain hp robust_true h

theorem safe_ignore {α : Type} {p : Prog α} {post : α → Host → Prop}
    (h : (ownership D).Safe t post p s) :
    (ownership D).Respects t (ignore p) s :=
  h.bind fun _ _ _ => safe_pure trivial

theorem safe_restart (id : String) (seconds : ℤ) (hs : Serving s) :
    (ownership D).Respects t (restart id seconds) s := by
  refine ((safe_stop id seconds hs).persist lasting_serving.persistent hs).bind ?_
  rintro stopped s₁ ⟨_, hs₁⟩
  split
  · exact (safe_start id hs₁).bind fun _ _ _ => safe_pure trivial
  · exact safe_pure trivial

theorem safe_code (j : Job) (hs : jobPre j t s) : (ownership D).Respects t (j.code D) s := by
  cases j with
  | recover => exact safe_recover hs
  | monitor v => exact safe_monitorLoop v hs
  | create spec => exact safe_ignore (safe_create spec hs)
  | start id => exact safe_ignore (safe_start id hs)
  | stop id seconds => exact safe_ignore (safe_stop id seconds hs)
  | restart id seconds => exact safe_restart id seconds hs
  | wait id => exact safe_ignore (safe_of_plain (queries_wait id).plain robust_true trivial)
  | remove id force => exact safe_ignore (safe_remove id force hs)
  | baseRm ref => exact safe_ignore (safe_locked_plain allocations (plain_baseRmLocked ref) hs)
  | basePull ref =>
    exact safe_ignore (safe_of_plain (stores_basePull ref).plain robust_true trivial)
  | baseLoad ref v kernel rootfs =>
    exact safe_ignore
      (safe_of_plain (stores_baseLoad ref v kernel rootfs).plain robust_true trivial)
  | volumeCreate v =>
    exact safe_ignore (safe_locked_plain allocations (stores_volumeCreateLocked v).plain hs)
  | volumeRm name =>
    exact safe_ignore (safe_locked_plain allocations (stores_volumeRmLocked name).plain hs)

end operations

theorem inv_initial : Inv Host.initial where
  keyed := Store.keyed_empty
  recorded _ h := absurd h (by simp [Host.initial, Store.empty])
  ids _ h := absurd h (by simp [Host.initial])
  creating _ h := absurd h (by simp [Host.initial, Store.empty])
  admitted _ h := absurd h (by simp [Host.initial])
  exclusive _ _ h := absurd h (by simp [Host.initial])
  active _ h := absurd h (by simp [Host.initial, Store.empty, Store.row])
  locks _ _ h := absurd h (by simp [Host.initial])
  live _ _ h := absurd h (by simp [Host.initial])

theorem Inv.restarted {s : Host} (hi : Inv s) : Inv s.restarted where
  keyed := hi.keyed
  recorded := hi.recorded
  ids := hi.ids
  creating := hi.creating
  admitted := hi.admitted
  exclusive := hi.exclusive
  active := hi.active
  locks _ _ h := absurd h (by simp [Host.restarted])
  live := hi.live

/-- The daemon respects its lock discipline in every run from an empty machine. -/
theorem ownership_sound (D : Setup) : (ownership D).Sound fun s => s = Host.initial where
  boots s hs := by
    subst hs
    exact ⟨inv_initial, ⟨rfl, rfl⟩, fun _ => trivial⟩
  crashes s hi := ⟨hi.restarted, ⟨rfl, rfl⟩, fun _ => trivial⟩
  accepts s j hi hj t := by
    have hj' : s.booting.isNone = true ∧ j.isRequest = true := by
      simpa [daemon] using hj
    have hb : s.booting = none := by simpa using hj'.1
    cases j with
    | recover | monitor => cases hj'.2
    | _ => exact hb
  jobs j t s _ hp _ := safe_code j hp

end Niflhel
