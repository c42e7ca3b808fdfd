import Niflhel.FailedState

/-!
# What a successful `Stop` tells about the VMM

`Stop` waits until the record shows an exit or has failed. An exit is recorded after a
confirmed kill. A failure is recorded after a kill that was not confirmed as well, and then
`Stop` reports success although the VMM may be alive. It is dead in every run in which
failures are recorded for dead VMMs only.
-/

namespace Niflhel
open Concurrent

/-- Failures are recorded when the VMM is not alive, and the store answers what it holds. -/
def failsDead (s : Host) : (o : Op) → o.Reply → Bool
  | .update id (.killFailed _), _ => !s.live id
  | .update id (.startFail _ _ _ _), _ => !s.live id
  | .update id (.interrupted _), _ => !s.live id
  | .get id, .error _ => (s.store.get id).toOption.isNone
  | _, _ => true

def SettledDead (s : Host) : Prop :=
  s.NoAlias → ∀ id v, s.store.row id = some v → (v.exit.isSome = true ∨ v.state = .failed) →
    s.live id = false

section invariant
variable {D : Setup} {t : ℕ} {s s' : Host} {o : Op} {r : o.Reply} {id : String} {v x y : Sandbox}

theorem Inv.live_of_row (hi : Inv s) (hn : s.NoAlias) (hl : s.live id = true) :
    ∃ v, s.store.row id = some v ∧ reservesVMResources v = true ∧ 1 ≤ v.generation :=
  hi.admitted id (hi.live hn id hl)

/-- A record that does not reserve, or was never started, has no live VMM. -/
theorem Inv.dead_of_row (hi : Inv s) (hn : s.NoAlias) (hv : s.store.row id = some v)
    (h : reservesVMResources v = false ∨ v.generation = 0) : s.live id = false := by
  cases hl : s.live id with
  | false => rfl
  | true =>
    obtain ⟨w, hw, hres, hgen⟩ := hi.live_of_row hn hl
    cases hw.symm.trans hv
    rcases h with h | h
    · rw [hres] at h
      cases h
    · omega

theorem live_of_exec (h : exec D t s o r = some s') (hl : s'.live id = true) :
    s.live id = true ∨ ∃ v b, o = .vmStart v b ∧ v.id = id := by
  cases effect_of_exec h with
  | @started v b r =>
    by_cases hid : v.id = id
    · exact Or.inr ⟨v, b, rfl, hid⟩
    · left
      simpa [Ne.symm hid] using hl
  | @killed v =>
    by_cases hid : v.id = id
    · simp [hid] at hl
    · left
      simpa [Ne.symm hid] using hl
  | _ => exact Or.inl hl

/-- An edit that leaves an exit or a failure behind finds a dead VMM. -/
theorem dead_of_edit (hi : Inv s) (hn : s.NoAlias) {e : Edit} {r : Except String Time}
    (hx : s.store.row id = some x) (hy : e.apply x = .ok y) (hp : editPermit t s id e)
    (hq : recordPermit D t s (.update id e) r) (hok : failsDead s (.update id e) r = true)
    (hold : x.exit.isSome = true ∨ x.state = .failed → s.live id = false)
    (hnew : y.exit.isSome = true ∨ y.state = .failed) : s.live id = false := by
  have hkeep : y.exit = x.exit → y.state = x.state ∨ y.state ≠ .failed → s.live id = false := by
    intro hexit hstate
    rcases hnew with hnew | hnew
    · exact hold (Or.inl (hexit ▸ hnew))
    · rcases hstate with hstate | hstate
      · exact hold (Or.inr (hstate.symm.trans hnew))
      · exact absurd hnew hstate
  cases e with
  | createFail msg => exact hi.dead_of_row hn hx (Or.inr (hp.2 x hx))
  | createCommit w =>
    cases hy
    rw [hq.2.1, hp.2.2.2.1] at hnew
    simp at hnew
  | startCommit w =>
    cases hy
    rw [hq.2.1, hp.2.2.1] at hnew
    simp at hnew
  | startFail | killFailed | interrupted => simpa [failsDead] using hok
  | finished | removing | release => exact (hp hn).2
  | setPID | deferRemoval =>
    cases hy
    exact hkeep rfl (Or.inl rfl)
  | running | stopping =>
    rcases transition_eq_ok hy with ⟨_, rfl⟩ | ⟨_, rfl⟩
    · exact hkeep rfl (Or.inl rfl)
    · exact hkeep rfl (Or.inr (by simp))

end invariant

section runs
variable {D : Setup} {c c' : Config Host Op Op.Reply}

/-- What was dead stays dead unless a start launches it. -/
theorem live_of_step {l : Label Op Op.Reply Job} {id : String} (hs : (daemon D).Step c l c')
    (hl : c'.state.live id = true) : c.state.live id = true ∨
      ∃ t v b r, l = .run t (.vmStart v b) r ∧ v.id = id ∧ c'.state.store = c.state.store := by
  cases hs with
  | @run t o next r s ht hx =>
    rw [System.resume_state] at hl ⊢
    rcases live_of_exec hx hl with h | ⟨v, b, rfl, hid⟩
    · exact Or.inl h
    · cases hx
      exact Or.inr ⟨t, v, b, r, rfl, hid, rfl⟩
  | request | crash => exact Or.inl hl

theorem settledDead_step {l : Label Op Op.Reply Job} (hc : daemonReachable D c)
    (hs : (daemon D).Step c l c') (hok : System.Meets failsDead c l) (h : SettledDead c.state) :
    SettledDead c'.state := by
  intro hn id v hv hcase
  have hi := inv_of_reachable hc
  have hn₀ := noAlias_of_step hc hs hn
  have hdead : c.state.live id = false := by
    rcases row_of_step hc hs id with hr | ⟨t, e, r, x, y, rfl, hp, hed⟩ | ⟨hr, _⟩ | hr
    · exact h hn₀ id v (hr.symm.trans hv) hcase
    · obtain ⟨now, hself⟩ := hed.row_self
      cases hself.symm.trans hv
      exact dead_of_edit hi hn₀ hed.found hed.applied hp ((stewardship_sound D).permit hc hs).2
        hok (h hn₀ id x hed.found) hcase
    · cases hl : c.state.live id with
      | false => rfl
      | true =>
        obtain ⟨w, hw, _⟩ := hi.live_of_row hn₀ hl
        rw [hr] at hw
        cases hw
    · rw [hv] at hr
      cases hr
  cases hl : c'.state.live id with
  | false => rfl
  | true =>
    rcases live_of_step hs hl with hl₀ | ⟨t, w, b, r, rfl, rfl, hstore⟩
    · rw [hdead] at hl₀
      cases hl₀
    · rw [hstore] at hv
      obtain ⟨hexit, hact⟩ := ((stewardship_sound D).permit hc hs).2 hn₀ v hv
      rcases hcase with hcase | hcase
      · simp [hexit] at hcase
      · simp [hcase, State.isActive] at hact

theorem settledDead_of_runs
    (h : (daemon D).Runs (System.Meets failsDead) ((daemon D).booted Host.initial) c) :
    daemonReachable D c ∧ SettledDead c.state := by
  induction h with
  | refl =>
    refine ⟨⟨_, rfl, .refl⟩, fun _ id v hv => ?_⟩
    simp [System.booted, Host.initial, Store.empty, Store.row] at hv
  | tail _ hs ih =>
    obtain ⟨l, hok, hstep⟩ := hs
    exact ⟨ih.1.step _ hstep, settledDead_step ih.1 hstep hok ih.2⟩

end runs

/-- The record is gone, never started, or shows an exit or a failure. -/
def Ended (id : String) (s : Host) : Prop :=
  s.NoAlias → ∀ w, s.store.row id = some w →
    w.state = .created ∨ w.state = .exited ∨ w.state = .failed ∨ w.exit.isSome = true

/-- A `Stop` that returns no error leaves the sandbox it resolved ended. -/
def StopsEnded (id : String) (calls : List (Call Op Op.Reply)) (r : Option String) (s : Host) :
    Prop :=
  r = none → ∀ v, [(⟨.get id, .ok v⟩ : Call Op Op.Reply)] <+: calls → Ended v.id s

section outline
variable {D : Setup} {t : ℕ} {s : Host} {v : Sandbox} {calls : List (Call Op Op.Reply)}

theorem row_eq_none_of_get {st : Store} {id : String} (h : (st.get id).toOption.isNone = true) :
    st.row id = none := by
  cases hr : st.row id with
  | none => rfl
  | some v =>
    obtain ⟨hmem, hid⟩ := Store.row_eq_some hr
    cases hf : st.list.find? fun w => w.id == id || w.name == id with
    | none => exact absurd (by simp [hid]) (List.find?_eq_none.1 hf v (Store.mem_list.2 hmem))
    | some w => simp [Store.get, hf, Except.toOption] at h

def Gone (id : String) (s : Host) : Prop :=
  (∃ name, (id, name) ∈ s.created) ∧ s.store.row id = none

theorem lasting_gone (id : String) : Lasting (Gone id) := by
  rintro s s' u _ he ⟨⟨name, hname⟩, hrow⟩
  refine ⟨⟨name, he.created _ hname⟩, ?_⟩
  cases hr : s'.store.row id with
  | none => rfl
  | some w =>
    rcases he.rows id w hr with ⟨v, hv, _⟩ | ⟨_, hnew⟩
    · rw [hrow] at hv
      cases hv
    · exact absurd rfl (hnew _ hname)

/-- What `Wait` shows: an exit is returned only for a sandbox that has ended. -/
def WaitsEnded (id : String) (calls calls' : List (Call Op Op.Reply)) (r : Except String Exit)
    (s : Host) : Prop :=
  calls <+: calls' ∧ (r.toOption.isSome = true → Ended id s)

theorem ended_of_get {w : Sandbox} (hc : OwnedCall D t s (.get v.id) (.ok w) s) (hs : Known v s)
    (h : w.state = .failed ∨ w.exit.isSome = true) : Ended v.id s := by
  intro hn x hx
  have hget := (exec_get hc.exec).2
  have hid := hc.inv.get_id hn hs.1 hget
  have hrow := (hc.inv.known_of_mem (Store.get_eq_ok hget).1).2
  rw [hid, hx] at hrow
  rw [Option.some.inj hrow]
  exact Or.inr (Or.inr h)

theorem outline_waitRounds (n : ℕ) (hs : Known v s) :
    (stewardship D).Outline failsDead t (fun _ _ _ _ => True) (WaitsEnded v.id calls) calls
      (waitRounds v.id n) s := by
  have hP : (records D).Stable t (Known v) := (records_overlay D).stable (lasting_known v).robust
  have hround : ∀ (more : Prog (Except String Exit)) (calls : List (Call Op Op.Reply)) (s : Host)
      (w : Sandbox), OwnedCall D t s (.get v.id) (.ok w) s → Known v s →
      (stewardship D).Outline failsDead t (fun _ _ _ _ => True) (WaitsEnded v.id calls)
        (calls ++ [⟨.get v.id, .ok w⟩]) more s →
      (stewardship D).Outline failsDead t (fun _ _ _ _ => True) (WaitsEnded v.id calls)
        (calls ++ [⟨.get v.id, .ok w⟩]) (waitRound w more) s := by
    intro more calls s w hc hs hmore
    unfold waitRound
    have hpre : calls <+: calls ++ [⟨.get v.id, .ok w⟩] := List.prefix_append _ _
    split
    · exact ⟨hpre, fun h => by cases h⟩
    · cases hexit : w.exit with
      | some exit => exact ⟨hpre, fun _ => ended_of_get hc hs (Or.inr (by simp [hexit]))⟩
      | none =>
        dsimp only
        split
        · rename_i hfailed
          exact ⟨hpre, fun _ => ended_of_get hc hs (Or.inl hfailed)⟩
        · exact hmore
  have hlost : ∀ (e : String) (f : Except String Exit → Prog (Except String Exit))
      (calls calls₁ : List (Call Op Op.Reply)) (s : Host), (∀ x, f (.ok x) = pure (.ok x)) →
      (∀ x, f (.error x) = pure (.error e)) → calls <+: calls₁ → Gone v.id s →
      (stewardship D).Outline failsDead t (fun _ _ _ _ => True) (WaitsEnded v.id calls) calls₁
        (external (.findResult v.id) >>= f) s := by
    intro e f calls calls₁ s hfound hmissing hpre hs
    refine steward_query ((records_overlay D).stable (lasting_gone v.id).robust) hs rfl
      fun s₁ saved _ _ hs₁ _ => ⟨trivial, ?_⟩
    have hpre₁ := hpre.trans (List.prefix_append calls₁ [⟨.external (.findResult v.id), saved⟩])
    cases saved with
    | ok exit =>
      rw [hfound]
      refine ⟨hpre₁, fun _ _ w hw => ?_⟩
      rw [hs₁.2] at hw
      cases hw
    | error x =>
      rw [hmissing]
      exact ⟨hpre₁, fun h => by cases h⟩
  induction n generalizing s calls with
  | zero =>
    unfold waitRounds
    refine steward_query hP hs rfl fun s₁ got hc _ hs₁ hok => ⟨trivial, ?_⟩
    cases got with
    | error e =>
      exact hlost e _ calls _ s₁ (fun _ => rfl) (fun _ => rfl) (List.prefix_append _ _)
        ⟨⟨_, hs₁.1⟩, row_eq_none_of_get hok⟩
    | ok w =>
      exact hround (pure (.error "context canceled")) calls s₁ w hc hs₁
        ⟨List.prefix_append _ _, fun h => by cases h⟩
  | succ n ih =>
    unfold waitRounds
    refine steward_query hP hs rfl fun s₁ got hc _ hs₁ hok => ⟨trivial, ?_⟩
    cases got with
    | error e =>
      exact hlost e _ calls _ s₁ (fun _ => rfl) (fun _ => rfl) (List.prefix_append _ _)
        ⟨⟨_, hs₁.1⟩, row_eq_none_of_get hok⟩
    | ok w =>
      refine hround (waitRounds v.id n) calls s₁ w hc hs₁ ?_
      exact (ih hs₁).weaken fun _ _ _ h =>
        ⟨(List.prefix_append _ _).trans h.1, h.2⟩

theorem stopsEnded_of_wait {id : String} {w : Sandbox} {calls₀ : List (Call Op Op.Reply)}
    {r : Option String} (hpre : [⟨.get id, .ok w⟩] <+: calls₀) (hcalls : calls₀ <+: calls)
    (h : r = none → Ended w.id s) : StopsEnded id calls r s := by
  intro hr v hv
  have heq := List.prefix_of_prefix_length_le hv (hpre.trans hcalls) le_rfl
  have hsame := heq.eq_of_length rfl
  simp only [List.cons.injEq, Sigma.mk.injEq, heq_eq_eq, Except.ok.injEq, true_and, and_true]
    at hsame
  rw [hsame]
  exact h hr

theorem outline_stop (id : String) (seconds : ℤ) :
    (stewardship D).Outline failsDead t (fun _ _ _ _ => True) (StopsEnded id) []
      (stop id seconds) s := by
  refine steward_query (Discipline.stable_const _ t True) trivial rfl fun s₁ got hc _ _ _ =>
    ⟨trivial, ?_⟩
  cases got with
  | error e => exact fun h => by cases h
  | ok v => ?_
  obtain ⟨hknown, hrow⟩ := hc.inv.known_of_mem (Store.get_eq_ok (exec_get hc.exec).2).1
  have hfirst : [(⟨.get id, .ok v⟩ : Call Op Op.Reply)] <+: [] ++ [⟨.get id, .ok v⟩] :=
    List.prefix_rfl
  have hwait : ∀ (calls : List (Call Op Op.Reply)) (s : Host),
      [(⟨.get id, .ok v⟩ : Call Op Op.Reply)] <+: calls → Known v s →
      (stewardship D).Outline failsDead t (fun _ _ _ _ => True) (StopsEnded id) calls
        (awaitStop v) s := by
    intro calls s hcalls hs
    apply Discipline.Outline.bind
    refine steward_query ((records_overlay D).stable (lasting_known v).robust) hs rfl
      fun s₂ n _ _ hs₂ _ => ⟨trivial, ?_⟩
    refine (outline_waitRounds n hs₂).weaken fun calls' r s₃ h => ?_
    have hcalls' := (List.prefix_append calls [⟨.external .rounds, n⟩]).trans h.1
    cases r with
    | error e => exact stopsEnded_of_wait hcalls hcalls' fun h => by cases h
    | ok exit => exact stopsEnded_of_wait hcalls hcalls' fun _ => h.2 rfl
  dsimp only
  split
  · rename_i hstate
    refine stopsEnded_of_wait hfirst List.prefix_rfl fun _ _ w hw => ?_
    rw [← Option.some.inj (hrow.symm.trans hw)]
    rcases hstate with hstate | hstate
    · exact Or.inr (Or.inl hstate)
    · exact Or.inl hstate
  split
  · exact stopsEnded_of_wait hfirst List.prefix_rfl fun h => by cases h
  -- Everything up to the wait keeps what is known about the record.
  refine steward_call ((records_overlay D).stable (lasting_known v).robust) hknown
    fun s₂ r s₃ hc₂ _ hs₂ _ => ⟨trivial, ?_⟩
  have hs₃ := lasting_known v s₂ s₃ t hc₂.inv hc₂.evolves hs₂
  have hcalls := hfirst.trans
    (List.prefix_append _ [(⟨.update v.id .stopping, r⟩ : Call Op Op.Reply)])
  apply Discipline.Outline.bind
  refine (steward_lasting (lasting_known v) hs₃
    fun _ _ _ _ => trivial).weaken fun calls₄ answer s₄ h₄ => ?_
  split
  · apply Discipline.Outline.bind (p := external .now)
    refine (steward_lasting (lasting_known v) h₄.2
      fun _ _ _ _ => trivial).weaken fun calls₅ now s₅ h₅ => ?_
    apply Discipline.Outline.bind (p := finish v (forcedStop now))
    refine (steward_lasting (lasting_known v) h₅.2
      fun _ _ _ _ => trivial).weaken fun calls₆ _ s₆ h₆ => ?_
    exact hwait calls₆ s₆ (((hcalls.trans h₄.1).trans h₅.1).trans h₆.1) h₆.2
  · exact hwait calls₄ s₄ (hcalls.trans h₄.1) h₄.2

end outline

/-- In every run in which failures are recorded for dead VMMs only, a `Stop` that returns no
error leaves the VMM of the sandbox dead. -/
theorem stop_succeeds_dead (D : Setup) (t : ℕ) (id : String) (seconds : ℤ) (v : Sandbox) (o : Op)
    (r : o.Reply) (next : o.Reply → Prog (Option String)) (calls : List (Call Op Op.Reply))
    (c₀ c c' : Config Host Op Op.Reply)
    (h₀ : (daemon D).Runs (System.Meets failsDead) ((daemon D).booted Host.initial) c₀)
    (h : (daemon D).During failsDead t (stop id seconds) c₀ calls (.call o next) c)
    (hok : failsDead c.state o r = true) (hs : (daemon D).Step c (.run t o r) c')
    (hnone : next r = .pure none)
    (hv : [(⟨.get id, .ok v⟩ : Call Op Op.Reply)] <+: calls ++ [⟨o, r⟩])
    (hn : c'.state.NoAlias) : c'.state.live v.id = false := by
  have hreach : daemonReachable D c₀ := System.Reachable.runs _ ⟨_, rfl, .refl⟩ h₀
  have hruns : (daemon D).Runs (System.Meets failsDead) ((daemon D).booted Host.initial) c' :=
    (h₀.trans (h.runs _)).tail ⟨.run t o r, hok, hs⟩
  obtain ⟨hreach', hsettled⟩ := settledDead_of_runs hruns
  have hown := (Discipline.Outline.own (stewardship_sound D) hreach (outline_stop id seconds) h
    hok hs).2
  rw [hnone] at hown
  have hi := inv_of_reachable hreach'
  cases hl : c'.state.live v.id with
  | false => rfl
  | true =>
    obtain ⟨w, hw, hres, _⟩ := hi.live_of_row hn hl
    rcases hown rfl v hv hn w hw with hend | hend | hend | hend
    · simp [reservesVMResources, hend] at hres
    · simp [reservesVMResources, hend] at hres
    · rw [hsettled hn v.id w hw (Or.inr hend)] at hl
      cases hl
    · rw [hsettled hn v.id w hw (Or.inl hend)] at hl
      cases hl

namespace Sample

def lastStep {α : Type} (ok : Host → (o : Op) → o.Reply → Bool) (tag : ℕ) :
    ℕ × List (Call Op Op.Reply) × Prog α × Config Host Op Op.Reply → Option (α × Host)
  | (t, _, .call o next, c) =>
    if ok c.state o (reply c.state o tag) then
      (exec setup t c.state o (reply c.state o tag)).bind fun s =>
        match next (reply c.state o tag) with
        | .pure a => some (a, s)
        | .call _ _ => none
    else none
  | (_, _, .pure _, _) => none

theorem step_of_lastStep {α : Type} {ok : Host → (o : Op) → o.Reply → Bool} {p q : Prog α}
    {t tag : ℕ} {calls : List (Call Op Op.Reply)} {c₀ c : Config Host Op Op.Reply} {a : α}
    {s : Host} (h : (daemon setup).During ok t p c₀ calls q c)
    (hlast : lastStep ok tag (t, calls, q, c) = some (a, s)) :
    ∃ o next r c', q = .call o next ∧ ok c.state o r = true ∧
      (daemon setup).Step c (.run t o r) c' ∧ next r = .pure a ∧ c'.state = s := by
  cases q with
  | pure b => cases hlast
  | call o next => ?_
  simp only [lastStep] at hlast
  split_ifs at hlast with hok
  obtain ⟨s', hs', hret⟩ := Option.bind_eq_some_iff.1 hlast
  obtain ⟨k, hk, _⟩ := h.thread (daemon setup)
  cases hnext : next (reply c.state o tag) with
  | call _ _ => simp [hnext] at hret
  | pure b =>
    simp only [hnext] at hret
    cases hret
    exact ⟨o, next, _, _, rfl, hok, .run hk hs', hnext, System.resume_state ..⟩

def firstRead (id : String) : List (Call Op Op.Reply) → Option Sandbox
  | ⟨.get i, .ok v⟩ :: _ => if i = id then some v else none
  | _ => none

theorem prefix_of_firstRead {id : String} {calls : List (Call Op Op.Reply)} {v : Sandbox}
    (h : firstRead id calls = some v) : [(⟨.get id, .ok v⟩ : Call Op Op.Reply)] <+: calls := by
  unfold firstRead at h
  split at h
  · split_ifs at h with hid
    cases h
    subst hid
    exact List.prefix_append [_] _
  · cases h

def startA : List (System.Move Job) := createA ++ [.request (.start "a")] ++ steps 3 21

/-- A replayed `Stop` that succeeds. -/
theorem stopped_of_followed {ok : Host → (o : Op) → o.Reply → Bool} {moves : List (System.Move Job)}
    {live : Bool} (hrun : ((followed ok startA (.stop "a" 0) (stop "a" 0) moves).bind fun f =>
      (firstRead "a" f.2.1).bind fun v => (lastStep ok 0 f).map fun p =>
        (p.1, p.2.created, p.2.live v.id)) = some (none, [(ident 0, "a")], live)) :
    ∃ t v o r next calls c₀ c c',
      (daemon setup).Runs (System.Meets ok) ((daemon setup).booted Host.initial) c₀ ∧
      (daemon setup).During ok t (stop "a" 0) c₀ calls (.call o next) c ∧ ok c.state o r = true ∧
      (daemon setup).Step c (.run t o r) c' ∧ next r = .pure none ∧
      [(⟨.get "a", .ok v⟩ : Call Op Op.Reply)] <+: calls ++ [⟨o, r⟩] ∧
      c'.state.NoAlias ∧ c'.state.live v.id = live := by
  obtain ⟨⟨t, calls, q, c⟩, hf, hrest⟩ := Option.bind_eq_some_iff.1 hrun
  obtain ⟨v, hv, hlast⟩ := Option.bind_eq_some_iff.1 hrest
  obtain ⟨⟨a, s⟩, hlast, hfacts⟩ := Option.map_eq_some_iff.1 hlast
  simp only [Prod.mk.injEq] at hfacts
  obtain ⟨rfl, hcreated, hlive⟩ := hfacts
  obtain ⟨c₀, h₀, h⟩ := during_followed (k := fun _ => pure ()) rfl hf
  obtain ⟨o, next, r, c', rfl, hok, hs, hnext, rfl⟩ := step_of_lastStep h hlast
  have hn : c'.state.NoAlias := by
    unfold Host.NoAlias
    rw [hcreated]
    decide
  exact ⟨t, v, o, r, next, calls, c₀, c, c', h₀, h, hok, hs, hnext,
    (prefix_of_firstRead hv).trans (List.prefix_append calls [⟨o, r⟩]), hn, hlive⟩

end Sample

open Sample in
theorem stop_succeeds_dead_forced : ∃ t v o r next calls c₀ c c',
      (daemon setup).Runs (System.Meets failsDead) ((daemon setup).booted Host.initial) c₀ ∧
      (daemon setup).During failsDead t (stop "a" 0) c₀ calls (.call o next) c ∧
      (daemon setup).Step c (.run t o r) c' ∧ next r = .pure none ∧
      [(⟨.get "a", .ok v⟩ : Call Op Op.Reply)] <+: calls ++ [⟨o, r⟩] ∧
      c'.state.live v.id = false := by
  obtain ⟨t, v, o, r, next, calls, c₀, c, c', h₀, h, hok, hs, hnext, hread, hn, -⟩ :=
    @stopped_of_followed failsDead
      (steps 5 2 ++ [.run 5 1] ++ steps 5 3 ++ [.run 5 1] ++ steps 5 7) false (by decide +kernel)
  exact ⟨t, v, o, r, next, calls, c₀, c, c', h₀, h, hs, hnext, hread,
    stop_succeeds_dead setup t "a" 0 v o r next calls c₀ c c' h₀ h hok hs hnext hread hn⟩

open Sample in
/-- The forced stop cannot confirm the death of the VMM, records the failure and succeeds. -/
theorem stop_succeeds_alive : ∃ t v o r next calls c₀ c c',
      (daemon setup).Runs (System.Meets System.anyCall) ((daemon setup).booted Host.initial) c₀ ∧
      (daemon setup).During System.anyCall t (stop "a" 0) c₀ calls (.call o next) c ∧
      (daemon setup).Step c (.run t o r) c' ∧ next r = .pure none ∧
      [(⟨.get "a", .ok v⟩ : Call Op Op.Reply)] <+: calls ++ [⟨o, r⟩] ∧
      c'.state.NoAlias ∧ c'.state.live v.id = true := by
  obtain ⟨t, v, o, r, next, calls, c₀, c, c', h₀, h, -, hrest⟩ := @stopped_of_followed System.anyCall
    (steps 5 2 ++ [.run 5 1] ++ steps 5 3 ++ [.run 5 1, .run 5 1] ++ steps 5 3) true (by decide +kernel)
  exact ⟨t, v, o, r, next, calls, c₀, c, c', h₀, h, hrest⟩

end Niflhel
