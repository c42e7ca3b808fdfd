import Niflhel.Operation
import Niflhel.Volumes

/-!
# Recovery

`Recover` goes through the stored records while the listener is closed; the goroutines
beside it are the monitors it has started. Here it runs from an arbitrary store. Its loop
ends at the first sandbox whose ports or name server cannot be restored, so that the records
after that one are treated only if they need no treatment.
-/

namespace Niflhel
open Concurrent

def recoverRecords : Prog (Option String) := do
  match ← storeList with
  | .error e => return some e
  | .ok all => recoverAll all

theorem recover_eq :
    recover = recoverRecords >>= fun r => if r.isNone then op .serve else return () := by
  refine congrArg (Program.call Op.list) (funext fun r => ?_)
  cases r with
  | error | ok => rfl

def State.isPending : State → Bool
  | .creating | .starting | .removing => true
  | _ => false

def needsRecovery (v : Sandbox) : Bool :=
  match v.state with
  | .created | .exited => false
  | .failed => !v.vmResourcesReleased
  | _ => true

/-- The sandbox whose ports or name server a call failed to restore. -/
def restoreFailure : Call Op Op.Reply → Option Sandbox
  | ⟨.reservePorts v, some _⟩ => some v
  | ⟨.startDNS v, some _⟩ => some v
  | _ => none

def restoreFailures (calls : List (Call Op Op.Reply)) : List Sandbox :=
  calls.filterMap restoreFailure

/-- The database is read and written without errors of its own. -/
def storeAnswers (s : Host) : (o : Op) → o.Reply → Bool
  | .list, .error _ => false
  | .update id e, .error _ => (s.store.update id 0 e.apply).toOption.isNone
  | _, _ => true

structure RecoveryTreats (all : List Sandbox) (calls : List (Call Op Op.Reply)) (s : Host) :
    Prop where
  settled : ∀ v ∈ s.store.sandboxes, v.state.isPending = false
  finished : ∀ v ∈ all, v.state = .running ∨ v.state = .stopping →
    ⟨.external (.alive v), true⟩ ∈ calls ∨ ∃ now, (finish v (hostStopped now)).Within calls
  retried : ∀ v ∈ all, v.state = .failed → v.vmResourcesReleased = false →
    (retryCleanup v).Within calls
  processed : ∀ v ∈ all, (recoverOne v).Within calls

section loop
variable {v w : Sandbox} {calls : List (Call Op Op.Reply)} {r : Option String}

theorem mem_restoreFailures : w ∈ restoreFailures calls ↔
    ∃ e, ⟨.reservePorts w, some e⟩ ∈ calls ∨ ⟨.startDNS w, some e⟩ ∈ calls := by
  unfold restoreFailures
  rw [List.mem_filterMap]
  constructor
  · rintro ⟨a, ha, hw⟩
    unfold restoreFailure at hw
    split at hw
    · cases hw
      exact ⟨_, Or.inl ha⟩
    · cases hw
      exact ⟨_, Or.inr ha⟩
    · cases hw
  · rintro ⟨e, ha | ha⟩
    · exact ⟨_, ha, rfl⟩
    · exact ⟨_, ha, rfl⟩

theorem restoreFailures_cons {a : Call Op Op.Reply} (h : restoreFailure a = none) :
    restoreFailures (a :: calls) = restoreFailures calls := List.filterMap_cons_none h

theorem restoreFailures_of_settles {α : Type} {p q : Prog α} (hp : Settles v p)
    (h : p.Makes calls q) : restoreFailures calls = [] := by
  unfold restoreFailures
  rw [List.filterMap_eq_nil_iff]
  intro a ha
  have hsettles := hp.makes h a ha
  unfold restoreFailure
  split
  · cases hsettles
  · cases hsettles
  · rfl

theorem eq_of_restoreFailures (hp : (recoverOne v).Makes calls (.pure r))
    (hw : w ∈ restoreFailures calls) : w = v := by
  obtain ⟨e, ha | ha⟩ := mem_restoreFailures.1 hw
  · exact (restores_recoverOne v).makes hp _ ha
  · exact (restores_recoverOne v).makes hp _ ha

theorem recoverOne_active (h : v.state = .running ∨ v.state = .stopping) :
    recoverOne v = resumeOne v := by
  unfold recoverOne
  rcases h with h | h
  · rw [h]
    rfl
  · rw [h]
    rfl

theorem recoverOne_pending (h : v.state.isPending = true) :
    recoverOne v = (do interrupt v; return none) := by
  unfold recoverOne
  cases hs : v.state <;> first | rfl | (rw [hs] at h; cases h)

theorem recoverOne_failed (h : v.state = .failed) (hreleased : v.vmResourcesReleased = false) :
    recoverOne v = (do retryCleanup v; return none) := by
  unfold recoverOne
  rw [h, hreleased]
  rfl

theorem recoverOne_idle (h : needsRecovery v = false) : recoverOne v = return none := by
  unfold recoverOne
  unfold needsRecovery at h
  cases hs : v.state with
  | failed =>
    simp only [hs, Bool.not_eq_eq_eq_not, Bool.not_false] at h
    simp [h]
  | _ => first | rfl | simp [hs] at h

theorem makes_then_none {p : Prog Unit}
    (h : (do p; return none : Prog (Option String)).Makes calls (.pure r)) :
    r = none ∧ p.Makes calls (.pure ()) := by
  obtain ⟨a, first, rest, rfl, hfirst, hrest⟩ := Program.makes_bind h
  cases hrest with
  | nil => exact ⟨rfl, by rwa [List.append_nil]⟩

theorem restoreFailures_monitor {calls : List (Call Op Op.Reply)} {q : Prog Unit}
    (h : (monitor v).Makes calls q) : restoreFailures calls = [] := by
  cases h with
  | nil => rfl
  | @cons _ _ claimed _ _ h => ?_
  cases claimed with
  | false =>
    cases h with
    | nil => rfl
  | true =>
    cases h with
    | nil => rfl
    | cons h =>
      cases h with
      | nil => rfl

theorem adopt_fails_iff (h : (adopt v).Makes calls (.pure r)) :
    r.isSome = true ↔ v ∈ restoreFailures calls := by
  -- Once everything is restored, the monitor starts and no error is left to return.
  have hmonitor : ∀ rest, (do monitor v; return none : Prog (Option String)).Makes rest (.pure r) →
      r = none ∧ restoreFailures rest = [] := by
    intro rest hrest
    obtain ⟨hr, hmon⟩ := makes_then_none hrest
    exact ⟨hr, restoreFailures_monitor hmon⟩
  cases h with
  | @cons _ _ ports _ _ h =>
    cases ports with
    | some e =>
      cases h with
      | nil => simp [restoreFailures, restoreFailure]
    | none =>
      split_ifs at h with hbridge
      · cases h with
        | @cons _ _ dns _ _ h =>
          cases dns with
          | some e =>
            cases h with
            | nil => simp [restoreFailures, restoreFailure]
          | none =>
            obtain ⟨rfl, hrest⟩ := hmonitor _ h
            rw [restoreFailures_cons rfl, restoreFailures_cons rfl, hrest]
            simp
      · obtain ⟨rfl, hrest⟩ := hmonitor _ h
        rw [restoreFailures_cons rfl, hrest]
        simp

theorem recoverOne_fails_iff (h : (recoverOne v).Makes calls (.pure r)) :
    r.isSome = true ↔ v ∈ restoreFailures calls := by
  -- Apart from `adopt`, every branch only settles the sandbox and returns no error.
  have hsettle : ∀ {p : Prog Unit}, Settles v p →
      (do p; return none : Prog (Option String)).Makes calls (.pure r) →
      (r.isSome = true ↔ v ∈ restoreFailures calls) := by
    intro p hp h
    obtain ⟨rfl, hmakes⟩ := makes_then_none h
    simp [restoreFailures_of_settles hp hmakes]
  have hnone : (return none : Prog (Option String)).Makes calls (.pure r) →
      (r.isSome = true ↔ v ∈ restoreFailures calls) := by
    intro h
    cases h with
    | nil => simp [restoreFailures]
  have hresume : (resumeOne v).Makes calls (.pure r) →
      (r.isSome = true ↔ v ∈ restoreFailures calls) := by
    intro h
    cases h with
    | @cons _ _ alive _ _ h =>
      cases alive with
      | true =>
        rw [restoreFailures_cons rfl]
        exact adopt_fails_iff h
      | false =>
        cases h with
        | @cons _ _ now _ _ h =>
          obtain ⟨rfl, hmakes⟩ := makes_then_none h
          have hnil := restoreFailures_of_settles (settles_finish v _) hmakes
          rw [restoreFailures_cons rfl, restoreFailures_cons rfl, hnil]
          simp
  unfold recoverOne at h
  split at h
  · exact hresume h
  · exact hresume h
  · exact hsettle (settles_interrupt v) h
  · exact hsettle (settles_interrupt v) h
  · exact hsettle (settles_interrupt v) h
  · split_ifs at h with hreleased
    · exact hnone h
    · exact hsettle (settles_retryCleanup v) h
  · exact hnone h
  · exact hnone h

/-- How far the loop gets: it executes `recoverOne` for the records `done`, and unless these
are all, the last one of them failed. -/
structure Course (done rest : List Sandbox) (calls : List (Call Op Op.Reply)) : Prop where
  processed : ∀ w ∈ done, (recoverOne w).Within calls
  named : ∀ a ∈ calls, ∃ w ∈ done, a.1.restores w
  last : ∀ w ∈ restoreFailures calls, done.getLast? = some w
  complete : rest = [] ∨ ∃ w, w ∈ restoreFailures calls

theorem course_recoverAll {all : List Sandbox} (h : (recoverAll all).Makes calls (.pure r)) :
    ∃ done rest, all = done ++ rest ∧ Course done rest calls := by
  induction all generalizing calls with
  | nil =>
    cases h with
    | nil => exact ⟨[], [], rfl, by simp, by simp, by simp [restoreFailures], Or.inl rfl⟩
  | cons v all ih =>
    obtain ⟨r₁, first, later, rfl, hone, hlater⟩ := Program.makes_bind h
    have hwithin : (recoverOne v).Within (first ++ later) :=
      ⟨r₁, first, (List.prefix_append first later).isInfix, hone⟩
    have hfails := recoverOne_fails_iff hone
    have hnamed := (restores_recoverOne v).makes hone
    cases r₁ with
    | some e =>
      -- An error ends the loop: nothing is called for the records after `v`.
      cases hlater with
      | nil =>
        rw [List.append_nil] at hwithin ⊢
        refine ⟨[v], all, rfl, by simpa using hwithin, fun a ha => ⟨v, by simp, hnamed a ha⟩,
          fun w hw => ?_, Or.inr ⟨v, hfails.1 rfl⟩⟩
        rw [eq_of_restoreFailures hone hw]
        rfl
    | none =>
      obtain ⟨done, rest, rfl, hcourse⟩ := ih hlater
      have hsplit : restoreFailures (first ++ later) = restoreFailures later := by
        have hnil : restoreFailures first = [] := by
          rw [List.eq_nil_iff_forall_not_mem]
          intro w hw
          rw [eq_of_restoreFailures hone hw] at hw
          cases hfails.2 hw
        unfold restoreFailures at hnil ⊢
        rw [List.filterMap_append, hnil, List.nil_append]
      refine ⟨v :: done, rest, rfl, fun w hw => ?_, fun a ha => ?_, fun w hw => ?_, ?_⟩
      · rcases List.mem_cons.1 hw with rfl | hw
        · exact hwithin
        · exact (hcourse.processed w hw).mono (List.suffix_append first later).isInfix
      · rcases List.mem_append.1 ha with ha | ha
        · exact ⟨v, by simp, hnamed a ha⟩
        · obtain ⟨w, hw, hname⟩ := hcourse.named a ha
          exact ⟨w, List.mem_cons_of_mem v hw, hname⟩
      · rw [hsplit] at hw
        rw [List.getLast?_cons, hcourse.last w hw]
        rfl
      · rw [hsplit]
        exact hcourse.complete

theorem within_of_idle (h : needsRecovery v = false) : (recoverOne v).Within calls := by
  rw [recoverOne_idle h]
  exact ⟨none, [], List.nil_infix, .nil⟩

theorem finished_of_within (h : (recoverOne v).Within calls)
    (hv : v.state = .running ∨ v.state = .stopping) :
    ⟨.external (.alive v), true⟩ ∈ calls ∨ ∃ now, (finish v (hostStopped now)).Within calls := by
  obtain ⟨r, part, hpart, hmakes⟩ := h
  rw [recoverOne_active hv] at hmakes
  cases hmakes with
  | @cons _ _ alive _ _ hmakes =>
    cases alive with
    | true => exact Or.inl (hpart.subset (List.mem_cons_self ..))
    | false =>
      cases hmakes with
      | @cons _ _ now later _ hmakes =>
        refine Or.inr ⟨now, (), later, List.IsInfix.trans ?_ hpart, (makes_then_none hmakes).2⟩
        exact (List.suffix_append [_, _] later).isInfix

theorem retried_of_within (h : (recoverOne v).Within calls) (hv : v.state = .failed)
    (hreleased : v.vmResourcesReleased = false) : (retryCleanup v).Within calls := by
  obtain ⟨r, part, hpart, hmakes⟩ := h
  rw [recoverOne_failed hv hreleased] at hmakes
  exact ⟨(), part, hpart, (makes_then_none hmakes).2⟩

/-- The cleanup of an interrupted operation ends with the mark in the record. -/
theorem interrupted_of_within (h : (recoverOne v).Within calls) (hv : v.state.isPending = true) :
    ∃ b r, ⟨.update v.id (.interrupted b), r⟩ ∈ calls := by
  obtain ⟨r, part, hpart, hmakes⟩ := h
  rw [recoverOne_pending hv] at hmakes
  have hinterrupt := (makes_then_none hmakes).2
  cases hinterrupt with
  | @cons _ _ killed later _ hmore =>
    cases killed with
    | some e =>
      cases hmore with
      | @cons _ _ r' _ _ _ => exact ⟨_, r', hpart.subset (by simp)⟩
    | none =>
      cases hmore with
      | cons hmore =>
      cases hmore with
      | cons hmore =>
      cases hmore with
      | @cons _ _ r' _ _ _ => exact ⟨_, r', hpart.subset (by simp)⟩

/-- The treatment of a record begins with a call that names it. -/
theorem named_of_within (h : (recoverOne v).Within calls) (hv : needsRecovery v = true) :
    ∃ a ∈ calls, a.1 = .kill v ∨ a.1 = .external (.alive v) := by
  obtain ⟨r, part, hpart, hmakes⟩ := h
  have hkill : ∀ {p : Prog Unit} {next : Option String → Prog Unit}, p = .call (.kill v) next →
      recoverOne v = (do p; return none) → ∃ a ∈ calls, a.1 = .kill v ∨ a.1 = .external (.alive v) := by
    intro p next hp heq
    rw [heq] at hmakes
    have hbody := (makes_then_none hmakes).2
    rw [hp] at hbody
    cases hbody with
    | cons hbody => exact ⟨_, hpart.subset (List.mem_cons_self ..), Or.inl rfl⟩
  have halive : v.state = .running ∨ v.state = .stopping →
      ∃ a ∈ calls, a.1 = .kill v ∨ a.1 = .external (.alive v) := by
    intro hactive
    rw [recoverOne_active hactive] at hmakes
    cases hmakes with
    | cons hmakes => exact ⟨_, hpart.subset (List.mem_cons_self ..), Or.inr rfl⟩
  unfold needsRecovery at hv
  cases hs : v.state with
  | running => exact halive (Or.inl hs)
  | stopping => exact halive (Or.inr hs)
  | failed =>
    simp only [hs, Bool.not_eq_eq_eq_not, Bool.not_true] at hv
    exact hkill rfl (recoverOne_failed hs hv)
  | created | exited => simp [hs] at hv
  | _ => exact hkill rfl (recoverOne_pending (by rw [hs]; rfl))

end loop

section records
variable {D : Setup} {t : ℕ} {s s' : Host} {o : Op} {r : o.Reply} {e : Edit} {v x y : Sandbox}

theorem Edit.isSettlement.pending (h : e.apply x = .ok y) (he : e.isSettlement = true)
    (hy : y.state.isPending = true) : x.state.isPending = true ∧ ∀ b, e ≠ .interrupted b := by
  cases e with
  | killFailed | interrupted => cases h; cases hy
  | finished exit netErr vmErr =>
    cases h
    split_ifs at hy <;> cases hy
  | deferRemoval | release => cases h; exact ⟨hy, fun b hb => by cases hb⟩
  | _ => cases he

theorem booting_of_restoring (hx : exec D t s o r = some s') (ho : o.isRestoring = true) :
    s'.booting = s.booting := by
  cases effect_of_exec hx with
  | served => cases ho
  | _ => rfl

theorem mem_of_restoring (hx : exec D t s o r = some s') (ho : o.isRestoring = true)
    (hne : ∀ id e, o ≠ .update id e) (hv : v ∈ s'.store.sandboxes) : v ∈ s.store.sandboxes := by
  cases effect_of_exec hx with
  | edited => exact absurd rfl (hne _ _)
  | inserted => cases ho
  | deleted => exact (List.mem_filter.1 hv).1
  | _ => exact hv

/-- A record that is pending after a call was pending before, and the call was not the one
that marks its operation as interrupted. -/
theorem pending_of_exec (hx : exec D t s o r = some s') (ho : o.isRestoring = true)
    (hok : storeAnswers s o r = true) (hv : v ∈ s'.store.sandboxes)
    (hpend : v.state.isPending = true) :
    (∃ w ∈ s.store.sandboxes, w.id = v.id ∧ w.state.isPending = true) ∧
      ∀ b, o ≠ .update v.id (.interrupted b) := by
  cases o with
  | update id e =>
    cases r with
    | error err =>
      cases hx
      refine ⟨⟨v, hv, rfl, hpend⟩, fun b hb => ?_⟩
      cases hb
      -- The store cannot refuse this edit of a row that exists.
      cases hrow : s.store.row v.id with
      | none =>
        exact absurd (List.find?_eq_none.1 hrow v hv) (by simp)
      | some w => simp [storeAnswers, Store.update, hrow, Edit.apply, Except.toOption] at hok
    | ok now =>
      obtain ⟨x, y, hrow, hy, rfl⟩ := exec_update hx
      obtain ⟨hmem, hid⟩ := Store.row_eq_some hrow
      obtain ⟨z, hz, rfl⟩ := List.mem_map.1 hv
      by_cases hzid : z.id = id
      · rw [if_pos hzid] at hpend ⊢
        obtain ⟨hxpend, hne⟩ := Edit.isSettlement.pending hy ho hpend
        have hframe := Edit.apply_frame hy (Edit.isSettlement.whole ho)
        have hyid : y.id = x.id := (congrArg Sandbox.id hframe :)
        refine ⟨⟨x, hmem, hyid.symm, hxpend⟩, fun b hb => ?_⟩
        cases hb
        exact hne b rfl
      · rw [if_neg hzid] at hpend ⊢
        refine ⟨⟨z, hz, rfl, hpend⟩, fun b hb => ?_⟩
        cases hb
        exact hzid rfl
  | _ =>
    refine ⟨⟨v, mem_of_restoring hx ho (fun id e h => by cases h) hv, rfl, hpend⟩, fun b hb => ?_⟩
    cases hb

/-- The daemon during recovery from `s`: beside the boot thread there are only monitors, and
a record is pending only if it was so in the beginning and has not been treated since. -/
structure RecoveringFrom (s : Host) (calls : List (Call Op Op.Reply)) (q : Prog (Option String))
    (c : Config Host Op Op.Reply) : Prop where
  booting : c.state.booting = some 0
  own : q.Uses fun o => o.isRestoring = true
  others : ∀ t ≠ 0, (c.threads t).Uses fun o => o.isRestoring = true
  pending : ∀ v ∈ c.state.store.sandboxes, v.state.isPending = true →
    (∃ w ∈ s.store.sandboxes, w.id = v.id ∧ w.state.isPending = true) ∧
      ∀ b r, ⟨.update v.id (.interrupted b), r⟩ ∉ calls

theorem uses_resume {c : Config Host Op Op.Reply} {p : Prog Unit}
    (hc : ∀ t ≠ 0, (c.threads t).Uses fun o => o.isRestoring = true)
    (hp : t ≠ 0 → p.Uses fun o => o.isRestoring = true) :
    ∀ u ≠ 0, (((daemon D).resume c t o p s').threads u).Uses fun o => o.isRestoring = true := by
  intro u hu
  have hkept : ((Function.update c.threads t p) u).Uses fun o => o.isRestoring = true := by
    by_cases hut : u = t
    · subst u
      simpa using hp hu
    · simpa [hut] using hc u hu
  unfold System.resume
  split
  · exact hkept
  · rename_i j hj
    by_cases hcount : u = c.count
    · subst u
      -- Only the monitor of a sandbox is ever forked.
      obtain ⟨v, rfl⟩ : ∃ v, j = .monitor v := by
        cases o with
        | goMonitor v => exact ⟨v, (Option.some.inj hj).symm⟩
        | _ => cases hj
      have hmonitor := (settles_monitorLoop v).restores.mono fun _ ho => ho.restoring
      simpa [daemon, Job.code] using hmonitor
    · simpa [hcount] using hkept

theorem restoring_recoverRecords : recoverRecords.Uses fun o => o.isRestoring = true := by
  refine ⟨rfl, fun r => ?_⟩
  cases r with
  | error e => exact trivial
  | ok all => exact restoring_recoverAll all

theorem recovering_during {calls : List (Call Op Op.Reply)} {q : Prog (Option String)}
    {c : Config Host Op Op.Reply} (h : (daemon D).During storeAnswers 0 recoverRecords
      ((daemon D).booted s.restarted) calls q c) : RecoveringFrom s calls q c := by
  induction h with
  | enter ht hc =>
    refine ⟨rfl, restoring_recoverRecords, fun t ht => ?_, fun v hv hpend => ?_⟩
    · simp [System.booted, ht, Program.Uses]
    · exact ⟨⟨v, hv, rfl, hpend⟩, by simp⟩
  | @other calls q c c' l h hl hok hs ih =>
    cases hs with
    | @run u o next r s' ht hx =>
      have huses := ih.others u hl
      rw [ht] at huses
      refine ⟨?_, ih.own, uses_resume ih.others fun _ => huses.2 r, fun v hv hpend => ?_⟩
      · rw [System.resume_state, booting_of_restoring hx huses.1, ih.booting]
      · rw [System.resume_state] at hv
        obtain ⟨⟨w, hw, hid, hwpend⟩, _⟩ := pending_of_exec hx huses.1 hok hv hpend
        rw [← hid]
        exact ih.pending w hw hwpend
    | request hj => simp [daemon, ih.booting] at hj
    | crash => exact hl.elim
  | @own calls o next c c' r h hok hs ih =>
    cases hs with
    | run ht hx =>
      refine ⟨?_, ih.own.2 r, uses_resume ih.others fun h0 => absurd rfl h0,
        fun v hv hpend => ?_⟩
      · rw [System.resume_state, booting_of_restoring hx ih.own.1, ih.booting]
      · rw [System.resume_state] at hv
        obtain ⟨⟨w, hw, hid, hwpend⟩, hne⟩ := pending_of_exec hx ih.own.1 hok hv hpend
        obtain ⟨horigin, hcalls⟩ := ih.pending w hw hwpend
        rw [hid] at horigin hcalls
        refine ⟨horigin, fun b r' hmem => ?_⟩
        rcases List.mem_append.1 hmem with hmem | hmem
        · exact hcalls b r' hmem
        · exact hne b (congrArg Sigma.fst (List.mem_singleton.1 hmem)).symm

/-- The first call of `Recover` reads the store as the daemon found it. -/
theorem listed_during {calls : List (Call Op Op.Reply)} {q : Prog (Option String)}
    {c : Config Host Op Op.Reply} (h : (daemon D).During storeAnswers 0 recoverRecords
      ((daemon D).booted s.restarted) calls q c) :
    (calls = [] ∧ q = recoverRecords ∧ c = (daemon D).booted s.restarted) ∨
      ∃ rest, calls = ⟨.list, .ok s.store.list⟩ :: rest := by
  induction h with
  | enter ht hc => exact Or.inl ⟨rfl, rfl, rfl⟩
  | @other calls q c c' l h hl hok hs ih =>
    rcases ih with ⟨_, _, rfl⟩ | hlisted
    · -- No other thread has a call to make yet, and requests are not accepted.
      cases hs with
      | @run u o next r s' ht hx =>
        have hu : u ≠ 0 := hl
        simp [System.booted, hu] at ht
      | request hj => simp [daemon, System.booted, Host.restarted] at hj
      | crash => exact hl.elim
    · exact Or.inr hlisted
  | @own calls o next c c' r h hok hs ih =>
    rcases ih with ⟨rfl, hq, rfl⟩ | ⟨rest, rfl⟩
    · cases hq
      have hx := (daemon D).exec_of_step hs
      cases r with
      | error e => cases hok
      | ok all =>
        have hall : all = s.store.list := by
          by_contra hne
          simp [daemon, exec, System.booted, Host.restarted, hne] at hx
        subst hall
        exact Or.inr ⟨[], rfl⟩
    · exact Or.inr ⟨rest ++ [_], rfl⟩

end records

/-- When `Recover` returns, every record has been treated if and only if no record after one
whose ports or name server could not be restored needs treatment. -/
theorem recovery_treats_iff (D : Setup) (s : Host) (hk : s.store.Keyed)
    (calls : List (Call Op Op.Reply)) (r : Option String) (c : Config Host Op Op.Reply)
    (h : (daemon D).During storeAnswers 0 recoverRecords ((daemon D).booted s.restarted) calls
      (.pure r) c) :
    RecoveryTreats s.store.list calls c.state ↔
      ∀ before w after, s.store.list = before ++ w :: after → w ∈ restoreFailures calls →
        ∀ v ∈ after, needsRecovery v = false := by
  have hrecovering := recovering_during h
  have hmakes := h.makes
  obtain ⟨rest, rfl⟩ : ∃ rest, calls = ⟨.list, .ok s.store.list⟩ :: rest := by
    rcases listed_during h with ⟨_, hq, _⟩ | hlisted
    · cases hq
    · exact hlisted
  have hloop : (recoverAll s.store.list).Makes rest (.pure r) := by
    cases hmakes with
    | cons hmakes => exact hmakes
  obtain ⟨done, left, hall, hcourse⟩ := course_recoverAll hloop
  have hnodup : (done ++ left).Nodup := hall ▸ hk.list_ids.of_map
  constructor
  · intro htreats before w after hsplit hw v hv
    by_contra hneeds
    rw [Bool.not_eq_false] at hneeds
    have hvall : v ∈ s.store.list := by
      rw [hsplit]
      simp [hv]
    obtain ⟨a, ha, hname⟩ := named_of_within (htreats.processed v hvall) hneeds
    have hdone : v ∈ done := by
      rcases List.mem_cons.1 ha with rfl | ha
      · rcases hname with hname | hname <;> cases hname
      · obtain ⟨w', hw', hrestores⟩ := hcourse.named a ha
        rcases hname with hname | hname
        · rw [hname] at hrestores
          exact (hrestores : v = w') ▸ hw'
        · rw [hname] at hrestores
          exact (hrestores : v = w') ▸ hw'
    -- The record `w` that failed was the last one processed, and `v` comes after it.
    obtain ⟨l, rfl⟩ := List.getLast?_eq_some_iff.1 (hcourse.last w hw)
    have heq : l ++ w :: left = before ++ w :: after := by
      rw [← hsplit, hall, List.append_assoc, List.singleton_append]
    have hw' : w ∉ l ∧ w ∉ left := by
      rw [List.append_assoc, List.singleton_append, List.nodup_middle, List.nodup_cons] at hnodup
      simpa using hnodup.1
    obtain ⟨_, _, rfl⟩ := (List.append_cons_inj_of_notMem hw'.1 hw'.2).1 heq
    exact (List.disjoint_of_nodup_append hnodup) hdone hv
  · intro hcond
    have hprocessed : ∀ v ∈ s.store.list,
        (recoverOne v).Within (⟨.list, .ok s.store.list⟩ :: rest) := by
      intro v hv
      rw [hall] at hv
      rcases List.mem_append.1 hv with hdone | hleft
      · exact (hcourse.processed v hdone).mono (List.suffix_cons _ rest).isInfix
      · apply within_of_idle
        rcases hcourse.complete with rfl | ⟨w, hw⟩
        · cases hleft
        · obtain ⟨l, rfl⟩ := List.getLast?_eq_some_iff.1 (hcourse.last w hw)
          exact hcond l w left (by simp [hall]) hw v hleft
    refine ⟨fun v hv => ?_, fun v hv => finished_of_within (hprocessed v hv),
      fun v hv => retried_of_within (hprocessed v hv), hprocessed⟩
    cases hpend : v.state.isPending with
    | false => rfl
    | true =>
      obtain ⟨⟨w, hw, hid, hwpend⟩, hnot⟩ := hrecovering.pending v hv hpend
      obtain ⟨b, r', hmark⟩ := interrupted_of_within (hprocessed w (Store.mem_list.2 hw)) hwpend
      rw [hid] at hmark
      exact absurd hmark (hnot b r')

namespace Sample

/-- Sandbox `a` runs and sandbox `b` is being created when the daemon ends. -/
def createdPartly : List (System.Move Job) :=
  createA ++ [.request (.start "a")] ++ steps 3 21 ++ [.request (.create (spec "b"))] ++ steps 5 3 ++
    [.run 5 1] ++ steps 5 2

def recovered (first second : List (System.Move Job)) :
    Option (Host × List (Call Op Op.Reply) × Option String × Config Host Op Op.Reply) :=
  (after first).bind fun s =>
    (((daemon setup).restrict storeAnswers).follow reply 0 recoverRecords
      ((daemon setup).booted s.restarted) second).bind fun f =>
        match f.2.1 with
        | .pure r => some (s, f.1, r, f.2.2)
        | .call _ _ => none

theorem during_recovered {first second : List (System.Move Job)} {s : Host}
    {calls : List (Call Op Op.Reply)} {r : Option String} {c : Config Host Op Op.Reply}
    (h : recovered first second = some (s, calls, r, c)) : s.store.Keyed ∧
      (daemon setup).During storeAnswers 0 recoverRecords ((daemon setup).booted s.restarted) calls
        (.pure r) c := by
  obtain ⟨s', hs, hrest⟩ := Option.bind_eq_some_iff.1 h
  obtain ⟨⟨calls', q, c'⟩, hf, hq⟩ := Option.bind_eq_some_iff.1 hrest
  obtain ⟨c₀, hreach, rfl⟩ := reachable_after hs
  cases q with
  | call o next => cases hq
  | pure r' => ?_
  cases hq
  refine ⟨(inv_of_reachable hreach).keyed, ?_⟩
  have henter : (daemon setup).During storeAnswers 0 recoverRecords
      ((daemon setup).booted c₀.state.restarted) [] recoverRecords
      ((daemon setup).booted c₀.state.restarted) := by
    refine .enter (k := fun r => if r.isNone then op .serve else return ()) ?_ Nat.one_pos
    rw [← recover_eq]
    rfl
  exact henter.follow (daemon setup) hf

end Sample

open Sample in
theorem recovery_treats_iff_finished :
    ∃ s : Host, ∃ calls r c, s.store.Keyed ∧ (daemon setup).During storeAnswers 0 recoverRecords
      ((daemon setup).booted s.restarted) calls (.pure r) c ∧
      RecoveryTreats s.store.list calls c.state := by
  have hrun : ((recovered createdPartly ([.run 0 0, .run 0 1] ++ steps 0 3 ++ [.run 0 1] ++
      steps 0 10)).map fun f => (restoreFailures f.2.1).length) = some 0 := by
    decide +kernel
  obtain ⟨⟨s, calls, r, c⟩, hrec, hnone⟩ := Option.map_eq_some_iff.1 hrun
  obtain ⟨hk, h⟩ := during_recovered hrec
  have hnil : restoreFailures calls = [] := List.eq_nil_of_length_eq_zero hnone
  have htreats := (recovery_treats_iff setup s hk calls r c h).2 fun before w after _ hw => by
    rw [hnil] at hw
    cases hw
  exact ⟨s, calls, r, c, hk, h, htreats⟩

open Sample in
/-- The ports of `a` cannot be reserved again, and `b` is left in state creating. -/
theorem recovery_stops_early :
    ∃ s : Host, ∃ calls r c, s.store.Keyed ∧ (daemon setup).During storeAnswers 0 recoverRecords
      ((daemon setup).booted s.restarted) calls (.pure r) c ∧
      ¬ RecoveryTreats s.store.list calls c.state := by
  have hrun : ((recovered createdPartly [.run 0 0, .run 0 0, .run 0 1]).map fun f =>
      f.2.2.2.state.store.sandboxes.any fun v => v.state.isPending) = some true := by
    decide +kernel
  obtain ⟨⟨s, calls, r, c⟩, hrec, hpend⟩ := Option.map_eq_some_iff.1 hrun
  obtain ⟨hk, h⟩ := during_recovered hrec
  refine ⟨s, calls, r, c, hk, h, fun htreats => ?_⟩
  obtain ⟨v, hv, hvpend⟩ := List.any_eq_true.1 hpend
  rw [htreats.settled v hv] at hvpend
  cases hvpend

end Niflhel
