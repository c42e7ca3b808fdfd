import Niflhel.Store

/-!
# Record updates of the daemon

Every callback the daemon passes to `Store.Update`, as data. What an update may change is
stated once here: no edit changes the keys or, the two whole-record writes apart, the
specification; only a start changes the generation.
-/

namespace Niflhel

inductive Edit where
  | createFail (msg : String)
  | createCommit (v : Sandbox)
  | startCommit (v : Sandbox)
  | startFail (pid : ℤ) (pidStart : String) (released : Bool) (reason : String)
  | setPID (pid : ℤ) (pidStart : String)
  | running
  | killFailed (msg : String)
  | finished (exit : Exit) (netErr vmErr : Option String)
  | deferRemoval (msg : String)
  | stopping
  | removing
  | interrupted (released : Bool)
  | release
  deriving DecidableEq, Repr

def errorText : Option String → String
  | none => "<nil>"
  | some e => e

/-- The update callbacks of `Create`, `Start`, `finish`, `Stop`, `Remove` and `Recover`. -/
def Edit.apply : Edit → Sandbox → Except String Sandbox
  | .createFail msg, x => transition x .failed msg
  | .createCommit v, _ => .ok v
  | .startCommit v, _ => .ok v
  | .startFail pid pidStart released reason, x =>
      transition { x with pid := pid, pidStart := pidStart, vmResourcesReleased := released }
        .failed reason
  | .setPID pid pidStart, x => .ok { x with pid := pid, pidStart := pidStart }
  | .running, x => transition x .running ""
  | .killFailed msg, x => .ok { x with
      state := .failed
      reason := "VMM termination failed: " ++ msg
      vmResourcesReleased := false }
  | .finished exit netErr vmErr, x =>
      let clean := netErr.isNone && vmErr.isNone
      .ok { x with
        state := if clean then .exited else .failed
        exit := some exit
        pid := 0
        pidStart := ""
        vmResourcesReleased := clean
        reason := if clean then x.reason
          else "cleanup failed: " ++ errorText netErr ++ " " ++ errorText vmErr }
  | .deferRemoval msg, x => .ok { x with reason := "automatic removal deferred: " ++ msg }
  | .stopping, x => transition x .stopping ""
  | .removing, x => .ok { x with state := .removing }
  | .interrupted released, x => .ok { x with
      state := .failed
      reason := "interrupted operation; remove and recreate"
      vmResourcesReleased := released }
  | .release, x => .ok { x with pid := 0, pidStart := "", vmResourcesReleased := true }

variable {e : Edit} {v x y : Sandbox}

theorem transition_eq_ok {next : State} {reason : String} (h : transition x next reason = .ok y) :
    (x.state = next ∧ y = x) ∨
      (next ∈ transitions x.state ∧ y = { x with state := next, reason := reason }) := by
  unfold transition at h
  split_ifs at h with hs ht
  · exact Or.inl ⟨hs, (Except.ok.inj h).symm⟩
  · exact Or.inr ⟨ht, (Except.ok.inj h).symm⟩

def Edit.whole : Edit → Option Sandbox
  | .createCommit v => some v
  | .startCommit v => some v
  | _ => none

theorem Edit.apply_whole (h : e.apply x = .ok y) (he : e.whole = some v) : y = v := by
  cases e <;> simp_all [Edit.whole, Edit.apply]

/-- The other edits change the lifecycle fields alone. -/
theorem Edit.apply_frame (h : e.apply x = .ok y) (he : e.whole = none) : y = { x with
      state := y.state
      reason := y.reason
      exit := y.exit
      pid := y.pid
      pidStart := y.pidStart
      vmResourcesReleased := y.vmResourcesReleased } := by
  cases e with
  | createCommit | startCommit => cases he
  | createFail | running | stopping => rcases transition_eq_ok h with ⟨_, rfl⟩ | ⟨_, rfl⟩ <;> rfl
  | startFail pid pidStart released reason =>
    rcases transition_eq_ok h with ⟨_, rfl⟩ | ⟨_, rfl⟩ <;> rfl
  | setPID | killFailed | finished | deferRemoval | removing | interrupted | release => cases h; rfl

def Edit.releases : Edit → Bool
  | .createFail _ | .createCommit _ | .finished _ _ _ | .removing | .release => true
  | .startFail _ _ released _ | .interrupted released => released
  | _ => false

/-- Any other edit keeps a reservation. -/
theorem Edit.apply_reserves (h : e.apply x = .ok y) (he : e.releases = false)
    (hwhole : e.whole = none) (hx : reservesVMResources x = true) :
    reservesVMResources y = true := by
  cases e with
  | startFail pid pidStart released reason =>
    obtain rfl : released = false := he
    rcases transition_eq_ok h with ⟨hs, rfl⟩ | ⟨_, rfl⟩
    · have hs' : x.state = .failed := hs
      simp [reservesVMResources, hs']
    · simp [reservesVMResources]
  | running | stopping =>
    rcases transition_eq_ok h with ⟨_, rfl⟩ | ⟨_, rfl⟩
    · exact hx
    · simp [reservesVMResources]
  | setPID | deferRemoval => cases h; exact hx
  | killFailed msg => cases h; simp [reservesVMResources]
  | interrupted released =>
    obtain rfl : released = false := he
    cases h
    simp [reservesVMResources]
  | createCommit | startCommit => cases hwhole
  | createFail | finished | removing | release => cases he

def Edit.quarantines : Edit → Bool
  | .killFailed _ => true
  | .finished _ netErr vmErr => netErr.isSome || vmErr.isSome
  | .startFail _ _ released _ | .interrupted released => !released
  | _ => false

/-- Apart from whole records, a reservation begins only with an incomplete cleanup, which
leaves the record failed and not released. -/
theorem Edit.apply_quarantines (h : e.apply x = .ok y) (hwhole : e.whole = none)
    (hnew : x.state = .creating → x.vmResourcesReleased = true)
    (hx : reservesVMResources x = false) (hy : reservesVMResources y = true) :
    e.quarantines = true ∧ y.state = .failed ∧ y.vmResourcesReleased = false := by
  cases e with
  | createFail | running | stopping =>
    rcases transition_eq_ok h with ⟨_, rfl⟩ | ⟨ht, rfl⟩
    · rw [hx] at hy
      cases hy
    · cases hs : x.state <;> simp_all [transitions, reservesVMResources]
  | startFail pid pidStart released reason =>
    rcases transition_eq_ok h with ⟨hs, rfl⟩ | ⟨_, rfl⟩
    · have hs' : x.state = .failed := hs
      simp_all [reservesVMResources, Edit.quarantines]
    · simp_all [reservesVMResources, Edit.quarantines]
  | setPID | deferRemoval =>
    cases h
    exact absurd hy (by simpa [reservesVMResources] using hx)
  | killFailed msg =>
    cases h
    simp [Edit.quarantines]
  | finished exit netErr vmErr =>
    cases h
    cases netErr <;> cases vmErr <;> simp_all [reservesVMResources, Edit.quarantines]
  | removing =>
    cases h
    simp [reservesVMResources] at hy
  | interrupted released =>
    cases h
    simp_all [reservesVMResources, Edit.quarantines]
  | release =>
    cases h
    exfalso
    cases hs : x.state <;> simp_all [reservesVMResources]
  | createCommit | startCommit => cases hwhole

/-- The state that an edit sets without asking the transition table. -/
def Edit.forces : Edit → Option State
  | .killFailed _ | .interrupted _ => some .failed
  | .removing => some .removing
  | .finished _ netErr vmErr => some (if netErr.isNone && vmErr.isNone then .exited else .failed)
  | _ => none

/-- Whole records apart, an edit keeps the state, moves along the table to failed, running
or stopping, or forces a state. -/
theorem Edit.apply_state (h : e.apply x = .ok y) (hwhole : e.whole = none) : y.state = x.state ∨
      (y.state ∈ transitions x.state ∧
        (y.state = .failed ∨ y.state = .running ∨ y.state = .stopping)) ∨
      e.forces = some y.state := by
  cases e with
  | createFail | startFail =>
    rcases transition_eq_ok h with ⟨_, rfl⟩ | ⟨ht, rfl⟩
    · exact Or.inl rfl
    · exact Or.inr (Or.inl ⟨ht, Or.inl rfl⟩)
  | running =>
    rcases transition_eq_ok h with ⟨_, rfl⟩ | ⟨ht, rfl⟩
    · exact Or.inl rfl
    · exact Or.inr (Or.inl ⟨ht, Or.inr (Or.inl rfl)⟩)
  | stopping =>
    rcases transition_eq_ok h with ⟨_, rfl⟩ | ⟨ht, rfl⟩
    · exact Or.inl rfl
    · exact Or.inr (Or.inl ⟨ht, Or.inr (Or.inr rfl)⟩)
  | setPID | deferRemoval | release => cases h; exact Or.inl rfl
  | killFailed | removing | interrupted | finished => cases h; exact Or.inr (Or.inr rfl)
  | createCommit | startCommit => cases hwhole

theorem Edit.forces_eq_some {next : State} (h : e.forces = some next) :
    next = .failed ∨ next = .removing ∨
      (next = .exited ∧ ∃ exit netErr vmErr, e = .finished exit netErr vmErr) := by
  cases e with
  | killFailed | interrupted => exact Or.inl (Option.some.inj h).symm
  | removing => exact Or.inr (Or.inl (Option.some.inj h).symm)
  | finished exit netErr vmErr =>
    cases h
    split
    · exact Or.inr (Or.inr ⟨rfl, exit, netErr, vmErr, rfl⟩)
    · exact Or.inl rfl
  | _ => cases h

theorem Edit.apply_active (h : e.apply x = .ok y) (hwhole : e.whole = none)
    (hy : y.state.isActive = true) : x.state.isActive = true := by
  rcases Edit.apply_state h hwhole with hs | ⟨ht, hs⟩ | hf
  · rwa [← hs]
  · rcases hs with hs | hs | hs
    · rw [hs] at hy
      cases hy
    · cases hx : x.state <;> simp_all [transitions, State.isActive]
    · cases hx : x.state <;> simp_all [transitions, State.isActive]
  · rcases Edit.forces_eq_some hf with hs | hs | ⟨hs, _⟩ <;> simp [hs, State.isActive] at hy

theorem Edit.apply_creating (h : e.apply x = .ok y) (hwhole : e.whole = none)
    (hy : y.state = .creating) : x.state = .creating ∧
      (y.vmResourcesReleased = x.vmResourcesReleased ∨ y.vmResourcesReleased = true) := by
  have hx : x.state = .creating := by
    rcases Edit.apply_state h hwhole with hs | ⟨_, hs⟩ | hf
    · rw [← hs, hy]
    · rw [hy] at hs
      simp at hs
    · rw [hy] at hf
      simpa using Edit.forces_eq_some hf
  refine ⟨hx, ?_⟩
  cases e with
  | createFail | running | stopping =>
    rcases transition_eq_ok h with ⟨_, rfl⟩ | ⟨_, rfl⟩ <;> exact Or.inl rfl
  | startFail pid pidStart released reason =>
    rcases transition_eq_ok h with ⟨hs, rfl⟩ | ⟨_, rfl⟩
    · exact absurd (hx.symm.trans hs) (by simp)
    · cases hy
  | setPID | deferRemoval => cases h; exact Or.inl rfl
  | release => cases h; exact Or.inr rfl
  | killFailed | removing | interrupted => cases h; cases hy
  | finished exit netErr vmErr =>
    cases h
    cases netErr <;> cases vmErr <;> cases hy
  | createCommit | startCommit => cases hwhole

theorem Edit.apply_exit (h : e.apply x = .ok y) (hwhole : e.whole = none)
    (hfin : ∀ exit netErr vmErr, e ≠ .finished exit netErr vmErr) : y.exit = x.exit := by
  cases e with
  | createFail | running | stopping => rcases transition_eq_ok h with ⟨_, rfl⟩ | ⟨_, rfl⟩ <;> rfl
  | startFail pid pidStart released reason =>
    rcases transition_eq_ok h with ⟨_, rfl⟩ | ⟨_, rfl⟩ <;> rfl
  | finished exit netErr vmErr => exact absurd rfl (hfin exit netErr vmErr)
  | createCommit | startCommit => cases hwhole
  | setPID | killFailed | deferRemoval | removing | interrupted | release => cases h; rfl

end Niflhel
