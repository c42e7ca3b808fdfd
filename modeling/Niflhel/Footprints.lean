import Niflhel.Lifecycle

/-!
# Which calls an operation makes

Footprints of the operations, read off their code: queries change nothing, and clean-up
operations neither insert records, nor commit whole records, nor touch bases, nor hand
sandboxes to monitors. The operations that settle one sandbox are followed more closely:
they ask and kill no VMM but its own, and leave no record creating, starting or removing.
-/

namespace Niflhel
open Concurrent
open Concurrent.Program (uses_pure uses_perform uses_bind)

def Op.isQuery : Op → Bool
  | .external _ | .list | .get _ | .volume _ => true
  | _ => false

def Op.isCleanup : Op → Bool
  | .lock _ | .unlock _ | .delete _ | .kill _ | .stopDNS _ | .releaseMonitor _ => true
  | .update _ e => e.whole.isNone
  | o => o.isQuery

def Op.isRecovery : Op → Bool
  | .reservePorts _ | .startDNS _ | .claimMonitor _ | .goMonitor _ | .serve => true
  | o => o.isCleanup

def Op.asks (v : Sandbox) : Op → Prop
  | .external (.alive x) => x = v
  | o => o.isQuery = true

def Edit.isSettlement : Edit → Bool
  | .killFailed _ | .finished _ _ _ | .deferRemoval _ | .interrupted _ | .release => true
  | _ => false

def Op.settles (v : Sandbox) : Op → Prop
  | .kill x => x = v
  | .external (.alive x) => x = v
  | .update i e => i = v.id ∧ e.isSettlement = true
  | .delete i => i = v.id
  | o => o.isCleanup = true

def Op.restores (v : Sandbox) : Op → Prop
  | .reservePorts x | .startDNS x | .claimMonitor x | .goMonitor x => x = v
  | o => o.settles v

def Op.isRestoring : Op → Bool
  | .update _ e => e.isSettlement
  | .serve => false
  | o => o.isRecovery

def Op.isBaseRemoval : Op → Bool
  | .list | .basesGet _ | .basesRemove _ _ => true
  | _ => false

/-- Calls that concern the base of a record: insertions, commits of whole records and the
removal of a base. -/
def Op.pins : Op → Bool
  | .insert _ | .basesRemove _ _ => true
  | .update _ e => e.whole.isSome
  | _ => false

variable {α : Type}

def Queries (p : Prog α) : Prop := p.Uses fun o => o.isQuery = true

def Cleans (p : Prog α) : Prop := p.Uses fun o => o.isCleanup = true

def Recovers (p : Prog α) : Prop := p.Uses fun o => o.isRecovery = true

def Asks (v : Sandbox) (p : Prog α) : Prop := p.Uses (Op.asks v)

def Settles (v : Sandbox) (p : Prog α) : Prop := p.Uses (Op.settles v)

def Restores (v : Sandbox) (p : Prog α) : Prop := p.Uses (Op.restores v)

def Unpinning (p : Prog α) : Prop := p.Uses fun o => o.pins = false

variable {p : Prog α}

theorem Queries.cleans (h : Queries p) : Cleans p := by
  refine h.mono fun o ho => ?_
  cases o <;> first | rfl | cases ho

theorem Asks.queries {v : Sandbox} (h : Asks v p) : Queries p := by
  refine h.mono fun o ho => ?_
  cases o <;> first | rfl | cases ho

theorem Asks.settles {v : Sandbox} (h : Asks v p) : Settles v p := by
  refine h.mono fun o ho => ?_
  cases o with
  | external c =>
    cases c with
    | alive x => exact ho
    | _ => rfl
  | list | get | volume => rfl
  | _ => cases ho

theorem Edit.isSettlement.whole {e : Edit} (h : e.isSettlement = true) : e.whole = none := by
  cases e <;> first | rfl | cases h

theorem Settles.cleans {v : Sandbox} (h : Settles v p) : Cleans p := by
  refine h.mono fun o ho => ?_
  cases o with
  | update id e => exact Option.isNone_iff_eq_none.2 (Edit.isSettlement.whole ho.2)
  | _ => first | rfl | exact ho

theorem Settles.restores {v : Sandbox} (h : Settles v p) : Restores v p := by
  refine h.mono fun o ho => ?_
  cases o <;> first | exact ho | cases ho

theorem Op.restores.restoring {v : Sandbox} {o : Op} (h : o.restores v) : o.isRestoring = true := by
  cases o <;> first | rfl | exact h | exact h.2

theorem Op.isRestoring.recovery {o : Op} (h : o.isRestoring = true) : o.isRecovery = true := by
  cases o with
  | update id e => exact Option.isNone_iff_eq_none.2 (Edit.isSettlement.whole h)
  | _ => first | rfl | exact h

theorem Restores.recovers {v : Sandbox} (h : Restores v p) : Recovers p :=
  h.mono fun _ ho => Op.isRestoring.recovery ho.restoring

theorem Cleans.recovers (h : Cleans p) : Recovers p := by
  refine h.mono fun o ho => ?_
  cases o <;> first | rfl | exact ho

theorem Recovers.unpinning (h : Recovers p) : Unpinning p := by
  refine h.mono fun o ho => ?_
  cases o with
  | update id e =>
    have hwhole : e.whole.isNone = true := ho
    simpa [Op.pins] using hwhole
  | insert | basesRemove => cases ho
  | _ => rfl

theorem Cleans.unpinning (h : Cleans p) : Unpinning p := h.recovers.unpinning

theorem cleans_locked (k : String) (hp : Cleans p) : Cleans (locked k p) :=
  uses_perform rfl fun _ => uses_bind hp fun a => uses_perform rfl fun _ => uses_pure a

theorem settles_locked {v : Sandbox} (k : String) (hp : Settles v p) : Settles v (locked k p) :=
  uses_perform rfl fun _ => uses_bind hp fun a => uses_perform rfl fun _ => uses_pure a

variable (v : Sandbox)

theorem asks_removeResources : Asks v (removeResources v) :=
  ⟨rfl, fun _ => ⟨rfl, fun _ => trivial⟩⟩

theorem queries_removeResources : Queries (removeResources v) :=
  (asks_removeResources v).queries

theorem asks_awaitShutdown (n : ℕ) : Asks v (awaitShutdown v n) := by
  induction n with
  | zero => exact trivial
  | succ n ih =>
    refine ⟨rfl, fun alive => ?_⟩
    cases alive with
    | true => exact ih
    | false => exact trivial

theorem asks_requestShutdown : Asks v (requestShutdown v) := by
  refine ⟨rfl, fun client => ?_⟩
  cases client with
  | some e => exact trivial
  | none =>
    refine ⟨rfl, fun answer => ?_⟩
    cases answer with
    | some e => exact trivial
    | none => exact ⟨rfl, fun n => asks_awaitShutdown v n⟩

theorem queries_requestShutdown : Queries (requestShutdown v) :=
  (asks_requestShutdown v).queries

theorem asks_poll (failures : ℕ) : Asks v (poll v failures) := by
  refine ⟨rfl, fun client => ?_⟩
  cases client with
  | some e => exact trivial
  | none => ?_
  refine ⟨rfl, fun logs => ?_⟩
  cases logs with
  | some e => exact trivial
  | none => ?_
  refine ⟨rfl, fun status => ?_⟩
  cases status with
  | error e => exact trivial
  | ok st =>
    dsimp only [Program.bind]
    split
    · exact trivial
    · cases st.exit <;> exact trivial

theorem queries_poll (failures : ℕ) : Queries (poll v failures) :=
  (asks_poll v failures).queries

def waitRound (v : Sandbox) (more : Prog (Except String Exit)) : Prog (Except String Exit) := do
  if v.state = .created then return .error "container has not started"
  if let some exit := v.exit then return .ok exit
  if v.state = .failed then return .ok ⟨none, v.reason, false, v.updated⟩
  more

theorem queries_waitRounds (id : String) (n : ℕ) : Queries (waitRounds id n) := by
  have hround : ∀ more : Prog (Except String Exit), Queries more → ∀ v : Sandbox,
      Queries (waitRound v more) := by
    intro more hmore v
    unfold waitRound
    split
    · exact trivial
    · cases v.exit with
      | some exit => exact trivial
      | none =>
        dsimp only
        split
        · exact trivial
        · exact hmore
  induction n with
  | zero =>
    unfold waitRounds
    refine ⟨rfl, fun got => ?_⟩
    cases got with
    | error e => exact ⟨rfl, fun saved => by cases saved <;> exact trivial⟩
    | ok v => exact hround (pure (.error "context canceled")) trivial v
  | succ n ih =>
    unfold waitRounds
    refine ⟨rfl, fun got => ?_⟩
    cases got with
    | error e => exact ⟨rfl, fun saved => by cases saved <;> exact trivial⟩
    | ok v => exact hround (waitRounds id n) ih v

theorem queries_wait (id : String) : Queries (wait id) := ⟨rfl, fun n => queries_waitRounds id n⟩

theorem queries_requestStop (seconds : ℤ) : Queries (requestStop v seconds) := by
  refine ⟨rfl, fun client => ?_⟩
  cases client with
  | some e => exact trivial
  | none => exact ⟨rfl, fun _ => trivial⟩

theorem queries_checkVolumes (mounts : List Mount) : Queries (checkVolumes mounts) := by
  induction mounts with
  | nil => exact trivial
  | cons m rest ih =>
    refine ⟨rfl, fun got => ?_⟩
    cases got with
    | error e => exact trivial
    | ok volume => exact ih

theorem settles_conclude (exit : Exit) (autoRemove : Bool) :
    Settles v (conclude v exit autoRemove) := by
  refine uses_perform rfl fun _ => uses_bind (asks_removeResources v).settles fun r => ?_
  refine uses_perform ⟨rfl, rfl⟩ fun _ => ?_
  split
  · exact uses_perform rfl fun
      | some e => uses_perform ⟨rfl, rfl⟩ fun _ => uses_pure ()
      | none => uses_perform rfl fun _ => uses_perform rfl fun _ => uses_pure ()
  · exact uses_pure ()

theorem settles_finishLocked (exit : Exit) : Settles v (finishLocked v exit) := by
  refine uses_perform rfl fun
    | .error e => uses_pure ()
    | .ok current => ?_
  dsimp only
  split
  · exact uses_pure ()
  · exact uses_bind (asks_requestShutdown v).settles fun _ =>
      uses_perform rfl fun
        | some e => uses_perform ⟨rfl, rfl⟩ fun _ => uses_pure ()
        | none => settles_conclude v exit current.spec.autoRemove

theorem settles_finish (exit : Exit) : Settles v (finish v exit) :=
  settles_locked v.id (settles_finishLocked v exit)

theorem settles_monitorRounds (n failures : ℕ) : Settles v (monitorRounds v n failures) := by
  induction n generalizing failures with
  | zero => exact uses_pure ()
  | succ n ih =>
    refine uses_perform rfl fun
      | .error e => uses_pure ()
      | .ok current => ?_
    dsimp only
    split
    · exact uses_pure ()
    · refine uses_bind (asks_poll v failures).settles fun
        | .inr exit => uses_perform rfl fun _ => settles_finish v exit
        | .inl failures' => ?_
      dsimp only
      split
      · exact uses_perform rfl fun now => settles_finish v (controlLost now)
      · exact ih failures'

theorem settles_monitorLoop : Settles v (monitorLoop v) :=
  uses_perform rfl fun n => uses_bind (settles_monitorRounds v n 0) fun _ =>
    uses_perform rfl fun _ => uses_pure ()

def awaitStop (v : Sandbox) : Prog (Option String) := do
  match ← wait v.id with
  | .error e => return some e
  | .ok _ => return none

theorem queries_awaitStop : Queries (awaitStop v) :=
  uses_bind (queries_wait v.id) fun
    | .error _ => uses_pure _
    | .ok _ => uses_pure _

theorem cleans_stop (id : String) (seconds : ℤ) : Cleans (stop id seconds) := by
  unfold stop
  refine uses_perform rfl fun got => ?_
  cases got with
  | error e => exact uses_pure _
  | ok v =>
    dsimp only
    split
    · exact uses_pure _
    split
    · exact uses_pure _
    refine uses_perform rfl fun _ =>
      uses_bind (queries_requestStop v seconds).cleans fun answer => ?_
    split
    · exact uses_perform rfl fun now =>
        uses_bind (settles_finish v (forcedStop now)).cleans fun _ => (queries_awaitStop v).cleans
    · exact (queries_awaitStop v).cleans

theorem cleans_removeLocked (id : String) (force : Bool) : Cleans (removeLocked id force) := by
  refine uses_perform rfl fun
    | .error e => uses_pure _
    | .ok v => ?_
  dsimp only
  split
  · exact uses_pure _
  refine uses_perform rfl fun
    | some e => uses_pure _
    | none => ?_
  refine uses_perform rfl fun _ => uses_perform rfl fun
    | some e => uses_pure _
    | none => ?_
  refine uses_perform rfl fun
    | some e => uses_pure _
    | none => ?_
  exact uses_perform rfl fun _ => uses_perform rfl fun
    | some e => uses_pure _
    | none => ⟨rfl, fun _ => trivial⟩

theorem cleans_remove (id : String) (force : Bool) : Cleans (remove id force) := by
  exact uses_perform rfl fun
    | .error e => uses_pure _
    | .ok v => cleans_locked v.id (cleans_removeLocked v.id force)

theorem cleans_startFail (err : String) : Cleans (startFail v err) := by
  refine uses_perform rfl fun
    | some e => uses_perform rfl fun _ => uses_pure _
    | none => ?_
  exact uses_perform rfl fun _ => uses_bind (queries_removeResources v).cleans fun _ =>
    uses_perform rfl fun _ => uses_pure _

/-- `Create` behind the insertion of the record. -/
def completeCreate (v : Sandbox) : Prog (Except String Sandbox) := do
  match ← prepare v with
  | .error e => createFail v.id e
  | .ok w =>
    let w := { w with state := .created }
    match ← storeUpdate v.id (.createCommit w) with
    | .error e => createFail v.id e
    | .ok _ => return .ok w

theorem cleans_createFail (id e : String) : Cleans (createFail id e) :=
  uses_perform rfl fun _ => uses_perform rfl fun _ => uses_pure _

theorem settles_interrupt : Settles v (interrupt v) := by
  refine uses_perform rfl fun
    | some e => uses_perform ⟨rfl, rfl⟩ fun _ => uses_pure ()
    | none => ?_
  exact uses_bind (asks_removeResources v).settles fun _ =>
    uses_perform ⟨rfl, rfl⟩ fun _ => uses_pure ()

theorem settles_retryCleanup : Settles v (retryCleanup v) := by
  refine uses_perform rfl fun
    | some e => uses_pure ()
    | none => ?_
  refine uses_perform rfl fun _ => uses_bind (asks_removeResources v).settles fun r => ?_
  obtain ⟨netErr, vmErr⟩ := r
  dsimp only
  split
  · exact uses_perform ⟨rfl, rfl⟩ fun _ => uses_pure ()
  · exact uses_pure ()

theorem restores_monitor : Restores v (monitor v) := by
  exact uses_perform rfl fun
    | true => ⟨rfl, fun _ => trivial⟩
    | false => uses_pure ()

theorem recovers_launched (b : Base.Bundle) :
    ∃ next, launch v b = .call (.vmStart v b) next ∧ ∀ r, Recovers (next r) := by
  refine ⟨_, rfl, fun r => ?_⟩
  obtain ⟨pid, pidStart, err⟩ := r
  cases err with
  | some e => exact (cleans_startFail _ e).recovers
  | none => ?_
  refine uses_perform rfl fun
    | .error e => (cleans_startFail _ e).recovers
    | .ok now => ?_
  refine uses_perform rfl fun
    | some e => (cleans_startFail _ e).recovers
    | none => ?_
  refine uses_perform rfl fun
    | some e => (cleans_startFail _ e).recovers
    | none => ?_
  exact uses_perform rfl fun
    | .error e => (cleans_startFail _ e).recovers
    | .ok now' => uses_bind (restores_monitor _).recovers fun _ => uses_pure _

theorem unpinning_launch (b : Base.Bundle) : Unpinning (launch v b) := by
  obtain ⟨next, heq, hnext⟩ := recovers_launched v b
  rw [heq]
  exact ⟨rfl, fun r => (hnext r).unpinning⟩

theorem unpinning_boot (b : Base.Bundle) : Unpinning (boot v b) := by
  refine uses_perform rfl fun
    | some e => (cleans_startFail v e).unpinning
    | none => ?_
  refine uses_perform rfl fun
    | some e => (cleans_startFail v e).unpinning
    | none => ?_
  dsimp only
  split
  · exact uses_perform rfl fun
      | some e => (cleans_startFail v e).unpinning
      | none => unpinning_launch v b
  · exact unpinning_launch v b

theorem restores_adopt : Restores v (adopt v) := by
  have hmonitor : Restores v (do monitor v; return none : Prog (Option String)) :=
    uses_bind (restores_monitor v) fun _ => uses_pure _
  refine uses_perform rfl fun
    | some e => uses_pure _
    | none => ?_
  dsimp only
  split
  · exact uses_perform rfl fun
      | some e => uses_pure _
      | none => hmonitor
  · exact hmonitor

/-- What recovery does with a sandbox that ran before. -/
def resumeOne (v : Sandbox) : Prog (Option String) := do
  if ← external (.alive v) then adopt v
  else
    finish v (hostStopped (← external .now))
    return none

theorem restores_recoverOne : Restores v (recoverOne v) := by
  have hresume : Restores v (resumeOne v) := by
    refine uses_perform rfl fun
      | true => restores_adopt v
      | false => ?_
    exact uses_perform rfl fun now =>
      uses_bind (settles_finish v (hostStopped now)).restores fun _ => uses_pure _
  have hinterrupt : Restores v (do
      interrupt v
      return none : Prog (Option String)) :=
    uses_bind (settles_interrupt v).restores fun _ => uses_pure _
  unfold recoverOne
  split
  · exact hresume
  · exact hresume
  · exact hinterrupt
  · exact hinterrupt
  · exact hinterrupt
  · split
    · exact uses_pure _
    · exact uses_bind (settles_retryCleanup v).restores fun _ => uses_pure _
  · exact uses_pure _
  · exact uses_pure _

theorem restoring_recoverAll (all : List Sandbox) :
    (recoverAll all).Uses fun o => o.isRestoring = true := by
  induction all with
  | nil => exact uses_pure _
  | cons v rest ih =>
    exact uses_bind ((restores_recoverOne v).mono fun _ ho => ho.restoring) fun
      | some e => uses_pure _
      | none => ih

theorem recovers_recoverAll (all : List Sandbox) : Recovers (recoverAll all) :=
  (restoring_recoverAll all).mono fun _ ho => Op.isRestoring.recovery ho

theorem recovers_recover : Recovers recover := by
  refine uses_perform rfl fun
    | .error e => uses_pure ()
    | .ok all => ?_
  refine uses_bind (recovers_recoverAll all) fun r => ?_
  split
  · exact ⟨rfl, fun _ => trivial⟩
  · exact uses_pure ()

/-- Calls outside the sandbox table and the processes, other than the removal of a base. -/
def Op.isStorage : Op → Bool
  | .putVolume _ | .deleteVolume _ | .basesGet _ | .basesPull _ _ | .basesImport _ _ _ _ => true
  | o => o.isQuery

def Stores (p : Prog α) : Prop := p.Uses fun o => o.isStorage = true

theorem removal_baseRmLocked (ref : String) :
    (baseRmLocked ref).Uses fun o => o.isBaseRemoval = true := by
  refine uses_perform rfl fun
    | .error e => uses_pure _
    | .ok b => ?_
  refine uses_perform rfl fun
    | .error e => uses_pure _
    | .ok all => ?_
  dsimp only
  split
  · exact uses_pure _
  · exact uses_perform rfl fun _ => uses_pure _

theorem stores_basePull (ref : String) : Stores (basePull ref) :=
  uses_perform rfl fun _ => uses_pure _

theorem stores_baseLoad (ref : String) (v : Base.Signed) (kernel rootfs : Bytes) :
    Stores (baseLoad ref v kernel rootfs) := by
  unfold baseLoad
  split
  · exact uses_pure _
  · exact uses_perform rfl fun _ => uses_pure _

theorem puts_volumeCreateLocked (v : Volume) :
    (volumeCreateLocked v).Uses fun o => o.isQuery = true ∨ ∃ w, o = .putVolume w := by
  unfold volumeCreateLocked
  split
  · exact uses_pure _
  refine uses_perform (Or.inl rfl) fun now => uses_perform (Or.inl rfl) fun
    | some e => uses_pure _
    | none => ?_
  exact uses_perform (Or.inr ⟨_, rfl⟩) fun
    | some e => uses_perform (Or.inl rfl) fun _ => uses_pure _
    | none => uses_pure _

theorem stores_volumeCreateLocked (v : Volume) : Stores (volumeCreateLocked v) := by
  refine (puts_volumeCreateLocked v).mono fun o ho => ?_
  rcases ho with ho | ⟨w, rfl⟩
  · cases o <;> first | rfl | cases ho
  · rfl

theorem stores_volumeRmLocked (name : String) : Stores (volumeRmLocked name) := by
  refine uses_perform rfl fun
    | .error e => uses_pure _
    | .ok v => ?_
  refine uses_perform rfl fun
    | .error e => uses_pure _
    | .ok all => ?_
  dsimp only
  split
  · exact uses_pure _
  · exact uses_perform rfl fun
      | some e => uses_pure _
      | none => ⟨rfl, fun _ => trivial⟩

end Niflhel
