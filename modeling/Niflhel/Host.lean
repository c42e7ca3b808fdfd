import Niflhel.Base
import Niflhel.Edits
import Niflhel.RelyGuarantee

/-!
# The host and the calls of the daemon

`Host` is what the daemon's goroutines share: the database, the base store, the mutexes
and maps of the `Daemon` struct, and the VMM processes. `Op` lists their atomic calls and
`exec` what a call may do and answer. Calls on images, disks, namespaces and guests are
`External`: they may answer anything and change nothing of this state. Every call that
can fail in the source may fail here at any time, then without effect on the state.
-/

namespace Niflhel
open Concurrent

def allocations : String := "allocations"

structure Layer where
  digest : String
  size : ℤ
  deriving DecidableEq, Repr

structure Image where
  ref : String
  digest : String
  config : ImageConfig
  layers : List Layer
  deriving DecidableEq, Repr

/-- Requests the daemon makes to a guest agent, apart from logs and status. -/
inductive GuestCall where
  | start (operation : String)
  | stop (timeout : ℤ)
  | shutdown
  deriving DecidableEq, Repr

inductive External where
  | now
  | rounds
  | check
  | mkdirAll (id : String)
  | removeDisks (id : String)
  | removeAll (id : String)
  | imagesPull (ref policy : String)
  | mkdirTemp (id : String)
  | carrier (id : String) (img : Image)
  | disk (id name : String) (size : ℤ)
  | volumeDisk (v : Volume)
  | removeVolume (name : String)
  | availableMemory
  | networkPrepare (v : Sandbox)
  | networkRemove (v : Sandbox)
  | vmRemove (v : Sandbox)
  | ready (v : Sandbox)
  | client (v : Sandbox)
  | call (v : Sandbox) (c : GuestCall)
  | logs (v : Sandbox)
  | status (v : Sandbox)
  | drain (v : Sandbox)
  | alive (v : Sandbox)
  | saveResult (v : Sandbox) (exit : Exit)
  | findResult (id : String)

abbrev External.Reply : External → Type
  | .now => Time
  | .rounds => ℕ
  | .imagesPull _ _ => Except String Image
  | .availableMemory => Except String ℤ
  | .status _ => Except String GuestStatus
  | .alive _ => Bool
  | .findResult _ => Except String Exit
  | .removeDisks _ | .drain _ => Unit
  | _ => Option String

/-- Atomic calls. The second argument of `basesRemove` is not passed in the source: it is
the digest for which the caller made its reference check. -/
inductive Op where
  | external (c : External)
  | lock (key : String)
  | unlock (key : String)
  | list
  | get (id : String)
  | volume (name : String)
  | newID
  | insert (v : Sandbox)
  | update (id : String) (e : Edit)
  | delete (id : String)
  | putVolume (v : Volume)
  | deleteVolume (name : String)
  | basesGet (ref : String)
  | basesPull (ref policy : String)
  | basesImport (ref : String) (v : Base.Signed) (kernel rootfs : Bytes)
  | basesRemove (ref checked : String)
  | reservePorts (v : Sandbox)
  | startDNS (v : Sandbox)
  | stopDNS (id : String)
  | vmStart (v : Sandbox) (b : Base.Bundle)
  | kill (v : Sandbox)
  | claimMonitor (v : Sandbox)
  | goMonitor (v : Sandbox)
  | releaseMonitor (v : Sandbox)
  | serve

/-- Answers of calls. An import also reports how many of its file writes succeeded, a
removal how many deletions; these numbers are not visible to the caller. -/
abbrev Op.Reply : Op → Type
  | .external c => c.Reply
  | .list => Except String (List Sandbox)
  | .get _ => Except String Sandbox
  | .volume _ => Except String Volume
  | .newID => String
  | .update _ _ => Except String Time
  | .basesGet _ => Except String Base.Bundle
  | .basesPull _ _ => Except String Base.Bundle × Except String Base.Fetched × ℕ
  | .basesImport _ _ _ _ => Except String Base.Bundle × ℕ
  | .basesRemove _ _ => Option String × ℕ
  | .vmStart _ _ => ℤ × String × Option String
  | .claimMonitor _ => Bool
  | .insert _ | .delete _ | .putVolume _ | .deleteVolume _ | .reservePorts _ | .startDNS _
  | .kill _ => Option String
  | _ => Unit

structure Host where
  store : Store
  bases : Base.Files
  /-- Mutex holders. -/
  locks : String → Option ℕ
  /-- Sandboxes whose VMM process may exist: `Backend.Start` was called and no
  `Backend.Kill` has returned nil since. -/
  live : String → Bool
  dns : String → Bool
  ports : String → List Port
  monitors : String → ℕ
  /-- The thread that runs `Recover`, until the listener opens. -/
  booting : Option ℕ
  /-- Identifier and name of every record ever inserted. -/
  created : List (String × String)
  /-- Sandboxes handed to a monitor since the daemon started. -/
  monitored : List String
  /-- Sandboxes whose record has reserved since its last admission by `Start`. -/
  admitted : String → Bool

namespace Host

def reserves (s : Store) (id : String) : Bool :=
  match s.row id with
  | some v => reservesVMResources v
  | none => false

def insert (s : Host) (v : Sandbox) (st : Store) : Host :=
  { s with store := st, created := (v.id, v.name) :: s.created }

def isAdmission : Edit → Bool
  | .startCommit _ => true
  | _ => false

def update (s : Host) (id : String) (e : Edit) (st : Store) : Host :=
  { s with
    store := st
    admitted := Function.update s.admitted id
      ((s.admitted id || isAdmission e) && reserves st id) }

def delete (s : Host) (id : String) : Host :=
  { s with store := s.store.delete id, admitted := Function.update s.admitted id false }

/-- No sandbox was named after the identifier of another one. -/
def NoAlias (s : Host) : Prop :=
  ∀ a ∈ s.created, ∀ b ∈ s.created, a.2 = b.1 → a.1 = b.1

def restarted (s : Host) : Host :=
  { s with
    locks := fun _ => none
    dns := fun _ => false
    ports := fun _ => []
    monitors := fun _ => 0
    booting := some 0
    monitored := [] }

end Host

structure Setup where
  crypto : Base.Crypto
  trust : String → String
  defaultBase : String

/-- A call that answered with an error changed nothing. -/
def unlessError {α : Type} (s : Host) (r : Option String) (next : Option α) (f : α → Host) :
    Option Host :=
  match r with
  | some _ => some s
  | none => next.map f

/-- The effect of thread `t` performing a call that answers `r`, if it can answer so. -/
def exec (D : Setup) (t : ℕ) (s : Host) : (o : Op) → o.Reply → Option Host
  | .external _, _ => some s
  | .lock k, _ =>
      if s.locks k = none then some { s with locks := Function.update s.locks k (some t) } else none
  | .unlock k, _ =>
      -- Unlocking a mutex that is not held is fatal.
      if s.locks k = some t then some { s with locks := Function.update s.locks k none } else none
  | .list, .ok all => if all = s.store.list then some s else none
  | .list, .error _ => some s
  | .get id, .ok v => if s.store.get id = .ok v then some s else none
  | .get _, .error _ => some s
  | .volume name, .ok v => if s.store.volume name = .ok v then some s else none
  | .volume _, .error _ => some s
  | .newID, id => if isID id ∧ ∀ a ∈ s.created, a.1 ≠ id then some s else none
  | .insert v, r => unlessError s r (s.store.create v).toOption (s.insert v)
  | .update id e, .ok now => (s.store.update id now e.apply).toOption.map (s.update id e)
  | .update _ _, .error _ => some s
  | .delete id, r => unlessError s r (some ()) fun _ => s.delete id
  | .putVolume v, r => unlessError s r (s.store.putVolume v).toOption fun st => { s with store := st }
  | .deleteVolume name, r => unlessError s r (some (s.store.deleteVolume name))
      fun st => { s with store := st }
  | .basesGet ref, .ok b => if Base.get D.crypto D.trust s.bases ref = .ok b then some s else none
  | .basesGet _, .error _ => some s
  | .basesPull ref policy, (r, fetched, writes) =>
      let out := Base.pull D.crypto D.trust s.bases ref policy fetched writes
      if r = out.2 then some { s with bases := out.1 } else none
  | .basesImport ref v kernel rootfs, (r, writes) =>
      let out := Base.importBundle D.crypto D.trust s.bases ref v kernel rootfs writes
      if r = out.2 then some { s with bases := out.1 } else none
  | .basesRemove ref _, (r, deletions) =>
      let out := Base.remove D.crypto D.trust s.bases ref deletions
      if r.isSome = out.2.toOption.isNone then some { s with bases := out.1 } else none
  | .reservePorts v, r => unlessError s r (some ()) fun _ =>
      if (s.ports v.id).length > 0 then s
      else { s with ports := Function.update s.ports v.id v.spec.ports }
  | .startDNS v, r => unlessError s r (some ()) fun _ =>
      { s with dns := Function.update s.dns v.id true }
  | .stopDNS id, _ => some { s with
      dns := Function.update s.dns id false
      ports := Function.update s.ports id [] }
  | .vmStart v _, _ => some { s with live := Function.update s.live v.id true }
  | .kill v, r => unlessError s r (some ()) fun _ =>
      { s with live := Function.update s.live v.id false }
  | .claimMonitor v, claimed =>
      if claimed = decide (s.monitors v.id ≠ v.generation) then
        some { s with monitors := Function.update s.monitors v.id v.generation } else none
  | .goMonitor v, _ => some { s with monitored := v.id :: s.monitored }
  | .releaseMonitor v, _ =>
      if s.monitors v.id = v.generation then
        some { s with monitors := Function.update s.monitors v.id 0 } else some s
  | .serve, _ => some { s with booting := none }

end Niflhel
