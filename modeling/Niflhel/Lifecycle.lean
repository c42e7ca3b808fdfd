import Niflhel.Host

/-!
# The operations of the daemon

The lifecycle methods of `Daemon` as programs over the calls of `Host`. `locked` is the
pattern `unlock := d.lock(k); defer unlock()`. Waiting loops run for a number of rounds
chosen from outside: a context that is done ends them. The entries of the `events` table,
which nothing reads, the copying of log frames and the removal of temporary directories
are left out.
-/

namespace Niflhel
open Concurrent GoText

abbrev Prog := Program Op Op.Reply

section calls

abbrev op (o : Op) : Prog o.Reply := Program.perform o

abbrev external (c : External) : Prog c.Reply := op (.external c)
abbrev lock (k : String) : Prog Unit := op (.lock k)
abbrev unlock (k : String) : Prog Unit := op (.unlock k)
abbrev storeList : Prog (Except String (List Sandbox)) := op .list
abbrev storeGet (id : String) : Prog (Except String Sandbox) := op (.get id)
abbrev storeVolume (name : String) : Prog (Except String Volume) := op (.volume name)
abbrev storeUpdate (id : String) (e : Edit) : Prog (Except String Time) :=
  op (.update id e)
abbrev storeDelete (id : String) : Prog (Option String) := op (.delete id)
abbrev kill (v : Sandbox) : Prog (Option String) := op (.kill v)
abbrev stopDNS (id : String) : Prog Unit := op (.stopDNS id)
abbrev basesGet (ref : String) : Prog (Except String Base.Bundle) := op (.basesGet ref)

end calls

def locked {α : Type} (k : String) (body : Prog α) : Prog α := do
  lock k
  let r ← body
  unlock k
  return r

def removeResources (v : Sandbox) : Prog (Option String × Option String) := do
  let netErr ← external (.networkRemove v)
  let vmErr ← external (.vmRemove v)
  return (netErr, vmErr)

def reserved (s : Spec) : List Sandbox → Except String Unit
  | [] => .ok ()
  | x :: rest =>
    if x.name = s.name ∧ s.name ≠ "" then .error "name already exists"
    else match s.ports.find? fun p => x.spec.ports.any fun q => p.hostPort == q.hostPort with
      | some p => .error ("host port " ++ toString p.hostPort ++ " is reserved")
      | none => reserved s rest

def checkVolumes : List Mount → Prog (Except String Unit)
  | [] => return .ok ()
  | m :: rest => do
    match ← storeVolume m.name with
    | .error e => return .error e
    | .ok _ => checkVolumes rest

/-- The first slot from `slot` on that is not used; `used` bounds the search. -/
def freeSlot (used : List ℕ) : ℕ → ℕ → ℕ
  | 0, slot => slot
  | n + 1, slot => if slot ∈ used then freeSlot used n (slot + 1) else slot

def newRecord (s : Spec) (id : String) (slot : ℕ) (now : Time) : Sandbox :=
  let s := if s.name = "" then
    { s with name := "nf-" ++ String.ofList (id.toList.take 12) } else s
  { id := id, name := s.name, spec := s, process := {}, imageDigest := "", baseDigest := ""
    state := .creating, reason := "", warnings := [], generation := 0, created := now
    updated := now, exit := none, pid := 0, pidStart := "", guestMemory := 0, slot := slot
    vmResourcesReleased := true }

def imageWarnings (c : ImageConfig) : List String :=
  (if c.healthcheck then ["image healthcheck is unsupported in phase one"] else []) ++
  (if c.volumes.length > 0 then
    ["image VOLUME paths remain in writable root unless explicitly mounted: [" ++
      " ".intercalate c.volumes ++ "]"] else [])

def guestMemory (memory reserveMiB : ℤ) : ℤ :=
  wrap64 (wrap64 ((wrap64 (memory + mib - 1)).tdiv mib + reserveMiB) * mib)

def carrierSize (bytes : ℤ) : ℤ :=
  (bytes + bytes.tdiv 5 + 64 * mib + mib - 1).tdiv mib * mib

def preparedRecord (v : Sandbox) (p : Process) (img : Image) (b : Base.Bundle) : Sandbox :=
  { v with
    warnings := v.warnings ++ imageWarnings img.config
    process := p
    imageDigest := img.digest
    baseDigest := b.digest
    guestMemory := guestMemory v.spec.memory b.signed.config.guestReserveMiB }

/-- From the image pull to the last disk. The result is the completed record. -/
def prepare (v : Sandbox) : Prog (Except String Sandbox) := do
  if let some e ← external (.mkdirAll v.id) then return .error e
  match ← external (.imagesPull v.spec.image v.spec.pull) with
  | .error e => return .error e
  | .ok img =>
    match (← op (.basesPull v.spec.base v.spec.pull)).1 with
    | .error e => return .error e
    | .ok b =>
      match resolve v.spec img.config with
      | .error e => return .error e
      | .ok p =>
        if let some e ← external (.mkdirTemp v.id) then return .error e
        if let some e ← external (.carrier v.id img) then return .error e
        let size := (img.layers.map Layer.size).sum
        if let some e ← external (.disk v.id "app.ext4" (carrierSize size)) then return .error e
        if let some e ← external (.disk v.id "state.ext4" v.spec.diskSize) then return .error e
        return .ok (preparedRecord v p img b)

def createFail (id : String) (e : String) : Prog (Except String Sandbox) := do
  external (.removeDisks id)
  let _ ← storeUpdate id (.createFail e)
  return .error e

def createLocked (s : Spec) : Prog (Except String Sandbox) := do
  match ← storeList with
  | .error e => return .error e
  | .ok all =>
    match reserved s all with
    | .error e => return .error e
    | .ok _ =>
      match ← checkVolumes s.mounts with
      | .error e => return .error e
      | .ok _ =>
        let slot := freeSlot (all.map Sandbox.slot) all.length 1
        if slot > 16000 then return .error "no address slots available"
        let id ← op .newID
        let now ← external .now
        let v := newRecord s id slot now
        if let some e ← op (.insert v) then return .error e
        match ← prepare v with
        | .error e => createFail id e
        | .ok w =>
          let w := { w with state := .created }
          match ← storeUpdate id (.createCommit w) with
          | .error e => createFail id e
          | .ok _ => return .ok w

def withBase (D : Setup) (s : Spec) : Spec :=
  if s.base = "" then { s with base := D.defaultBase } else s

def create (D : Setup) (s : Spec) : Prog (Except String Sandbox) := do
  match s.validate with
  | .error e => return .error e
  | .ok _ =>
    let s := withBase D s
    if s.base = "" then
      return .error "no default base configured; set DefaultBase or use --base"
    locked allocations (createLocked s)

def sharesVolume (v x : Sandbox) : Bool :=
  v.spec.mounts.any fun m => x.spec.mounts.any fun n => m.name == n.name

def volumeConflict (v : Sandbox) : List Sandbox → Option String
  | [] => none
  | x :: rest =>
    if x.id = v.id ∨ !reservesVMResources x then volumeConflict v rest
    else match v.spec.mounts.find? fun m => x.spec.mounts.any fun n => m.name == n.name with
      | some m => some ("volume " ++ m.name ++ " reserved by active or failed sandbox")
      | none => volumeConflict v rest

def reservedMemory (v : Sandbox) (all : List Sandbox) : ℤ :=
  (all.filter reservesVMResources).foldl
    (fun sum x => wrap64 (sum + wrap64 (x.guestMemory + 64 * mib)))
    (wrap64 (v.guestMemory + 64 * mib))

def memoryBudget (reserved available : ℤ) : Option String :=
  if available < 256 * mib ∨ reserved > available - 256 * mib then
    some "insufficient available host memory for reserved VM envelopes (including 256 MiB host reserve)"
  else none

def startingRecord (v : Sandbox) : Sandbox :=
  { v with
    generation := v.generation + 1
    state := .starting
    exit := none
    reason := ""
    vmResourcesReleased := false }

def admission (v : Sandbox) : Prog (Except String Sandbox) := do
  match ← storeList with
  | .error e => return .error e
  | .ok all =>
    match volumeConflict v all with
    | some e => return .error e
    | none =>
      match ← external .availableMemory with
      | .error e => return .error e
      | .ok available =>
        match memoryBudget (reservedMemory v all) available with
        | some e => return .error e
        | none =>
          let v := startingRecord v
          match ← storeUpdate v.id (.startCommit v) with
          | .error e => return .error e
          | .ok _ => return .ok v

def startFail (v : Sandbox) (err : String) : Prog (Except String Sandbox) := do
  match ← kill v with
  | some killErr =>
    let reason := err ++ "; VMM termination failed: " ++ killErr
    let _ ← storeUpdate v.id (.startFail v.pid v.pidStart false reason)
    return .error err
  | none =>
    stopDNS v.id
    let (netErr, vmErr) ← removeResources v
    let released := netErr.isNone && vmErr.isNone
    let _ ← storeUpdate v.id (.startFail v.pid v.pidStart released err)
    return .error err

/-- `Daemon.monitor` up to the `go` statement; the goroutine is `monitorLoop`. -/
def monitor (v : Sandbox) : Prog Unit := do
  if ← op (.claimMonitor v) then op (.goMonitor v)

def launch (v : Sandbox) (b : Base.Bundle) : Prog (Except String Sandbox) := do
  let (pid, pidStart, err) ← op (.vmStart v b)
  let v := { v with pid := pid, pidStart := pidStart }
  if let some e := err then startFail v e else
  match ← storeUpdate v.id (.setPID v.pid v.pidStart) with
  | .error e => startFail v e
  | .ok _ =>
    if let some e ← external (.ready v) then startFail v e else
    let operation := v.id ++ "-" ++ toString v.generation
    if let some e ← external (.call v (.start operation)) then startFail v e else
    match ← storeUpdate v.id .running with
    | .error e => startFail v e
    | .ok _ =>
      let v := { v with state := .running }
      monitor v
      return .ok v

def boot (v : Sandbox) (b : Base.Bundle) : Prog (Except String Sandbox) := do
  if let some e ← op (.reservePorts v) then startFail v e else
  if let some e ← external (.networkPrepare v) then startFail v e else
  if v.spec.network = "bridge" then
    if let some e ← op (.startDNS v) then startFail v e else launch v b
  else launch v b

def startLocked (id : String) : Prog (Except String Sandbox) := do
  match ← storeGet id with
  | .error e => return .error e
  | .ok v =>
    if v.state ≠ .created ∧ v.state ≠ .exited then
      return .error ("cannot start sandbox in state " ++ v.state.text)
    if let some e ← external .check then return .error e
    match ← basesGet v.baseDigest with
    | .error e => return .error e
    | .ok b =>
      match ← locked allocations (admission v) with
      | .error e => return .error e
      | .ok v => boot v b

def start (id : String) : Prog (Except String Sandbox) := do
  match ← storeGet id with
  | .error e => return .error e
  | .ok v => locked v.id (startLocked v.id)

def awaitShutdown (v : Sandbox) : ℕ → Prog Unit
  | 0 => return ()
  | n + 1 => do
    if ← external (.alive v) then awaitShutdown v n else return ()

def requestShutdown (v : Sandbox) : Prog Unit := do
  if (← external (.client v)).isNone then
    if (← external (.call v .shutdown)).isNone then
      awaitShutdown v (← external .rounds)

def conclude (v : Sandbox) (exit : Exit) (autoRemove : Bool) : Prog Unit := do
  stopDNS v.id
  let (netErr, vmErr) ← removeResources v
  let _ ← storeUpdate v.id (.finished exit netErr vmErr)
  if autoRemove && netErr.isNone && vmErr.isNone then
    if let some e ← external (.saveResult v exit) then
      let _ ← storeUpdate v.id (.deferRemoval e)
    else
      let _ ← external (.removeAll v.id)
      let _ ← storeDelete v.id

def finishLocked (v : Sandbox) (exit : Exit) : Prog Unit := do
  match ← storeGet v.id with
  | .error _ => return ()
  | .ok current =>
    if current.generation ≠ v.generation then return ()
    requestShutdown v
    match ← kill v with
    | some e =>
      let _ ← storeUpdate v.id (.killFailed e)
    | none => conclude v exit current.spec.autoRemove

def finish (v : Sandbox) (exit : Exit) : Prog Unit := locked v.id (finishLocked v exit)

def controlLost (now : Time) : Exit :=
  ⟨none, "guest control lost; application exit status unknown", false, now⟩

/-- What one poll of the guest tells: the count of failures so far, or its exit. -/
def poll (v : Sandbox) (failures : ℕ) : Prog (ℕ ⊕ Exit) := do
  if (← external (.client v)).isSome then return .inl (failures + 1)
  if (← external (.logs v)).isSome then return .inl (failures + 1)
  match ← external (.status v) with
  | .error _ => return .inl (failures + 1)
  | .ok st =>
    if st.id ≠ v.id ∨ st.generation ≠ v.generation then return .inl 100
    match st.exit with
    | none => return .inl 0
    | some exit => return if st.state = "exited" then .inr exit else .inl 0

/-- The goroutine of a monitor, for at most `n` polls before the daemon's context ends. -/
def monitorRounds (v : Sandbox) : ℕ → ℕ → Prog Unit
  | 0, _ => return ()
  | n + 1, failures => do
    match ← storeGet v.id with
    | .error _ => return ()
    | .ok current =>
      if current.generation ≠ v.generation then return ()
      match ← poll v failures with
      | .inr exit =>
        external (.drain v)
        finish v exit
      | .inl failures =>
        if failures ≥ 5 then finish v (controlLost (← external .now))
        else monitorRounds v n failures

def monitorLoop (v : Sandbox) : Prog Unit := do
  monitorRounds v (← external .rounds) 0
  op (.releaseMonitor v)

def waitRounds (id : String) (n : ℕ) : Prog (Except String Exit) := do
  match ← storeGet id with
  | .error e =>
    match ← external (.findResult id) with
    | .ok saved => return .ok saved
    | .error _ => return .error e
  | .ok v =>
    if v.state = .created then return .error "container has not started"
    if let some exit := v.exit then return .ok exit
    if v.state = .failed then return .ok ⟨none, v.reason, false, v.updated⟩
    match n with
    | 0 => return .error "context canceled"
    | n + 1 => waitRounds id n

def wait (id : String) : Prog (Except String Exit) := do
  waitRounds id (← external .rounds)

def forcedStop (now : Time) : Exit :=
  ⟨none, "forced VM stop; workload exit status unknown", false, now⟩

def requestStop (v : Sandbox) (seconds : ℤ) : Prog (Option String) := do
  match ← external (.client v) with
  | some e => return some e
  | none => external (.call v (.stop seconds))

def stop (id : String) (seconds : ℤ) : Prog (Option String) := do
  match ← storeGet id with
  | .error e => return some e
  | .ok v =>
    if v.state = .exited ∨ v.state = .created then return none
    if seconds < 0 ∨ seconds > 300 then return some "timeout must be 0..300 seconds"
    let _ ← storeUpdate v.id .stopping
    if (← requestStop v seconds).isSome then finish v (forcedStop (← external .now))
    match ← wait v.id with
    | .error e => return some e
    | .ok _ => return none

def restart (id : String) (seconds : ℤ) : Prog Unit := do
  if (← stop id seconds).isNone then
    let _ ← start id

def removeLocked (id : String) (force : Bool) : Prog (Option String) := do
  match ← storeGet id with
  | .error e => return some e
  | .ok v =>
    if (v.state = .running ∨ v.state = .starting ∨ v.state = .stopping) ∧ !force then
      return some "container running; use rm -f"
    if let some e ← kill v then return some e
    stopDNS v.id
    if let some e ← external (.networkRemove v) then return some e
    if let some e ← external (.vmRemove v) then return some e
    let _ ← storeUpdate v.id .removing
    if let some e ← external (.removeAll v.id) then return some e
    storeDelete v.id

def remove (id : String) (force : Bool) : Prog (Option String) := do
  match ← storeGet id with
  | .error e => return some e
  | .ok v => locked v.id (removeLocked v.id force)

def hostStopped (now : Time) : Exit :=
  ⟨none, "host/VMM stopped; application exit unknown", false, now⟩

def adopt (v : Sandbox) : Prog (Option String) := do
  if let some e ← op (.reservePorts v) then return some e
  if v.spec.network = "bridge" then
    if let some e ← op (.startDNS v) then return some e
  monitor v
  return none

/-- Cleanup of an interrupted operation; its flag tells whether it was complete. -/
def interrupt (v : Sandbox) : Prog Unit := do
  match ← kill v with
  | some _ =>
    let _ ← storeUpdate v.id (.interrupted false)
  | none =>
    let (netErr, vmErr) ← removeResources v
    let _ ← storeUpdate v.id (.interrupted (netErr.isNone && vmErr.isNone))

def retryCleanup (v : Sandbox) : Prog Unit := do
  match ← kill v with
  | some _ => return ()
  | none =>
    stopDNS v.id
    let (netErr, vmErr) ← removeResources v
    if netErr.isNone && vmErr.isNone then
      let _ ← storeUpdate v.id .release

def recoverOne (v : Sandbox) : Prog (Option String) := do
  match v.state with
  | .running | .stopping =>
    if ← external (.alive v) then adopt v
    else
      finish v (hostStopped (← external .now))
      return none
  | .creating | .starting | .removing =>
    interrupt v
    return none
  | .failed =>
    if v.vmResourcesReleased then return none
    retryCleanup v
    return none
  | .created | .exited => return none

def recoverAll : List Sandbox → Prog (Option String)
  | [] => return none
  | v :: rest => do
    if let some e ← recoverOne v then return some e
    recoverAll rest

/-- The daemon's main function: the listener opens after a successful recovery. -/
def recover : Prog Unit := do
  match ← storeList with
  | .error _ => return ()
  | .ok all =>
    if (← recoverAll all).isNone then op .serve

def baseRmLocked (ref : String) : Prog (Option String) := do
  match ← basesGet ref with
  | .error e => return some e
  | .ok b =>
    match ← storeList with
    | .error e => return some e
    | .ok all =>
      match all.find? fun s => s.baseDigest == b.digest with
      | some s => return some ("base referenced by " ++ s.name)
      | none => return (← op (.basesRemove ref b.digest)).1

def baseRm (ref : String) : Prog (Option String) := locked allocations (baseRmLocked ref)

def basePull (ref : String) : Prog (Except String Base.Bundle) := do
  return (← op (.basesPull ref "always")).1

def baseLoad (ref : String) (v : Base.Signed) (kernel rootfs : Bytes) :
    Prog (Except String Base.Bundle) := do
  if ref = "" then return .error "image reference required"
  return (← op (.basesImport ref v kernel rootfs)).1

def volumeCreateLocked (v : Volume) : Prog (Option String) := do
  if !validName v.name then return some "valid volume name required"
  let now ← external .now
  let v := { v with created := now }
  if let some e ← external (.volumeDisk v) then return some e
  match ← op (.putVolume v) with
  | some e =>
    let _ ← external (.removeVolume v.name)
    return some e
  | none => return none

def volumeCreate (v : Volume) : Prog (Option String) :=
  locked allocations (volumeCreateLocked v)

def volumeRmLocked (name : String) : Prog (Option String) := do
  match ← storeVolume name with
  | .error e => return some e
  | .ok v =>
    match ← storeList with
    | .error e => return some e
    | .ok all =>
      match all.find? fun s => s.spec.mounts.any fun m => m.name == v.name with
      | some s => return some ("volume referenced by " ++ s.name)
      | none =>
        if let some e ← external (.removeVolume v.name) then return some e
        op (.deleteVolume v.name)

def volumeRm (name : String) : Prog (Option String) := locked allocations (volumeRmLocked name)

inductive Job where
  | recover
  | monitor (v : Sandbox)
  | create (s : Spec)
  | start (id : String)
  | stop (id : String) (seconds : ℤ)
  | restart (id : String) (seconds : ℤ)
  | wait (id : String)
  | remove (id : String) (force : Bool)
  | baseRm (ref : String)
  | basePull (ref : String)
  | baseLoad (ref : String) (v : Base.Signed) (kernel rootfs : Bytes)
  | volumeCreate (v : Volume)
  | volumeRm (name : String)

def ignore {α : Type} (p : Prog α) : Prog Unit := do
  let _ ← p

def Job.code (D : Setup) : Job → Prog Unit
  | .recover => Niflhel.recover
  | .monitor v => monitorLoop v
  | .create s => ignore (Niflhel.create D s)
  | .start id => ignore (Niflhel.start id)
  | .stop id seconds => ignore (Niflhel.stop id seconds)
  | .restart id seconds => Niflhel.restart id seconds
  | .wait id => ignore (Niflhel.wait id)
  | .remove id force => ignore (Niflhel.remove id force)
  | .baseRm ref => ignore (Niflhel.baseRm ref)
  | .basePull ref => ignore (Niflhel.basePull ref)
  | .baseLoad ref v kernel rootfs => ignore (Niflhel.baseLoad ref v kernel rootfs)
  | .volumeCreate v => ignore (Niflhel.volumeCreate v)
  | .volumeRm name => ignore (Niflhel.volumeRm name)

def Job.isRequest : Job → Bool
  | .recover | .monitor _ => false
  | _ => true

def forks : Op → Option Job
  | .goMonitor v => some (.monitor v)
  | _ => none

/-- The daemon. Requests are served once the listener is open; a crash loses every
goroutine, mutex and map, and the next process starts with `Recover`. -/
def daemon (D : Setup) : System Host Op Op.Reply Job where
  exec := exec D
  forks := forks
  code := Job.code D
  accepts s j := s.booting.isNone && j.isRequest
  crash := Host.restarted
  boot := .recover

def Host.initial : Host where
  store := .empty
  bases := .empty
  locks _ := none
  live _ := false
  dns _ := false
  ports _ := []
  monitors _ := 0
  booting := some 0
  created := []
  monitored := []
  admitted _ := false

namespace Sample

def setup : Setup := ⟨Base.Sample.crypto, Base.Sample.trusted, "base"⟩

def image : Image := ⟨"busybox", "sha256:00", ⟨[], ["sh"], [], "", "", "", [], false⟩, []⟩

def spec (name : String) : Spec :=
  { defaultSpec with image := "busybox", name := name, mounts := [⟨"data", "/data", false⟩] }

def ident (n : ℕ) : String := String.ofList (List.replicate 31 '0' ++ [Base.Sample.hexChar n])

def failed (tag : ℕ) : Option String := if tag = 0 then none else some "failed"

def externalReply (tag : ℕ) : (c : External) → c.Reply
  | .now => tag
  | .rounds => tag
  | .imagesPull _ _ => if tag = 0 then .ok image else .error "failed"
  | .availableMemory => .ok (1024 * gib)
  | .status v => if tag = 0 then .error "failed"
      else .ok ⟨1, v.id, v.generation, "exited", some ⟨some 3, "", false, tag⟩⟩
  | .alive _ => tag = 0
  | .findResult _ => .error notFound
  | .removeDisks _ => ()
  | .drain _ => ()
  | .check => failed tag
  | .mkdirAll _ => failed tag
  | .removeAll _ => failed tag
  | .mkdirTemp _ => failed tag
  | .carrier _ _ => failed tag
  | .disk _ _ _ => failed tag
  | .volumeDisk _ => failed tag
  | .removeVolume _ => failed tag
  | .networkPrepare _ => failed tag
  | .networkRemove _ => failed tag
  | .vmRemove _ => failed tag
  | .ready _ => failed tag
  | .client _ => failed tag
  | .call _ _ => failed tag
  | .logs _ => failed tag
  | .saveResult _ _ => failed tag

def fetched (reserve : ℤ) : Except String Base.Fetched :=
  .ok ⟨Base.Sample.signed reserve, Base.Sample.kernel, Base.Sample.rootfs⟩

/-- Tag zero asks for a successful answer of a call, other tags for a failure. -/
def reply (s : Host) : (o : Op) → ℕ → o.Reply
  | .external c, tag => externalReply tag c
  | .lock _, _ => ()
  | .unlock _, _ => ()
  | .list, tag => if tag = 0 then .ok s.store.list else .error "failed"
  | .get id, tag => if tag = 0 then s.store.get id else .error "failed"
  | .volume name, tag => if tag = 0 then s.store.volume name else .error "failed"
  | .newID, tag => ident tag
  | .insert _, tag => failed tag
  | .update _ _, tag => if tag = 0 then .ok 0 else .error "failed"
  | .delete _, tag => failed tag
  | .putVolume _, tag => failed tag
  | .deleteVolume _, tag => failed tag
  | .basesGet ref, tag =>
      if tag = 0 then Base.get setup.crypto setup.trust s.bases ref else .error "failed"
  | .basesPull ref policy, tag =>
      ((Base.pull setup.crypto setup.trust s.bases ref policy (fetched (64 + tag)) 4).2,
        fetched (64 + tag), 4)
  | .basesImport ref v kernel rootfs, _ =>
      ((Base.importBundle setup.crypto setup.trust s.bases ref v kernel rootfs 4).2, 4)
  | .basesRemove ref _, _ =>
      (match (Base.remove setup.crypto setup.trust s.bases ref 100).2 with
        | .ok _ => none
        | .error e => some e, 100)
  | .reservePorts _, tag => failed tag
  | .startDNS _, tag => failed tag
  | .stopDNS _, _ => ()
  | .vmStart _ _, tag => (100, "boot:1", failed tag)
  | .kill _, tag => failed tag
  | .claimMonitor v, _ => decide (s.monitors v.id ≠ v.generation)
  | .goMonitor _, _ => ()
  | .releaseMonitor _, _ => ()
  | .serve, _ => ()

def steps (t n : ℕ) : List (System.Move Job) := List.replicate n (.run t 0)

def after (moves : List (System.Move Job)) : Option Host :=
  ((daemon setup).replay reply ((daemon setup).booted Host.initial) moves).map Config.state

def afterBoth (S : System Host Op Op.Reply Job) (first second : List (System.Move Job)) :
    Option (Host × Host) :=
  (S.replay reply (S.booted Host.initial) first).bind fun c =>
    (S.replay reply c second).map fun c' => (c.state, c'.state)

theorem runs_afterBoth {S : System Host Op Op.Reply Job} {first second : List (System.Move Job)}
    {s s' : Host} (h : afterBoth S first second = some (s, s')) :
    ∃ c c', S.Runs (fun _ _ => True) (S.booted Host.initial) c ∧ S.Runs (fun _ _ => True) c c' ∧
      c.state = s ∧ c'.state = s' := by
  obtain ⟨c, hc, hrest⟩ := Option.bind_eq_some_iff.1 h
  obtain ⟨c', hc', hstates⟩ := Option.map_eq_some_iff.1 hrest
  cases hstates
  exact ⟨c, c', System.replay_runs _ hc, System.replay_runs _ hc', rfl, rfl⟩

theorem reachable_after {moves : List (System.Move Job)} {s : Host} (h : after moves = some s) :
    ∃ c, (daemon setup).Reachable (fun s => s = Host.initial) c ∧ c.state = s := by
  obtain ⟨c, hc, rfl⟩ := Option.map_eq_some_iff.1 h
  exact ⟨c, ⟨_, rfl, System.replay_runs _ hc⟩, rfl⟩

end Sample

end Niflhel
