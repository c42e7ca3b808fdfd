import Niflhel.ImageStore
import Niflhel.Network
import Niflhel.Tar
import Niflhel.Volatile

/-!
# Preparing the guest's state disk

`guest.Prepare` unpacks the layers of the application image below `/state/unpack`, renames
the directory to `/state/lower` and then writes the image's digest to a marker file. A boot
that finds the marker does not unpack again.

The state disk is a directory of files and of unpacked trees. Operations on it enter a
journal; completing an `fsync` makes what the journal says durable, and the data of the
synced file. When the VMM is killed, any of the changes since may be missing, and so may
the data of any file that was never synced.
-/

namespace Niflhel.Guest
open Concurrent FileOps Fsutil Directory GoText

inductive Kind where
  | directory
  | file (content : Bytes)
  | symlink (target : String)
  deriving DecidableEq, Repr

structure Node where
  kind : Kind
  synced : Bool
  deriving DecidableEq, Repr

inductive Entry where
  | file (data : Bytes) (synced : Bool)
  | dir (nodes : List (String × Node))
  deriving DecidableEq, Repr

abbrev Root := List (String × Entry)

/-- One step of `archive.Apply`. A whiteout removes the paths it hides. -/
inductive Edit where
  | put (path : String) (k : Kind)
  | remove (path : String)
  deriving DecidableEq, Repr

def Edit.apply {α : Type} (new : Kind → α) (nodes : List (String × α)) : Edit → List (String × α)
  | .put path k => Directory.put nodes path (new k)
  | .remove path => keep (fun p => p != path) nodes

inductive Change where
  | create (name : String) (e : Entry)
  | remove (name : String)
  | rename (old new : String)
  | write (name : String) (data : Bytes)
  | edit (name : String) (e : Edit)
  deriving DecidableEq, Repr

def Change.apply (t : Root) : Change → Root
  | .create name e => put t name e
  | .remove name => keep (fun n => n != name) t
  | .rename old new =>
    match t.lookup old with
    | some e => put (keep (fun n => n != old) t) new e
    | none => t
  | .write name data =>
    match t.lookup name with
    | some (.file c _) => put t name (.file (c ++ data) false)
    | _ => t
  | .edit name e =>
    match t.lookup name with
    | some (.dir nodes) => put t name (.dir (e.apply (fun k => ⟨k, false⟩) nodes))
    | _ => t

abbrev State := Volatile.Store Root Change

def State.live (s : State) : Root := Volatile.Store.live Change.apply s

def Entry.settled : Entry → Entry
  | .file data _ => .file data true
  | .dir nodes => .dir (mapFiles (fun _ n => ⟨n.kind, true⟩) nodes)

def settle (which : String → Bool) (t : Root) : Root :=
  mapFiles (fun name e => if which name then e.settled else e) t

def State.commit (s : State) (which : String → Bool) : State :=
  Volatile.Store.commit Change.apply s (settle which)

/-- What a kill leaves: some of the changes since the last `fsync`, and other data in files
that were never synced. -/
structure Loss where
  mask : List Bool
  data : String → String → Option Bytes

def Node.lose (lost : Option Bytes) (n : Node) : Node :=
  match n.synced, n.kind with
  | false, .file c => ⟨.file (lost.getD c), true⟩
  | _, k => ⟨k, true⟩

def Entry.lose (lost : String → Option Bytes) : Entry → Entry
  | .file data synced => .file (if synced then data else (lost "").getD data) true
  | .dir nodes => .dir (mapFiles (fun path n => n.lose (lost path)) nodes)

def kill (l : Loss) (s : State) : State :=
  ⟨mapFiles (fun name e => e.lose (l.data name)) (Volatile.Store.survive Change.apply s l.mask), []⟩

inductive Op where
  /-- An operation on a file of `/state`. -/
  | state (o : FileOps.Op Unit)
  /-- `os.ReadFile` of the marker. Its error is ignored, what was read until then is used. -/
  | readMarker
  | mkdirAll (name : String)
  | mkdir (name : String)
  /-- `os.RemoveAll`, which answers the paths it could not remove. -/
  | removeAll (name : String)
  /-- `fsutil.ReadJSON` of the carrier's `image.json`. -/
  | readImage
  /-- Reading a layer of the carrier. -/
  | readBlob (h : String)
  | edit (name : String) (e : Edit)
  /-- Mounts, commands and files outside of `/state`. -/
  | outside (args : List String)
  | sync

abbrev Op.Reply : Op → Type
  | .state o => o.Reply
  | .readMarker => Bytes
  | .removeAll _ => Option (List String)
  | .readImage => Except String Oci.Image
  | .readBlob _ => Except String Bytes
  | .sync => Unit
  | _ => Option String

abbrev Calls := Program Op Op.Reply

abbrev perform (o : Op) : Calls o.Reply := Program.perform o

def lift {α : Type} (p : Files Unit α) : Calls α := p.expand fun o => perform (.state o)

structure Carrier where
  image : Oci.Image
  blobs : List (String × Bytes)

def marker : String := "image.digest"

def State.markerText (s : State) : Bytes :=
  match s.live.lookup marker with
  | some (.file data _) => data
  | _ => []

def State.paths (s : State) (name : String) : List String :=
  match s.live.lookup name with
  | some (.dir nodes) => nodes.map Prod.fst
  | _ => []

def execState (s : State) : (o : FileOps.Op Unit) → o.Reply → Option State
  | .createTemp _ pattern, .ok name =>
      if pattern.toList.isPrefixOf name.toList && (s.live.lookup name).isNone then
        some (s.note [.create name (.file [] true)]) else none
  | .write _ name data, (n, e) =>
      if n ≤ data.length ∧ (e = none → n = data.length) then
        some (s.note [.write name (data.take n)]) else none
  | .sync _ name, none => some (s.commit fun n => n == name)
  | .rename _ old new, none =>
      match s.live.lookup old, s.live.lookup new with
      | none, _ => none
      | _, some (.dir (_ :: _)) => none
      | _, _ => some (s.note [.rename old new])
  | .remove _ name, .done =>
      match s.live.lookup name with
      | some (.file _ _) => some (s.note [.remove name])
      | _ => none
  | .remove _ name, .missing => if (s.live.lookup name).isNone then some s else none
  | .readFile _ name, .ok c =>
      match s.live.lookup name with
      | some (.file data _) => if c = data then some s else none
      | _ => none
  | .readDir _, .ok names => if names = (readDir s.live).map Prod.fst then some s else none
  | .syncDir _, none => some (s.commit fun _ => false)
  | _, _ => some s

def exec (carrier : Carrier) (s : State) : (o : Op) → o.Reply → Option State
  | .state o, r => execState s o r
  | .readMarker, b => if b.isPrefixOf s.markerText then some s else none
  | .mkdirAll name, none =>
      match s.live.lookup name with
      | none => some (s.note [.create name (.dir [])])
      | some (.dir _) => some s
      | some (.file _ _) => none
  | .mkdir name, none =>
      if (s.live.lookup name).isNone then some (s.note [.create name (.dir [])]) else none
  | .removeAll name, none =>
      -- the paths are unlinked one by one, so a kill can find any of them
      some (s.note ((s.paths name).map (fun p => .edit name (.remove p)) ++ [.remove name]))
  | .removeAll name, some left =>
      some (s.note (((s.paths name).filter fun p => !left.contains p).map
        fun p => .edit name (.remove p)))
  | .readImage, .ok img => if img = carrier.image then some s else none
  | .readBlob h, .ok c => if carrier.blobs.lookup h = some c then some s else none
  | .edit name e, none =>
      match s.live.lookup name with
      | some (.dir _) => some (s.note [.edit name e])
      | _ => none
  | .sync, _ => some (s.commit fun _ => true)
  | _, _ => some s

/-- Decoding of tar headers and compressed layers, and the changes `archive.Apply` makes for
a layer, with the error it ends with. -/
structure Formats where
  tar : Tar.Format
  gunzip : Bytes → Except String Reader
  unzstd : Bytes → Except String Reader
  edits : Bytes → List Edit × Option String

def decode (F : Formats) (media : String) (c : Bytes) : Except String Reader :=
  if contains media "gzip" then F.gunzip c
  else if contains media "zstd" then F.unzstd c
  else if media = "application/vnd.oci.image.layer.v1.tar" ∨
      media = "application/vnd.docker.image.rootfs.diff.tar" then .ok ⟨c, none⟩
  else .error ("unsupported layer media type " ++ quoted media)

def layerReader (F : Formats) (h media : String) : Calls (Except String Reader) := do
  match ← perform (.readBlob h) with
  | .error e => return .error e
  | .ok c => return decode F media c

def headers (F : Tar.Format) : ℕ → ℕ → Bytes → List Tar.Header × Option String
  | 0, _, _ => ([], some Tar.errHeader)
  | rounds + 1, pad, b =>
    match Tar.next F .eof (b.length + 1) pad [] b with
    | .failed m => ([], some m)
    | .eof => ([], none)
    | .ok h rest =>
      let size := (Tar.contentSize h).toNat
      if rest.length < size then ([h], some Tar.unexpectedEOF)
      else
        let (hs, e) := headers F rounds (Tar.padding size) (rest.drop size)
        (h :: hs, e)

def special (h : Tar.Header) : Bool := h.typeflag == 51 || h.typeflag == 52 || h.typeflag == 54

def checkEntries (n : ℕ) : List Tar.Header → Option String → Except String ℕ
  | [], none => .ok n
  | [], some e => .error e
  | h :: hs, e =>
    if n + 1 > 200000 ∨ isAbs h.name ∨ pathClean h.name = ".." ∨ hasPrefix (pathClean h.name) "../" then
      .error "unsafe layer path or inode limit"
    else if special h then .error "special files not supported in app images"
    else checkEntries (n + 1) hs e

def applyEdits (dest : String) (err : Option String) : List Edit → Calls (Option String)
  | [] => return err
  | e :: rest => do
    match ← perform (.edit dest e) with
    | some m => return some m
    | none => applyEdits dest err rest

def discard {α : Type} (tmp : String) (a : α) : Calls α := do
  let _ ← perform (.state (.remove () tmp))
  return a

section
variable (K : Base.Crypto) (F : Formats)

def applyLayer (dest tmp diffID : String) (entries : ℕ) : Calls (Except String ℕ) := do
  match ← perform (.state (.readFile () tmp)) with
  | .error _ => discard tmp (.error "uncompressed layer digest mismatch")
  | .ok data =>
    if Base.digest K data ≠ diffID then discard tmp (.error "uncompressed layer digest mismatch")
    else
      match ← perform (.state (.readFile () tmp)) with
      | .error e => return .error e
      | .ok data =>
        let (hs, e) := headers F.tar (data.length + 1) 0 data
        match checkEntries entries hs e with
        | .error e => discard tmp (.error e)
        | .ok entries =>
          match ← applyEdits dest (F.edits data).2 (F.edits data).1 with
          | some e => discard tmp (.error e)
          | none => discard tmp (.ok entries)

/-- One round of the loop of `Unpack`: the budget used and the entries seen so far go in and
out. -/
def unpackLayer (dest : String) (maxBytes total : ℤ) (entries : ℕ) (d : Descriptor) (diffID : String) :
    Calls (Except String (ℤ × ℕ)) := do
  match Base.hexDigest d.digest with
  | .error e => return .error e
  | .ok h =>
    match ← perform (.readBlob h) with
    | .error _ => return .error "layer integrity failure"
    | .ok c =>
      if Base.digest K c ≠ d.digest ∨ (c.length : ℤ) ≠ d.size then
        return .error "layer integrity failure"
      else
        match ← layerReader F h d.mediaType with
        | .error e => return .error e
        | .ok r =>
          match ← perform (.state (.createTemp () ".layer-")) with
          | .error e => return .error e
          | .ok tmp =>
            let r := r.limit (maxBytes - total + 1).toNat
            let (n, e) ← perform (.state (.write () tmp r.bytes))
            let _ ← perform (.state (.close () tmp))
            if (e.or r.failure).isSome ∨ (n : ℤ) > maxBytes - total then
              discard tmp (.error "expanded image exceeds disk budget")
            else
              match ← applyLayer K F dest tmp diffID entries with
              | .error e => return .error e
              | .ok entries => return .ok (total + n, entries)

def unpackLayers (dest : String) (maxBytes : ℤ) : List (Descriptor × String) → ℤ → ℕ →
    Calls (Option String)
  | [], _, _ => return none
  | (d, diffID) :: rest, total, entries => do
    match ← unpackLayer K F dest maxBytes total entries d diffID with
    | .error e => return some e
    | .ok (total, entries) => unpackLayers dest maxBytes rest total entries

def unpack (dest : String) (maxBytes : ℤ) : Calls (Option String) := do
  match ← perform .readImage with
  | .error e => return some e
  | .ok img =>
    if img.layers.length ≠ img.diffIDs.length ∨ img.layers.length > 256 then
      return some "invalid layer metadata"
    else unpackLayers K F dest maxBytes (img.layers.zip img.diffIDs) 0 0

structure Bootstrap where
  protocol : ℤ
  id : String
  sandbox : Sandbox

def sequence : List (Calls (Option String)) → Calls (Option String)
  | [] => return none
  | p :: rest => do
    match ← p with
    | some e => return some e
    | none => sequence rest

def run (args : List String) : Calls (Option String) := perform (.outside args)

/-- The function `mount`, given how its target is created. A busy target is mounted already. -/
def mount (mkdirAll : Calls (Option String)) (args : List String) : Calls (Option String) := do
  match ← mkdirAll with
  | some e => return some e
  | none =>
    match ← run ("mount" :: args) with
    | some e => if e = "EBUSY" then return none else return some e
    | none => return none

def mountOutside (source target kind flags : String) : Calls (Option String) :=
  mount (run ["mkdir", target]) [source, target, kind, flags]

def ignore (p : Calls (Option String)) : Calls (Option String) := do
  let _ ← p
  return none

def initializeGuest (b : Bootstrap) : Calls (Option String) :=
  sequence [
    mountOutside "devtmpfs" "/dev" "devtmpfs" "",
    mountOutside "devpts" "/dev/pts" "devpts" "",
    mountOutside "proc" "/proc" "proc" "",
    mountOutside "sysfs" "/sys" "sysfs" "",
    mountOutside "tmpfs" "/run" "tmpfs" "",
    mountOutside "tmpfs" "/tmp" "tmpfs" "",
    mountOutside "cgroup2" "/sys/fs/cgroup" "cgroup2" "",
    mountOutside "/dev/vdb" "/bootstrap" "ext4" "ro",
    run ["read", "/bootstrap/bootstrap.json"],
    if b.protocol ≠ 1 ∨ b.id ≠ b.sandbox.id then return some "bootstrap identity mismatch"
      else return none,
    mountOutside "/dev/vdc" "/app-image" "ext4" "ro",
    mountOutside "/dev/vdd" "/state" "ext4" "",
    run ["mkdir", "/run/niflhel"],
    perform (.mkdirAll "bundle"),
    perform (.mkdirAll "upper"),
    perform (.mkdirAll "work"),
    perform (.mkdirAll "lower"),
    ignore (run ["write", "/sys/fs/cgroup/cgroup.subtree_control", "+cpu +memory +pids"]),
    run ["mkdir", "/sys/fs/cgroup/niflhel"],
    ignore (run ["write", "/sys/fs/cgroup/niflhel/cgroup.subtree_control", "+cpu +memory +pids"])]

def networkCommands : List (List String) := [
  ["ip", "link", "set", "lo", "up"], ["ip", "addr", "add", "172.30.0.2/30", "dev", "eth0"],
  ["ip", "link", "set", "eth0", "up"], ["ip", "route", "add", "default", "via", "172.30.0.1"],
  ["ip", "netns", "add", "app"],
  ["ip", "link", "add", "veth0", "type", "veth", "peer", "name", "veth1"],
  ["ip", "link", "set", "veth1", "netns", "app"],
  ["ip", "addr", "add", "10.0.0.1/30", "dev", "veth0"], ["ip", "link", "set", "veth0", "up"],
  ["ip", "-n", "app", "addr", "add", "10.0.0.2/30", "dev", "veth1"],
  ["ip", "-n", "app", "link", "set", "veth1", "up"], ["ip", "-n", "app", "link", "set", "lo", "up"],
  ["ip", "-n", "app", "route", "add", "default", "via", "10.0.0.1"],
  ["sysctl", "-qw", "net.ipv4.ip_forward=1"], ["sysctl", "-qw", "net.ipv6.conf.all.disable_ipv6=1"],
  ["iptables", "-t", "nat", "-A", "POSTROUTING", "-s", "10.0.0.2", "-o", "eth0", "-j", "MASQUERADE"]]

def portCommand (p : Port) : List String :=
  ["iptables", "-t", "nat", "-A", "PREROUTING", "-i", "eth0", "-p", "tcp", "--dport",
    toString p.containerPort, "-j", "DNAT", "--to-destination",
    "10.0.0.2:" ++ toString p.containerPort]

def prepareNetwork (b : Bootstrap) : Calls (Option String) :=
  sequence ((networkCommands ++ b.sandbox.spec.ports.map portCommand).map run)

def mountVolume (i : ℕ) (m : Mount) : Calls (Option String) :=
  mountOutside ("/dev/vd" ++ String.singleton (Char.ofNat (101 + i)))
    ("/run/niflhel/volumes/" ++ toString i) "ext4" (if m.readOnly then "ro" else "")

def dns (b : Bootstrap) : String :=
  if b.sandbox.spec.network = "bridge" then
    match Network.forSandbox b.id b.sandbox.slot with
    | .ok c => Internet.text c.hostIP
    | .error _ => ""
  else "127.0.0.1"

def assemble (b : Bootstrap) : Calls (Option String) :=
  sequence ([mount (perform (.edit "bundle" (.put "rootfs" .directory))) ["overlay",
      "/state/bundle/rootfs", "overlay",
      "lowerdir=/state/lower,upperdir=/state/upper,workdir=/state/work"]] ++
    b.sandbox.spec.mounts.mapIdx mountVolume ++
    (if b.sandbox.spec.network = "bridge" then [prepareNetwork b] else []) ++
    [run ["write", "/run/niflhel/resolv.conf",
      "nameserver " ++ dns b ++ "\noptions timeout:2 attempts:2\n"]])

/-- The part of `Prepare` that a boot with the marker skips. -/
def unpackImage (b : Bootstrap) : Calls (Option String) := do
  let _ ← perform (.removeAll "lower")
  let _ ← perform (.removeAll "unpack")
  match ← perform (.mkdir "unpack") with
  | some e => return some e
  | none =>
    match ← unpack K F "unpack" (b.sandbox.spec.diskSize.tdiv 2) with
    | some e => return some e
    | none =>
      match ← perform (.state (.rename () "unpack" "lower")) with
      | some e => return some e
      | none => return (← lift (atomic () marker (Base.bytesOf b.sandbox.imageDigest))).2

def prepare (b : Bootstrap) : Calls (Option String) := do
  let content ← perform .readMarker
  if content ≠ Base.bytesOf b.sandbox.imageDigest then
    match ← unpackImage K F b with
    | some e => return some e
    | none => assemble b
  else assemble b

/-- The agent's `main`: an error ends in a sync and a power off. -/
def boot (b : Bootstrap) : Calls Unit := do
  match ← sequence [initializeGuest b, prepare K F b, run ["serve"]] with
  | some _ => perform .sync
  | none => return ()

inductive Job where
  | boot
  /-- The container writes to its upper directory. -/
  | work (e : Edit)
  /-- The guest's `shutdown` operation. -/
  | shutdown

def machine (b : Bootstrap) (carrier : Carrier) : Machine State Op Op.Reply Job Loss where
  exec := exec carrier
  code
    | .boot => boot K F b
    | .work e => do
      let _ ← perform (.edit "upper" e)
    | .shutdown => do
      perform .sync
      perform .sync
  crash := kill

def Carrier.layer (carrier : Carrier) (d : Descriptor) : Bytes :=
  match Base.hexDigest d.digest with
  | .error _ => []
  | .ok h =>
    match decode F d.mediaType ((carrier.blobs.lookup h).getD []) with
    | .ok r => r.bytes
    | .error _ => []

def Carrier.contents (carrier : Carrier) : List (String × Kind) :=
  (carrier.image.layers.flatMap fun d => (F.edits (carrier.layer F d)).1).foldl (Edit.apply id) []

end

def Root.below (t : Root) (name : String) : List (String × Kind) :=
  match t.lookup name with
  | some (.dir nodes) => mapFiles (fun _ n => n.kind) nodes
  | _ => []

section
variable {allowed : Op → Prop} {p : Calls (Option String)}

theorem uses_sequence {allowed : Op → Prop} {ps : List (Calls (Option String))}
    (h : ∀ p ∈ ps, p.Uses allowed) : (sequence ps).Uses allowed := by
  induction ps with
  | nil => trivial
  | cons p rest ih =>
    exact Program.uses_bind (h p List.mem_cons_self) fun
      | some e => trivial
      | none => ih fun q hq => h q (List.mem_cons_of_mem p hq)

theorem uses_mount {args : List String} (hp : p.Uses allowed)
    (hargs : allowed (.outside ("mount" :: args))) : (mount p args).Uses allowed := by
  refine Program.uses_bind hp fun
    | some e => trivial
    | none => ?_
  refine Program.uses_perform hargs fun
    | none => trivial
    | some e => ?_
  dsimp only
  split_ifs <;> trivial

theorem uses_ignore (hp : p.Uses allowed) : (ignore p).Uses allowed :=
  Program.uses_bind hp fun _ => trivial

end

end Niflhel.Guest
