import Niflhel.Catalog
import Niflhel.BaseDigest

/-!
# The image store

The methods of `oci.Store` against the calls of `Catalog`: `Get`, `Pull`, `Import` and
`Remove`. What a registry or an archive serves for an image is data of the call, with every
accessor able to fail; the decoders of manifests and configurations are parameters. The raw
manifest, which a record also keeps and the store never reads, is left out. A mutex makes
the calls sequential.
-/

namespace Niflhel.Oci
open Concurrent FileOps Fsutil Catalog

structure Image where
  ref : String
  digest : String
  config : ImageConfig
  layers : List Descriptor
  diffIDs : List String
  deriving DecidableEq, Repr

structure Manifest where
  configSize : ℤ
  configDigest : String
  deriving DecidableEq, Repr

/-- The fields of `v1.ConfigFile` that an import reads, the declared volumes in the order
in which Go ranges over them. -/
structure ConfigFile where
  os : String
  architecture : String
  config : ImageConfig
  diffIDs : List String
  deriving DecidableEq, Repr

structure Decoder where
  manifest : Bytes → Except String Manifest
  config : Bytes → Except String ConfigFile

/-- A layer of a `v1.Image`, with the state of the context when the loop reaches it. -/
structure Layer where
  context : Option String
  digest : Except String String
  size : Except String ℤ
  mediaType : Except String String
  compressed : Except String Reader

structure Source where
  rawManifest : Except String Bytes
  rawConfigFile : Except String Bytes
  digest : Except String String
  layers : Except String (List Layer)

def maxMetadata : ℤ := 4 * 2 ^ 20
def maxImage : ℤ := 16 * 2 ^ 30

def blob (d : String) : Except String String := Base.hexDigest d

def layout : Layout Image := ⟨Image.ref, Image.digest, fun v => v.layers.map Descriptor.digest, blob⟩

section
variable (K : Base.Crypto) (P : Decoder)

def checkLayers : List Descriptor → Calls Image (Option String)
  | [] => return none
  | d :: rest =>
    match blob d.digest with
    | .error e => return some e
    | .ok p => do
      match ← call (.readBlob p) with
      | .error _ => return some ("cached blob is missing or corrupt: " ++ d.digest)
      | .ok c =>
        if Base.digest K c ≠ d.digest ∨ (c.length : ℤ) ≠ d.size then
          return some ("cached blob is missing or corrupt: " ++ d.digest)
        else checkLayers rest

def get (ref : String) : Calls Image (Except String Image) := do
  match ← call (.readRecord (Base.record K ref)) with
  | .error e => return .error e
  | .ok v =>
    match ← checkLayers K v.layers with
    | some e => return .error e
    | none => return .ok v

/-- The checks of `importImage` up to its loop: the image without its layers, and the
layers to fetch with their uncompressed digests. -/
def checkImage (ref : String) (img : Source) : Except String (Image × List (Layer × String)) := do
  let raw ← img.rawManifest
  if (raw.length : ℤ) > maxMetadata then throw "invalid image manifest"
  let manifest ← P.manifest raw
  if manifest.configSize < 0 ∨ manifest.configSize > maxMetadata then
    throw "image config descriptor size limit exceeded"
  let _ ← Base.hexDigest manifest.configDigest
  let configRaw ← img.rawConfigFile
  if (configRaw.length : ℤ) ≠ manifest.configSize ∨
      Base.digest K configRaw ≠ manifest.configDigest then
    throw "image config descriptor integrity failure"
  let cfg ← P.config configRaw
  if cfg.os ≠ "linux" ∨ cfg.architecture ≠ "amd64" then
    throw ("unsupported image platform " ++ cfg.os ++ "/" ++ cfg.architecture)
  let digest ← img.digest
  if Base.digest K raw ≠ digest then throw "invalid image manifest"
  let layers ← img.layers
  if layers.length > 256 ∨ layers.length ≠ cfg.diffIDs.length then throw "invalid layer count"
  return (⟨ref, digest, cfg.config, [], []⟩, layers.zip cfg.diffIDs)

def describe (l : Layer) (total : ℤ) : Except String (Descriptor × String) := do
  if let some e := l.context then throw e
  let digest ← l.digest
  let size ← l.size
  if size < 0 ∨ size > Base.maxBlob ∨ total > maxImage - size then
    throw "image download size limit exceeded"
  let mediaType ← l.mediaType
  let p ← blob digest
  return (⟨digest, size, mediaType⟩, p)

/-- Makes sure that a layer's blob is there: it is kept if it is intact, else fetched. -/
def fetchLayer (l : Layer) (desc : Descriptor) (p : String) : Calls Image (Option String) := do
  let held ← match ← call (.readBlob p) with
    | .error _ => pure false
    | .ok c => pure (decide (Base.digest K c = desc.digest ∧ (c.length : ℤ) = desc.size))
  if held then return none
  else
    match l.compressed with
    | .error e => return some e
    | .ok r => call (.writeBlob p r desc)

def importLayers (out : Image) (total : ℤ) : List (Layer × String) → Calls Image (Except String Image)
  | [] => return .ok out
  | (l, diffID) :: rest =>
    match describe l total with
    | .error e => return .error e
    | .ok (desc, p) => do
      match ← fetchLayer K l desc p with
      | some e => return .error e
      | none =>
        let next := { out with layers := out.layers ++ [desc], diffIDs := out.diffIDs ++ [diffID] }
        importLayers next (total + desc.size) rest

def importImage (ref : String) (img : Source) : Calls Image (Except String Image) :=
  match checkImage K P ref img with
  | .error e => return .error e
  | .ok (out, layers) => do
    match ← importLayers K out 0 layers with
    | .error e => return .error e
    | .ok out =>
      match (← call (.writeRecord (Base.record K out.digest) out)).2 with
      | some e => return .error e
      | none =>
        match (← call (.writeRecord (Base.record K ref) out)).2 with
        | some e => return .error e
        | none => return .ok out

/-- The end of `Pull`, with what the registry answers for the reference. -/
def importFetched (ref : String) : Except String Source → Calls Image (Except String Image)
  | .error e => return .error e
  | .ok img => importImage K P ref img

def pull (ref policy : String) (fetched : Except String Source) :
    Calls Image (Except String Image) :=
  if policy ≠ "always" then do
    match ← get K ref with
    | .ok v => return .ok v
    | .error e =>
      if policy = "never" then return .error ("offline image unavailable: " ++ e)
      else importFetched K P ref fetched
  else importFetched K P ref fetched

def remove (ref : String) : Calls Image (Option String) := Catalog.remove layout (get K ref)

inductive Job where
  | importImage (ref : String) (img : Source)
  | pull (ref policy : String) (fetched : Except String Source)
  | remove (ref : String)

def Job.calls : Job → Calls Image Unit
  | .importImage ref img => do let _ ← Oci.importImage K P ref img
  | .pull ref policy fetched => do let _ ← Oci.pull K P ref policy fetched
  | .remove ref => do let _ ← Oci.remove K ref

def machine (C : Codec Image) : Machine (Disk Dir) (FileOps.Op Dir) FileOps.Op.Reply Job Unit where
  exec := FileOps.exec
  code j := (j.calls K P).expand (steps K C)
  crash _ s := s

end

def Source.contents (img : Source) : List Bytes :=
  match img.layers with
  | .error _ => []
  | .ok layers => layers.filterMap fun l => match l.compressed with
    | .error _ => none
    | .ok r => some r.bytes

def Job.contents : Job → List Bytes
  | .importImage _ img => img.contents
  | .pull _ _ (.ok img) => img.contents
  | _ => []

def downloads (H : List Bytes) (_ : Disk Dir) :
    Event (FileOps.Op Dir) FileOps.Op.Reply Job Unit → Bool
  | .request j => j.contents.all fun c => H.contains c
  | _ => true

end Niflhel.Oci
