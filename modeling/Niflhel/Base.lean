import Niflhel.Api
import Niflhel.Directory

/-!
# Signed bases and their store

The store of verified base bundles: record files under `refs`, named by the hash of a
reference or digest, and component files under `blobs`, named by their own digest. The
cryptographic and encoding primitives are the parameter `Crypto`. Every file operation
may fail: a call takes the number of its file writes or deletions that succeed, so all
partial effects are covered. Temporary files are not modelled.
-/

namespace Niflhel
open GoText Directory

abbrev Bytes := List UInt8

structure Descriptor where
  digest : String
  size : ℤ
  mediaType : String
  deriving DecidableEq, Repr

namespace Base

structure Config where
  schemaVersion : ℤ
  os : String
  architecture : String
  agentProtocol : ℤ
  initPath : String
  runtime : String
  guestReserveMiB : ℤ
  firecrackerVersions : List String
  kernel : Descriptor
  rootFS : Descriptor
  deriving DecidableEq, Repr

structure Signed where
  config : Config
  keyID : String
  signature : String
  deriving DecidableEq, Repr

structure Bundle where
  ref : String
  digest : String
  signed : Signed
  kernelPath : String
  rootFSPath : String
  deriving DecidableEq, Repr

/-- Primitives of the standard library: SHA-256 in hexadecimal, JSON encoding, standard
base64 and Ed25519 verification. -/
structure Crypto where
  sha256 : Bytes → String
  marshal : Signed → Bytes
  marshalConfig : Config → Bytes
  decode64 : String → Option Bytes
  encode64 : Bytes → String
  verify : Bytes → Bytes → Bytes → Bool

def maxBlob : ℤ := 8 * 2 ^ 30

def hexDigest (s : String) : Except String String :=
  if s.toList.length ≠ 71 ∨ ¬ hasPrefix s "sha256:" then .error "invalid sha256 digest"
  else if (s.toList.drop 7).all fun c => isHexDigit c || ('A' ≤ c && c ≤ 'F') then
    .ok (String.ofList (s.toList.drop 7))
  else .error "encoding/hex: invalid byte"

def validateDescriptor (d : Descriptor) : Except String Unit :=
  match hexDigest d.digest with
  | .error e => .error e
  | .ok _ => if d.size ≤ 0 ∨ d.size > maxBlob then .error "invalid base artifact size" else .ok ()

def validate (c : Config) : Except String Unit := do
  if c.schemaVersion ≠ 1 ∨ c.os ≠ "linux" ∨ c.architecture ≠ "amd64" ∨ c.agentProtocol ≠ 1 then
    throw "incompatible base schema/platform/protocol"
  if c.initPath ≠ "/sbin/niflhel-init" ∨ c.runtime ≠ "runc" then
    throw "unsupported base init/runtime"
  if c.guestReserveMiB < 64 ∨ c.guestReserveMiB > 4096 then throw "invalid guest memory reserve"
  if c.firecrackerVersions.length = 0 then
    throw "base must declare qualified Firecracker versions"
  validateDescriptor c.kernel
  validateDescriptor c.rootFS

def bytesOf (s : String) : Bytes := s.toUTF8.data.toList

structure Files where
  refs : List (String × Bundle)
  blobs : List (String × Bytes)
  deriving DecidableEq, Repr

def Files.empty : Files := ⟨[], []⟩

section
variable (K : Crypto) (trust : String → String)

def digest (b : Bytes) : String := "sha256:" ++ K.sha256 b

def verify (v : Signed) : Except String Unit :=
  match validate v.config with
  | .error e => .error e
  | .ok _ =>
    match K.decode64 (trust v.keyID) with
    | none => .error ("untrusted base publisher " ++ quoted v.keyID)
    | some pub =>
      if pub.length ≠ 32 then .error ("untrusted base publisher " ++ quoted v.keyID)
      else match K.decode64 v.signature with
        | none => .error "invalid base signature encoding"
        | some sig =>
          if sig.length ≠ 64 ∨ v.signature ≠ K.encode64 sig then
            .error "invalid base signature encoding"
          else if K.verify pub (K.marshalConfig v.config) sig then .ok ()
          else .error "invalid base signature"

def record (ref : String) : String := K.sha256 (bytesOf ref) ++ ".json"

def blobPath (d : Descriptor) : String := "blobs/" ++ String.ofList (d.digest.toList.drop 7)

def componentOk (f : Files) (path : String) (d : Descriptor) : Bool :=
  match f.blobs.lookup path with
  | none => false
  | some c => digest K c == d.digest && ((c.length : ℤ) == d.size)

def get (f : Files) (ref : String) : Except String Bundle :=
  match f.refs.lookup (record K ref) with
  | none => .error "no such file or directory"
  | some b =>
    match verify K trust b.signed with
    | .error e => .error e
    | .ok _ =>
      if !componentOk K f b.kernelPath b.signed.config.kernel then
        .error ("corrupt base component " ++ b.signed.config.kernel.digest)
      else if !componentOk K f b.rootFSPath b.signed.config.rootFS then
        .error ("corrupt base component " ++ b.signed.config.rootFS.digest)
      else .ok b

/-- The function `oci.WriteVerified`: the target appears only with the declared digest
and size. -/
def writeVerified (blobs : List (String × Bytes)) (path : String) (content : Bytes)
    (d : Descriptor) : Except String (List (String × Bytes)) :=
  match hexDigest d.digest with
  | .error e => .error e
  | .ok _ =>
    if d.size < 0 ∨ d.size > maxBlob then .error "blob too large"
    else if (content.length : ℤ) ≠ d.size ∨ digest K content ≠ d.digest then
      .error "blob digest/size mismatch"
    else .ok (put blobs path content)

def checkKernel (header : Bytes) : Except String Unit :=
  if header.length < 20 then .error "unexpected EOF"
  else if header.take 4 = [0x7f, 0x45, 0x4c, 0x46] ∧ header[4]? = some 2 ∧
      header[5]? = some 1 ∧ header[18]? = some 62 ∧ header[19]? = some 0 then .ok ()
  else .error "kernel must be an amd64 ELF vmlinux"

def ioError : String := "input/output error"

def bundleOf (ref : String) (v : Signed) : Bundle :=
  ⟨ref, digest K (K.marshal v), v, blobPath v.config.kernel, blobPath v.config.rootFS⟩

/-- The function `Store.Import`. The first `writes` of its four file writes succeed: the
kernel, the root file system, the record of the digest and the record of the reference. -/
def importBundle (f : Files) (ref : String) (v : Signed) (kernel rootfs : Bytes) (writes : ℕ) :
    Files × Except String Bundle :=
  match verify K trust v with
  | .error e => (f, .error e)
  | .ok _ =>
    let b := bundleOf K ref v
    if writes = 0 then (f, .error ioError)
    else match writeVerified K f.blobs b.kernelPath kernel v.config.kernel with
      | .error e => (f, .error e)
      | .ok blobs₁ =>
        if writes = 1 then (⟨f.refs, blobs₁⟩, .error ioError)
        else match writeVerified K blobs₁ b.rootFSPath rootfs v.config.rootFS with
          | .error e => (⟨f.refs, blobs₁⟩, .error e)
          | .ok blobs₂ =>
            match checkKernel ((blobs₂.lookup b.kernelPath).getD []) with
            | .error e => (⟨f.refs, blobs₂⟩, .error e)
            | .ok _ =>
              if writes = 2 then (⟨f.refs, blobs₂⟩, .error ioError)
              else
                let refs₁ := put f.refs (record K b.digest) b
                if writes = 3 then (⟨refs₁, blobs₂⟩, .error ioError)
                else (⟨put refs₁ (record K ref) b, blobs₂⟩, .ok b)

/-- What the registry serves for a reference, once `Pull` has admitted it. -/
structure Fetched where
  signed : Signed
  kernel : Bytes
  rootfs : Bytes
  deriving DecidableEq, Repr

def pull (f : Files) (ref policy : String) (fetched : Except String Fetched) (writes : ℕ) :
    Files × Except String Bundle :=
  let fetch := match fetched with
    | .error e => (f, .error e)
    | .ok x => importBundle K trust f ref x.signed x.kernel x.rootfs writes
  if policy ≠ "always" then
    match get K trust f ref with
    | .ok b => (f, .ok b)
    | .error e => if policy = "never" then (f, .error e) else fetch
  else fetch

def unusedPaths (f : Files) (b : Bundle) : List String :=
  [b.kernelPath, b.rootFSPath].filter fun p =>
    f.refs.all fun r => r.2.digest == b.digest || (r.2.kernelPath != p && r.2.rootFSPath != p)

/-- The function `Store.Remove`, of whose deletions the first `deletions` succeed. The
records of the digest go first, in directory order, then the unused components. -/
def remove (f : Files) (ref : String) (deletions : ℕ) : Files × Except String Unit :=
  match get K trust f ref with
  | .error e => (f, .error e)
  | .ok b =>
    let names := ((readDir f.refs).filter fun r => r.2.digest == b.digest).map Prod.fst
    let paths := unusedPaths f b
    let gone := names.take deletions
    let goneBlobs := paths.take (deletions - names.length)
    (⟨keep (fun n => !gone.contains n) f.refs, keep (fun n => !goneBlobs.contains n) f.blobs⟩,
      if names.length + paths.length ≤ deletions then .ok () else .error ioError)

end

section
variable {K : Crypto} {trust : String → String} {f f' : Files} {ref : String} {v : Signed}
  {kernel rootfs : Bytes} {writes : ℕ} {b : Bundle}

theorem hexDigest_eq_ok {s x : String} (h : hexDigest s = .ok x) :
    s.toList = "sha256:".toList ++ s.toList.drop 7 := by
  unfold hexDigest at h
  split_ifs at h with hs
  have hp : hasPrefix s "sha256:" = true := by
    by_contra hn
    exact hs (Or.inr (by simpa using hn))
  obtain ⟨rest, hrest⟩ := List.isPrefixOf_iff_prefix.1 hp
  rw [← hrest]
  simp

theorem validateDescriptor_eq_ok {d : Descriptor} (h : validateDescriptor d = .ok ()) :
    (∃ x, hexDigest d.digest = .ok x) ∧ 0 < d.size ∧ d.size ≤ maxBlob := by
  unfold validateDescriptor at h
  cases hx : hexDigest d.digest with
  | error e => simp [hx] at h
  | ok x =>
    simp only [hx] at h
    split_ifs at h with hsize
    exact ⟨⟨x, rfl⟩, by omega, by omega⟩

theorem validate_eq_ok {c : Config} (h : validate c = .ok ()) :
    validateDescriptor c.kernel = .ok () ∧ validateDescriptor c.rootFS = .ok () := by
  unfold validate at h
  simp only [bind, Except.bind, throw, throwThe, MonadExceptOf.throw] at h
  split_ifs at h
  cases hk : validateDescriptor c.kernel with
  | error e => simp [hk] at h
  | ok u => exact ⟨rfl, by simpa [hk] using h⟩

theorem guestReserve_of_validate {c : Config} (h : validate c = .ok ()) :
    64 ≤ c.guestReserveMiB ∧ c.guestReserveMiB ≤ 4096 := by
  unfold validate at h
  simp only [bind, Except.bind, throw, throwThe, MonadExceptOf.throw] at h
  split_ifs at h
  omega

theorem guestReserve_of_verify (h : verify K trust v = .ok ()) :
    64 ≤ v.config.guestReserveMiB ∧ v.config.guestReserveMiB ≤ 4096 := by
  unfold verify at h
  cases hc : validate v.config with
  | error e => simp [hc] at h
  | ok u => exact guestReserve_of_validate hc

theorem verify_eq_ok (h : verify K trust v = .ok ()) :
    validateDescriptor v.config.kernel = .ok () ∧ validateDescriptor v.config.rootFS = .ok () := by
  unfold verify at h
  cases hc : validate v.config with
  | error e => simp [hc] at h
  | ok u => exact validate_eq_ok hc

/-- Components with one path are components with one digest. -/
theorem digest_eq_of_blobPath_eq {d e : Descriptor} (hd : validateDescriptor d = .ok ())
    (he : validateDescriptor e = .ok ()) (h : blobPath d = blobPath e) :
    d.digest = e.digest := by
  obtain ⟨⟨x, hx⟩, -⟩ := validateDescriptor_eq_ok hd
  obtain ⟨⟨y, hy⟩, -⟩ := validateDescriptor_eq_ok he
  have hdrop : d.digest.toList.drop 7 = e.digest.toList.drop 7 := by
    unfold blobPath at h
    have hl := congrArg String.toList h
    simpa using hl
  apply String.toList_injective
  rw [hexDigest_eq_ok hx, hexDigest_eq_ok hy, hdrop]

theorem sha256_eq_of_digest_eq {x y : Bytes} (h : digest K x = digest K y) :
    K.sha256 x = K.sha256 y := by
  have hl := congrArg String.toList h
  apply String.toList_injective
  simpa [digest] using hl

theorem writeVerified_eq_ok {blobs blobs' : List (String × Bytes)} {path : String}
    {content : Bytes} {d : Descriptor} (h : writeVerified K blobs path content d = .ok blobs') :
    (content.length : ℤ) = d.size ∧ digest K content = d.digest ∧
      blobs' = put blobs path content := by
  unfold writeVerified at h
  cases hx : hexDigest d.digest with
  | error e => simp [hx] at h
  | ok x =>
    simp only [hx] at h
    split_ifs at h with hsize hmatch
    have hm : (content.length : ℤ) = d.size ∧ digest K content = d.digest := by
      simpa only [not_or, not_not] using hmatch
    exact ⟨hm.1, hm.2, (Except.ok.inj h).symm⟩

theorem writeVerified_of_matches {blobs : List (String × Bytes)} {path : String}
    {content : Bytes} {d : Descriptor} (hd : validateDescriptor d = .ok ())
    (hm : (content.length : ℤ) = d.size ∧ digest K content = d.digest) :
    writeVerified K blobs path content d = .ok (put blobs path content) := by
  obtain ⟨⟨x, hx⟩, hpos, hmax⟩ := validateDescriptor_eq_ok hd
  unfold writeVerified
  simp only [hx, hm.1, hm.2]
  rw [if_neg (by omega), if_neg (by simp)]

structure Admissible (K : Crypto) (trust : String → String) (v : Signed) (kernel rootfs : Bytes)
    (writes : ℕ) : Prop where
  signed : verify K trust v = .ok ()
  kernel_matches : (kernel.length : ℤ) = v.config.kernel.size ∧
    digest K kernel = v.config.kernel.digest
  rootfs_matches : (rootfs.length : ℤ) = v.config.rootFS.size ∧
    digest K rootfs = v.config.rootFS.digest
  elf : checkKernel kernel = .ok ()
  written : 4 ≤ writes

def filed (K : Crypto) (f : Files) (ref : String) (v : Signed) (kernel rootfs : Bytes) : Files :=
  let b := bundleOf K ref v
  ⟨put (put f.refs (record K b.digest) b) (record K ref) b,
    put (put f.blobs b.kernelPath kernel) b.rootFSPath rootfs⟩

/-- The kernel file keeps the kernel even when both components share a path. -/
theorem lookup_kernelPath (blobs : List (String × Bytes)) (hv : verify K trust v = .ok ())
    (hk : digest K kernel = v.config.kernel.digest)
    (hr : digest K rootfs = v.config.rootFS.digest)
    (hcf : K.sha256 kernel = K.sha256 rootfs → kernel = rootfs) :
    (put (put blobs (blobPath v.config.kernel) kernel) (blobPath v.config.rootFS) rootfs).lookup
      (blobPath v.config.kernel) = some kernel := by
  obtain ⟨hkv, hrv⟩ := verify_eq_ok hv
  by_cases hp : blobPath v.config.kernel = blobPath v.config.rootFS
  · have hd := digest_eq_of_blobPath_eq hkv hrv hp
    rw [← hk, ← hr] at hd
    rw [hp, lookup_put_self, hcf (sha256_eq_of_digest_eq hd)]
  · rw [lookup_put_ne _ _ hp, lookup_put_self]

theorem importBundle_refs (K : Crypto) (trust : String → String) (f : Files) (ref : String)
    (v : Signed) (kernel rootfs : Bytes) (writes : ℕ) :
    let out := importBundle K trust f ref v kernel rootfs writes
    let b := bundleOf K ref v
    ((out.1.refs = f.refs ∨ out.1.refs = put f.refs (record K b.digest) b) ∧
        ∃ e, out.2 = .error e) ∨
      (out.1.refs = put (put f.refs (record K b.digest) b) (record K ref) b ∧ out.2 = .ok b) := by
  intro out b
  simp only [out, importBundle]
  repeat' split
  all_goals first
    | exact Or.inl ⟨Or.inl rfl, _, rfl⟩
    | exact Or.inl ⟨Or.inr rfl, _, rfl⟩
    | exact Or.inr ⟨rfl, rfl⟩

theorem admissible_of_importBundle
    (h : (importBundle K trust f ref v kernel rootfs writes).2 = .ok b)
    (hcf : K.sha256 kernel = K.sha256 rootfs → kernel = rootfs) :
    Admissible K trust v kernel rootfs writes := by
  unfold importBundle at h
  cases hv : verify K trust v with
  | error e => simp [hv] at h
  | ok u =>
    simp only [hv] at h
    split at h
    · cases h
    cases hk : writeVerified K f.blobs (bundleOf K ref v).kernelPath kernel v.config.kernel with
    | error e => simp [hk] at h
    | ok blobs₁ =>
      simp only [hk] at h
      split at h
      · cases h
      cases hr : writeVerified K blobs₁ (bundleOf K ref v).rootFSPath rootfs
          v.config.rootFS with
      | error e => simp [hr] at h
      | ok blobs₂ =>
        obtain ⟨hlk, hdk, rfl⟩ := writeVerified_eq_ok hk
        obtain ⟨hlr, hdr, rfl⟩ := writeVerified_eq_ok hr
        have hkernel := lookup_kernelPath f.blobs hv hdk hdr hcf
        simp only [hr] at h
        simp only [bundleOf, hkernel, Option.getD_some] at h
        cases he : checkKernel kernel with
        | error e => simp [he] at h
        | ok w =>
          simp only [he] at h
          split_ifs at h
          exact ⟨hv, ⟨hlk, hdk⟩, ⟨hlr, hdr⟩, he, by omega⟩

theorem Admissible.importBundle_eq (h : Admissible K trust v kernel rootfs writes)
    (hcf : K.sha256 kernel = K.sha256 rootfs → kernel = rootfs) (f : Files) (ref : String) :
    importBundle K trust f ref v kernel rootfs writes =
      (filed K f ref v kernel rootfs, .ok (bundleOf K ref v)) := by
  obtain ⟨hkv, hrv⟩ := verify_eq_ok h.signed
  have hw := h.written
  have hkernel := lookup_kernelPath f.blobs h.signed h.kernel_matches.2 h.rootfs_matches.2 hcf
  unfold importBundle
  simp only [h.signed, writeVerified_of_matches hkv h.kernel_matches,
    writeVerified_of_matches hrv h.rootfs_matches]
  simp only [bundleOf, hkernel, Option.getD_some, h.elf]
  rw [if_neg (by omega), if_neg (by omega), if_neg (by omega), if_neg (by omega)]
  rfl

theorem Admissible.get_filed (h : Admissible K trust v kernel rootfs writes)
    (hcf : K.sha256 kernel = K.sha256 rootfs → kernel = rootfs) (f : Files) (ref : String) :
    get K trust (filed K f ref v kernel rootfs) ref = .ok (bundleOf K ref v) := by
  have hkernel := lookup_kernelPath f.blobs h.signed h.kernel_matches.2 h.rootfs_matches.2 hcf
  unfold get
  simp only [filed, lookup_put_self]
  simp [bundleOf, h.signed, componentOk, hkernel, lookup_put_self, h.kernel_matches,
    h.rootfs_matches]

theorem get_eq_ok (h : get K trust f ref = .ok b) : f.refs.lookup (record K ref) = some b := by
  unfold get at h
  cases hl : f.refs.lookup (record K ref) with
  | none => simp [hl] at h
  | some b' =>
    simp only [hl] at h
    split at h
    · cases h
    · split_ifs at h
      rw [Except.ok.inj h]

theorem verify_of_get (h : get K trust f ref = .ok b) : verify K trust b.signed = .ok () := by
  unfold get at h
  cases hl : f.refs.lookup (record K ref) with
  | none => simp [hl] at h
  | some b' =>
    simp only [hl] at h
    split at h
    · cases h
    · rename_i hv
      split_ifs at h
      rwa [← Except.ok.inj h]

theorem verify_of_importBundle (h : (importBundle K trust f ref v kernel rootfs writes).2 = .ok b) :
    verify K trust b.signed = .ok () := by
  rcases importBundle_refs K trust f ref v kernel rootfs writes with ⟨_, e, he⟩ | ⟨_, hok⟩
  · rw [he] at h
    cases h
  · cases hok.symm.trans h
    change verify K trust v = .ok ()
    cases hv : verify K trust v with
    | ok u => rfl
    | error e => simp [importBundle, hv] at h

theorem verify_of_pull {policy : String} {fetched : Except String Fetched}
    (h : (pull K trust f ref policy fetched writes).2 = .ok b) :
    verify K trust b.signed = .ok () := by
  unfold pull at h
  dsimp only at h
  split at h
  · cases hg : get K trust f ref with
    | ok x =>
      simp only [hg] at h
      rw [← Except.ok.inj h]
      exact verify_of_get hg
    | error e =>
      simp only [hg] at h
      split at h
      · cases h
      · cases fetched with
        | error e => cases h
        | ok x => exact verify_of_importBundle h
  · cases fetched with
    | error e => cases h
    | ok x => exact verify_of_importBundle h

theorem lookup_refs_remove {name : String} {deletions : ℕ}
    (h : (remove K trust f ref deletions).1.refs.lookup name = some b) :
    f.refs.lookup name = some b := by
  cases hg : get K trust f ref with
  | error e => simpa [remove, hg] using h
  | ok c =>
    simp only [remove, hg] at h
    exact (lookup_keep_eq_some h).2

end

namespace Sample

def hexChar (n : ℕ) : Char := "0123456789abcdef".toList.getD n '0'

def hash (b : Bytes) : String :=
  let n := b.foldl (fun n x => n * 257 + x.toNat + 1) 0
  String.ofList ([n, n / 16, n / 256, n / 4096].map (fun d => hexChar (d % 16)) ++
    List.replicate 60 '0')

def crypto : Crypto where
  sha256 := hash
  marshal v := [UInt8.ofNat v.config.guestReserveMiB.toNat]
  marshalConfig c := [UInt8.ofNat c.guestReserveMiB.toNat]
  decode64 s := if s = "key" then some (List.replicate 32 0)
    else if s = "sig" then some (List.replicate 64 0) else none
  encode64 _ := "sig"
  verify _ _ _ := true

def trusted (_ : String) : String := "key"

def kernel : Bytes := [0x7f, 0x45, 0x4c, 0x46, 2, 1, 1, 0, 0, 0, 0, 0, 0, 0, 0, 0, 2, 0, 62, 0]

def rootfs : Bytes := [7]

def signed (reserve : ℤ) : Signed where
  config := ⟨1, "linux", "amd64", 1, "/sbin/niflhel-init", "runc", reserve, ["v1.16.1"],
    ⟨digest crypto kernel, 20, ""⟩, ⟨digest crypto rootfs, 1, ""⟩⟩
  keyID := "k"
  signature := "sig"

end Sample

end Base
end Niflhel
