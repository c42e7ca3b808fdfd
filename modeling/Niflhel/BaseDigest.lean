import Niflhel.Base
import Niflhel.Traces

/-!
# What a base digest resolves to

`Store.Import` files a bundle under its digest and under the given reference, in one key
space. A run of imports, pulls and removals therefore keeps `get d` on the bundle with
digest `d` exactly when no successful import retags the digest of another bundle.
-/

namespace Niflhel.Base
open Directory Traces
variable (K : Crypto) (trust : String → String)

inductive Op where
  | importBundle (ref : String) (v : Signed) (kernel rootfs : Bytes) (writes : ℕ)
  | pull (ref policy : String) (fetched : Except String Fetched) (writes : ℕ)
  | remove (ref : String) (deletions : ℕ)

structure ImportCall where
  ref : String
  v : Signed
  kernel : Bytes
  rootfs : Bytes
  writes : ℕ

structure History where
  files : Files
  returned : List String

def fetches (f : Files) (ref policy : String) : Bool :=
  policy == "always" || (match get K trust f ref with
    | .ok _ => false
    | .error _ => policy != "never")

/-- The import made by an operation: its own, or the one a pull ends with. -/
def importCall (f : Files) : Op → Option ImportCall
  | .importBundle ref v kernel rootfs writes => some ⟨ref, v, kernel, rootfs, writes⟩
  | .pull ref policy (.ok x) writes =>
      if fetches K trust f ref policy then some ⟨ref, x.signed, x.kernel, x.rootfs, writes⟩
      else none
  | _ => none

def ImportCall.run (c : ImportCall) (f : Files) : Files × Except String Bundle :=
  Base.importBundle K trust f c.ref c.v c.kernel c.rootfs c.writes

def History.after (h : History) (c : ImportCall) : History :=
  ⟨(c.run K trust h.files).1, match (c.run K trust h.files).2 with
    | .ok b => b.digest :: h.returned
    | .error _ => h.returned⟩

def step (h : History) (o : Op) : History :=
  match importCall K trust h.files o with
  | some c => h.after K trust c
  | none =>
    match o with
    | .remove ref deletions => ⟨(Base.remove K trust h.files ref deletions).1, h.returned⟩
    | _ => h

def importHashed (ref : String) (v : Signed) (kernel rootfs : Bytes) : List Bytes :=
  [bytesOf ref, bytesOf (digest K (K.marshal v)), kernel, rootfs]

def Op.hashed : Op → List Bytes
  | .importBundle ref v kernel rootfs _ => importHashed K ref v kernel rootfs
  | .pull ref _ (.ok x) _ => importHashed K ref x.signed x.kernel x.rootfs
  | _ => []

/-- SHA-256 has no collision among the given byte strings. -/
def CollisionFree (H : List Bytes) : Prop :=
  ∀ x ∈ H, ∀ y ∈ H, K.sha256 x = K.sha256 y → x = y

/-- Every digest an import returned resolves to the bundle of that digest, if at all. -/
def DigestsExact (h : History) : Prop :=
  ∀ d ∈ h.returned, ∀ b, get K trust h.files d = .ok b → b.digest = d

/-- An admissible import under a returned digest is an import of that very bundle. -/
def KeepsDigests (h : History) (o : Op) : Prop :=
  ∀ c, importCall K trust h.files o = some c → Admissible K trust c.v c.kernel c.rootfs c.writes →
    c.ref ∈ h.returned → c.ref = digest K (K.marshal c.v)

def RecordsExact (H : List Bytes) (h : History) : Prop :=
  ∀ d ∈ h.returned, bytesOf d ∈ H ∧
    ∀ b, h.files.refs.lookup (record K d) = some b → b.digest = d

section
variable {K : Crypto} {trust : String → String} {H : List Bytes} {h : History} {o : Op}
  {c : ImportCall}

theorem RecordsExact.digestsExact (hJ : RecordsExact K H h) : DigestsExact K trust h := by
  intro d hd b hb
  exact (hJ d hd).2 b (get_eq_ok hb)

theorem bytesOf_injective {s t : String} (h : bytesOf s = bytesOf t) : s = t := by
  apply String.toByteArray_inj.1
  exact ByteArray.ext (Array.toList_inj.1 h)

theorem record_injective (hcf : CollisionFree K H) {s t : String} (hs : bytesOf s ∈ H)
    (ht : bytesOf t ∈ H) (h : record K s = record K t) : s = t := by
  have hsha : K.sha256 (bytesOf s) = K.sha256 (bytesOf t) := by
    have hl := congrArg String.toList h
    apply String.toList_injective
    simpa [record] using hl
  exact bytesOf_injective (hcf _ hs _ ht hsha)

theorem hashed_of_importCall {f : Files} (hc : importCall K trust f o = some c) :
    o.hashed K = importHashed K c.ref c.v c.kernel c.rootfs := by
  cases o with
  | importBundle ref v kernel rootfs writes =>
    cases hc
    rfl
  | pull ref policy fetched writes =>
    cases fetched with
    | error e => cases hc
    | ok x =>
      simp only [importCall] at hc
      split_ifs at hc
      cases hc
      rfl
  | remove ref deletions => cases hc

/-- Filing a bundle under its own digest keeps every record exact. -/
theorem lookup_put_digest (hcf : CollisionFree K H) (hJ : RecordsExact K H h) {b b' : Bundle}
    {d : String} (hb : bytesOf b.digest ∈ H) (hd : d ∈ b.digest :: h.returned)
    (hl : (put h.files.refs (record K b.digest) b).lookup (record K d) = some b') :
    b'.digest = d := by
  rw [lookup_put] at hl
  rcases List.mem_cons.1 hd with rfl | hd
  · rw [if_pos rfl] at hl
    rw [← Option.some.inj hl]
  · split_ifs at hl with hr
    · rw [← Option.some.inj hl]
      exact (record_injective hcf (hJ d hd).1 hb hr).symm
    · exact (hJ d hd).2 b' hl

theorem RecordsExact.after (hcf : CollisionFree K H) (hJ : RecordsExact K H h)
    (hH : ∀ x ∈ importHashed K c.ref c.v c.kernel c.rootfs, x ∈ H)
    (hkeep : Admissible K trust c.v c.kernel c.rootfs c.writes → c.ref ∈ h.returned →
      c.ref = digest K (K.marshal c.v)) : RecordsExact K H (h.after K trust c) := by
  have href : bytesOf c.ref ∈ H := hH _ (by simp [importHashed])
  have hdig : bytesOf (bundleOf K c.ref c.v).digest ∈ H := hH _ (by simp [importHashed, bundleOf])
  have hpair : K.sha256 c.kernel = K.sha256 c.rootfs → c.kernel = c.rootfs :=
    hcf _ (hH _ (by simp [importHashed])) _ (hH _ (by simp [importHashed]))
  rcases importBundle_refs K trust h.files c.ref c.v c.kernel c.rootfs c.writes with
    ⟨hrefs, e, he⟩ | ⟨hrefs, hok⟩
  · -- A failed import files the bundle under its digest at most.
    have hret : (h.after K trust c).returned = h.returned := by
      simp [History.after, ImportCall.run, he]
    intro d hd
    rw [hret] at hd
    refine ⟨(hJ d hd).1, fun b hb => ?_⟩
    rcases hrefs with hrefs | hrefs
    · exact (hJ d hd).2 b (by simpa [History.after, ImportCall.run, hrefs] using hb)
    · refine lookup_put_digest hcf hJ hdig (List.mem_cons_of_mem _ hd) ?_
      simpa [History.after, ImportCall.run, hrefs] using hb
  · have hadm := admissible_of_importBundle hok hpair
    have hret : (h.after K trust c).returned = (bundleOf K c.ref c.v).digest :: h.returned := by
      simp [History.after, ImportCall.run, hok]
    intro d hd
    rw [hret] at hd
    have hdH : bytesOf d ∈ H := by
      rcases List.mem_cons.1 hd with rfl | hd'
      · exact hdig
      · exact (hJ d hd').1
    refine ⟨hdH, fun b hb => ?_⟩
    have hb' : (put (put h.files.refs (record K (bundleOf K c.ref c.v).digest)
        (bundleOf K c.ref c.v)) (record K c.ref) (bundleOf K c.ref c.v)).lookup (record K d)
          = some b := by
      simpa [History.after, ImportCall.run, hrefs] using hb
    rw [lookup_put] at hb'
    split_ifs at hb' with hr
    · -- The record of the reference: the digest itself, or not returned before.
      rw [← Option.some.inj hb']
      obtain rfl := record_injective hcf hdH href hr
      rcases List.mem_cons.1 hd with hd' | hd'
      · exact hd'.symm
      · exact (hkeep hadm hd').symm
    · exact lookup_put_digest hcf hJ hdig hd hb'

theorem RecordsExact.remove (hJ : RecordsExact K H h) (ref : String) (deletions : ℕ) :
    RecordsExact K H ⟨(Base.remove K trust h.files ref deletions).1, h.returned⟩ := by
  intro d hd
  exact ⟨(hJ d hd).1, fun b hb => (hJ d hd).2 b (lookup_refs_remove hb)⟩

theorem RecordsExact.step (hcf : CollisionFree K H) (hH : ∀ x ∈ o.hashed K, x ∈ H)
    (hJ : RecordsExact K H h) (hkeep : KeepsDigests K trust h o) :
    RecordsExact K H (step K trust h o) := by
  unfold Base.step
  cases hc : importCall K trust h.files o with
  | some c =>
    rw [hashed_of_importCall hc] at hH
    exact hJ.after hcf hH (hkeep c hc)
  | none =>
    cases o with
    | remove ref deletions => exact hJ.remove ref deletions
    | importBundle | pull => exact hJ

theorem not_digestsExact_step (hcf : CollisionFree K H) (hH : ∀ x ∈ o.hashed K, x ∈ H)
    (hbreak : ¬ KeepsDigests K trust h o) : ¬ DigestsExact K trust (step K trust h o) := by
  unfold KeepsDigests at hbreak
  push Not at hbreak
  obtain ⟨c, hc, hadm, hret, hne⟩ := hbreak
  rw [hashed_of_importCall hc] at hH
  have hpair : K.sha256 c.kernel = K.sha256 c.rootfs → c.kernel = c.rootfs :=
    hcf _ (hH _ (by simp [importHashed])) _ (hH _ (by simp [importHashed]))
  have hrun : c.run K trust h.files = (filed K h.files c.ref c.v c.kernel c.rootfs,
      .ok (bundleOf K c.ref c.v)) := hadm.importBundle_eq hpair h.files c.ref
  intro hexact
  apply hne
  have hget := hadm.get_filed hpair h.files c.ref
  refine (hexact c.ref ?_ (bundleOf K c.ref c.v) ?_).symm
  · simp [Base.step, hc, History.after, hrun, hret]
  · simpa [Base.step, hc, History.after, hrun] using hget

end

/-- Over every sequence of imports, pulls and removals, a digest keeps naming one bundle
exactly when no admissible import uses a returned digest as the reference of another bundle. -/
theorem digestsExact_iff_keepsDigests (ops : List Op)
    (hcf : CollisionFree K (ops.flatMap (Op.hashed K))) :
    Always (step K trust) (DigestsExact K trust) ⟨Files.empty, []⟩ ops ↔
      Meets (step K trust) (KeepsDigests K trust) ⟨Files.empty, []⟩ ops := by
  have hstart : RecordsExact K (ops.flatMap (Op.hashed K)) ⟨Files.empty, []⟩ := by
    intro d hd
    cases hd
  refine always_iff_meets (step K trust) (J := RecordsExact K (ops.flatMap (Op.hashed K)))
    (V := fun o => ∀ x ∈ Op.hashed K o, x ∈ ops.flatMap (Op.hashed K)) ?_ ?_ ?_ hstart ?_
  · intro h hJ
    exact hJ.digestsExact
  · intro h o hV hJ hC
    exact hJ.step hcf hV hC
  · intro h o hV _ hC
    exact not_digestsExact_step hcf hV hC
  · intro o ho x hx
    exact List.mem_flatMap.2 ⟨o, ho, hx⟩

namespace Sample

def load (ref : String) (reserve : ℤ) : Op := .importBundle ref (signed reserve) kernel rootfs 4

def pinned : String := digest crypto (crypto.marshal (signed 64))

end Sample

open Base.Sample in
theorem digestsExact_iff_keepsDigests_sample :
    CollisionFree crypto ([load "a" 64, load "b" 128, .remove "a" 2].flatMap (Op.hashed crypto)) ∧
    (Always (step crypto trusted) (DigestsExact crypto trusted) ⟨Files.empty, []⟩
        [load "a" 64, load "b" 128, .remove "a" 2] ↔
      Meets (step crypto trusted) (KeepsDigests crypto trusted) ⟨Files.empty, []⟩
        [load "a" 64, load "b" 128, .remove "a" 2]) := by
  have hcf : CollisionFree crypto
      ([load "a" 64, load "b" 128, .remove "a" 2].flatMap (Op.hashed crypto)) := by
    unfold CollisionFree
    decide +kernel
  exact ⟨hcf, digestsExact_iff_keepsDigests crypto trusted _ hcf⟩

open Base.Sample in
/-- A base loaded under the digest of another base answers for it from then on. -/
theorem pinned_digest_retagged : let ops := [load "a" 64, load pinned 128]
    let h := ops.foldl (step crypto trusted) ⟨Files.empty, []⟩
    CollisionFree crypto (ops.flatMap (Op.hashed crypto)) ∧ pinned ∈ h.returned ∧
      ∃ b, get crypto trusted h.files pinned = .ok b ∧ b.digest ≠ pinned := by
  refine ⟨?_, ?_, bundleOf crypto pinned (signed 128), ?_, ?_⟩
  · unfold CollisionFree
    decide +kernel
  · decide +kernel
  · decide +kernel
  · decide +kernel

end Niflhel.Base
