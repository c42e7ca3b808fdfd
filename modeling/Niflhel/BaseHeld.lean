import Niflhel.Base

/-!
# What keeps a bundle in the base store

A digest is held when the record of the digest is there and names component files with
the signed digests. Imports write component files under their digests, so they harm no
other bundle, but they can overwrite a record: `importKeeps` excludes this. A removal
harms only the bundle its reference resolves to, and leaves every other digest held if it
deletes all of the records of that bundle.
-/

namespace Niflhel.Base
open Directory

variable {K : Crypto} {trust : String → String} {f : Files} {ref : String} {v : Signed}
  {kernel rootfs : Bytes} {writes : ℕ} {b : Bundle} {d : String}

def Component (K : Crypto) (blobs : List (String × Bytes)) (path : String) (d : Descriptor) :
    Prop := ∃ c, blobs.lookup path = some c ∧ digest K c = d.digest

def Complete (K : Crypto) (blobs : List (String × Bytes)) (b : Bundle) : Prop :=
  Component K blobs b.kernelPath b.signed.config.kernel ∧
    Component K blobs b.rootFSPath b.signed.config.rootFS

/-- The store holds the record and the component files of the bundle with this digest. -/
def Held (K : Crypto) (f : Files) (d : String) : Prop :=
  ∃ b, f.refs.lookup (record K d) = some b ∧ b.digest = d ∧ Complete K f.blobs b

structure Formed (K : Crypto) (trust : String → String) (b : Bundle) : Prop where
  signed : verify K trust b.signed = .ok ()
  kernelPath : b.kernelPath = blobPath b.signed.config.kernel
  rootFSPath : b.rootFSPath = blobPath b.signed.config.rootFS

/-- Every record leads to a held digest, and the empty reference has no record. -/
structure Linked (K : Crypto) (trust : String → String) (f : Files) : Prop where
  names : (f.refs.map Prod.fst).Nodup
  formed : ∀ n b, f.refs.lookup n = some b → Formed K trust b
  held : ∀ n b, f.refs.lookup n = some b → Held K f b.digest
  unnamed : f.refs.lookup (record K "") = none

theorem linked_empty : Linked K trust Files.empty where
  names := List.nodup_nil
  formed _ _ h := nomatch h
  held _ _ h := nomatch h
  unnamed := rfl

/-- Writing a record of the digest `d` under this name replaces no digest record of
another bundle. -/
def keepsRecord (K : Crypto) (f : Files) (name d : String) : Bool :=
  name != record K "" && match f.refs.lookup name with
    | some b => b.digest == d || record K b.digest != name
    | none => true

def importKeeps (K : Crypto) (f : Files) (ref : String) (v : Signed) : Bool :=
  keepsRecord K f (record K (bundleOf K ref v).digest) (bundleOf K ref v).digest &&
    keepsRecord K f (record K ref) (bundleOf K ref v).digest

variable {name : String}

theorem keepsRecord_iff : keepsRecord K f name d = true ↔ name ≠ record K "" ∧
    ∀ b, f.refs.lookup name = some b → record K b.digest = name → b.digest = d := by
  unfold keepsRecord
  cases hl : f.refs.lookup name with
  | none => simp
  | some b =>
    have hb : (b.digest == d || record K b.digest != name) = true ↔
        (record K b.digest = name → b.digest = d) := by
      simp [imp_iff_not_or, or_comm]
    rw [Bool.and_eq_true, bne_iff_ne, hb]
    simp

variable {blobs : List (String × Bytes)}

/-- A verified write keeps every component that lies under its digest. -/
theorem Component.put {c : Bytes} {e x : Descriptor}
    (h : Component K blobs (blobPath x) x) (hx : validateDescriptor x = .ok ())
    (he : validateDescriptor e = .ok ()) (hc : digest K c = e.digest) :
    Component K (put blobs (blobPath e) c) (blobPath x) x := by
  by_cases hp : blobPath x = blobPath e
  · exact ⟨c, by rw [hp, lookup_put_self], hc.trans (digest_eq_of_blobPath_eq hx he hp).symm⟩
  · obtain ⟨old, hold, hd⟩ := h
    exact ⟨old, by rw [lookup_put_ne _ _ hp, hold], hd⟩

theorem Complete.put {c : Bytes} {e : Descriptor}
    (h : Complete K blobs b) (hb : Formed K trust b) (he : validateDescriptor e = .ok ())
    (hc : digest K c = e.digest) : Complete K (Directory.put blobs (blobPath e) c) b := by
  obtain ⟨hk, hr⟩ := verify_eq_ok hb.signed
  unfold Complete at h ⊢
  rw [hb.kernelPath, hb.rootFSPath] at h ⊢
  exact ⟨h.1.put hk he hc, h.2.put hr he hc⟩

inductive Writes (K : Crypto) (f : Files) (v : Signed) : List (String × Bytes) → Prop where
  | none : Writes K f v f.blobs
  | kernel {c : Bytes} (hc : digest K c = v.config.kernel.digest) :
      Writes K f v (put f.blobs (blobPath v.config.kernel) c)
  | both {c e : Bytes} (hc : digest K c = v.config.kernel.digest)
      (he : digest K e = v.config.rootFS.digest) :
      Writes K f v (put (put f.blobs (blobPath v.config.kernel) c) (blobPath v.config.rootFS) e)

theorem Writes.complete (h : Writes K f v blobs)
    (hv : verify K trust v = .ok ()) (hb : Formed K trust b) (hold : Complete K f.blobs b) :
    Complete K blobs b := by
  obtain ⟨hk, hr⟩ := verify_eq_ok hv
  cases h with
  | none => exact hold
  | kernel hc => exact hold.put hb hk hc
  | both hc he => exact (hold.put hb hk hc).put hb hr he

theorem complete_bundleOf {c e : Bytes} (blobs : List (String × Bytes))
    (hv : verify K trust v = .ok ()) (hc : digest K c = v.config.kernel.digest)
    (he : digest K e = v.config.rootFS.digest) (ref : String) :
    Complete K (put (put blobs (blobPath v.config.kernel) c) (blobPath v.config.rootFS) e)
      (bundleOf K ref v) := by
  obtain ⟨hk, hr⟩ := verify_eq_ok hv
  have hkernel : Component K (put blobs (blobPath v.config.kernel) c)
      (blobPath v.config.kernel) v.config.kernel := ⟨c, lookup_put_self .., hc⟩
  exact ⟨hkernel.put hk hr he, e, lookup_put_self .., he⟩

/-- What an import can leave: component files alone, or also the record of the digest, or
both records. -/
theorem importBundle_effect (K : Crypto) (trust : String → String) (f : Files) (ref : String)
    (v : Signed) (kernel rootfs : Bytes) (writes : ℕ) :
    let out := (importBundle K trust f ref v kernel rootfs writes).1
    let b := bundleOf K ref v
    out = f ∨ verify K trust v = .ok () ∧
      ((out.refs = f.refs ∧ Writes K f v out.blobs) ∨
        ((out.refs = put f.refs (record K b.digest) b ∨
            out.refs = put (put f.refs (record K b.digest) b) (record K ref) b) ∧
          Complete K out.blobs b ∧ Writes K f v out.blobs)) := by
  intro out b
  simp only [out, b, importBundle]
  cases hv : verify K trust v with
  | error e => exact Or.inl rfl
  | ok u =>
    dsimp only
    split
    · exact Or.inl rfl
    cases hk : writeVerified K f.blobs (bundleOf K ref v).kernelPath kernel v.config.kernel with
    | error e => exact Or.inl rfl
    | ok blobs₁ =>
      obtain ⟨_, hdk, rfl⟩ := writeVerified_eq_ok hk
      refine Or.inr ⟨rfl, ?_⟩
      dsimp only
      split
      · exact Or.inl ⟨rfl, .kernel hdk⟩
      cases hr : writeVerified K (put f.blobs (bundleOf K ref v).kernelPath kernel)
          (bundleOf K ref v).rootFSPath rootfs v.config.rootFS with
      | error e => exact Or.inl ⟨rfl, .kernel hdk⟩
      | ok blobs₂ =>
        obtain ⟨_, hdr, rfl⟩ := writeVerified_eq_ok hr
        have hboth := Writes.both (f := f) hdk hdr
        have hcomplete := complete_bundleOf f.blobs hv hdk hdr ref
        dsimp only
        split
        · exact Or.inl ⟨rfl, hboth⟩
        split
        · exact Or.inl ⟨rfl, hboth⟩
        split
        · exact Or.inr ⟨Or.inl rfl, hcomplete, hboth⟩
        · exact Or.inr ⟨Or.inr rfl, hcomplete, hboth⟩

theorem Held.of_writes (h : Held K f d) (hf : Linked K trust f)
    (hv : verify K trust v = .ok ()) (hw : Writes K f v blobs) : Held K ⟨f.refs, blobs⟩ d := by
  obtain ⟨x, hx, hd, hc⟩ := h
  exact ⟨x, hx, hd, hw.complete hv (hf.formed _ x hx) hc⟩

theorem Linked.of_writes (hf : Linked K trust f)
    (hv : verify K trust v = .ok ()) (hw : Writes K f v blobs) :
    Linked K trust ⟨f.refs, blobs⟩ :=
  ⟨hf.names, hf.formed, fun n x hx => (hf.held n x hx).of_writes hf hv hw, hf.unnamed⟩

theorem Held.put (h : Held K f d) (hk : keepsRecord K f name b.digest = true)
    (hb : Complete K f.blobs b) : Held K ⟨Directory.put f.refs name b, f.blobs⟩ d := by
  obtain ⟨x, hx, hd, hc⟩ := h
  by_cases hn : record K d = name
  · have hxb : x.digest = b.digest :=
      (keepsRecord_iff.1 hk).2 x (hn ▸ hx) (by rw [hd, hn])
    exact ⟨b, by rw [hn, lookup_put_self], hxb.symm.trans hd, hb⟩
  · exact ⟨x, by rw [lookup_put_ne _ _ hn, hx], hd, hc⟩

theorem Linked.put (hf : Linked K trust f)
    (hk : keepsRecord K f name b.digest = true) (hb : Formed K trust b)
    (hc : Complete K f.blobs b) (hd : name = record K b.digest ∨ Held K f b.digest) :
    Linked K trust ⟨Directory.put f.refs name b, f.blobs⟩ where
  names := nodup_put name b hf.names
  formed n x hx := by
    rw [lookup_put] at hx
    split_ifs at hx
    · cases hx
      exact hb
    · exact hf.formed n x hx
  held n x hx := by
    have hnew : Held K ⟨Directory.put f.refs name b, f.blobs⟩ b.digest := by
      rcases hd with rfl | hd
      · exact ⟨b, lookup_put_self .., rfl, hc⟩
      · exact hd.put hk hc
    rw [lookup_put] at hx
    split_ifs at hx
    · cases hx
      exact hnew
    · exact (hf.held n x hx).put hk hc
  unnamed := by
    have hne : record K "" ≠ name := (keepsRecord_iff.1 hk).1.symm
    rw [lookup_put_ne _ _ hne]
    exact hf.unnamed

theorem formed_bundleOf (hv : verify K trust v = .ok ()) (ref : String) :
    Formed K trust (bundleOf K ref v) := ⟨hv, rfl, rfl⟩

/-- The record of the digest, once written, does not stand in the way of the other one. -/
theorem keepsRecord_put {name' : String} (h : keepsRecord K f name' b.digest = true)
    (blobs : List (String × Bytes)) :
    keepsRecord K ⟨put f.refs name b, blobs⟩ name' b.digest = true := by
  obtain ⟨hne, hrec⟩ := keepsRecord_iff.1 h
  refine keepsRecord_iff.2 ⟨hne, fun x hx hname => ?_⟩
  rw [lookup_put] at hx
  split_ifs at hx
  · rw [Option.some.inj hx]
  · exact hrec x hx hname

theorem linked_importBundle (hf : Linked K trust f) (hk : importKeeps K f ref v = true)
    (kernel rootfs : Bytes) (writes : ℕ) :
    Linked K trust (importBundle K trust f ref v kernel rootfs writes).1 ∧
      ∀ d, Held K f d → Held K (importBundle K trust f ref v kernel rootfs writes).1 d := by
  obtain ⟨hkd, hkr⟩ := (Bool.and_eq_true _ _).mp hk
  rcases importBundle_effect K trust f ref v kernel rootfs writes with
    hout | ⟨hv, ⟨hrefs, hw⟩ | ⟨hrefs, hc, hw⟩⟩
  · rw [hout]
    exact ⟨hf, fun _ h => h⟩
  · generalize (importBundle K trust f ref v kernel rootfs writes).1 = out at hrefs hw
    obtain ⟨refs, blobs⟩ := out
    subst hrefs
    exact ⟨hf.of_writes hv hw, fun d h => h.of_writes hf hv hw⟩
  · generalize (importBundle K trust f ref v kernel rootfs writes).1 = out at hrefs hw hc
    obtain ⟨refs, blobs⟩ := out
    have hf₁ := hf.of_writes hv hw
    have hb := formed_bundleOf hv ref
    have hf₂ := hf₁.put hkd hb hc (Or.inl rfl)
    have hheld₂ : ∀ d, Held K f d → Held K ⟨Directory.put f.refs
        (record K (bundleOf K ref v).digest) (bundleOf K ref v), blobs⟩ d :=
      fun d h => (h.of_writes hf hv hw).put hkd hc
    rcases hrefs with rfl | rfl
    · exact ⟨hf₂, hheld₂⟩
    · have hk₂ : keepsRecord K ⟨Directory.put f.refs (record K (bundleOf K ref v).digest)
          (bundleOf K ref v), blobs⟩ (record K ref) (bundleOf K ref v).digest = true :=
        keepsRecord_put hkr blobs
      have hself := hf₂.held _ _ (lookup_put_self ..)
      exact ⟨hf₂.put hk₂ hb hc (Or.inr hself), fun d h => (hheld₂ d h).put hk₂ hc⟩

def pullImports (K : Crypto) (trust : String → String) (f : Files) (ref policy : String)
    (fetched : Except String Fetched) : Option Fetched :=
  if policy ≠ "always" ∧ (policy = "never" ∨ (get K trust f ref).toOption.isSome) then none
  else fetched.toOption

def pullKeeps (K : Crypto) (trust : String → String) (f : Files) (ref policy : String)
    (fetched : Except String Fetched) : Bool :=
  match pullImports K trust f ref policy fetched with
  | some x => importKeeps K f ref x.signed
  | none => true

theorem pull_files (policy : String) (fetched : Except String Fetched) :
    (pull K trust f ref policy fetched writes).1 =
      match pullImports K trust f ref policy fetched with
      | some x => (importBundle K trust f ref x.signed x.kernel x.rootfs writes).1
      | none => f := by
  unfold pull pullImports
  by_cases hp : policy = "always"
  · simp only [hp]
    cases fetched <;> simp [Except.toOption]
  · cases hg : get K trust f ref with
    | ok b => simp [hp, Except.toOption]
    | error e =>
      by_cases hn : policy = "never"
      · simp [hn]
      · simp only [hn, Except.toOption]
        cases fetched <;> simp

theorem linked_pull (hf : Linked K trust f) (policy : String) (fetched : Except String Fetched)
    (hk : pullKeeps K trust f ref policy fetched = true) (writes : ℕ) :
    Linked K trust (pull K trust f ref policy fetched writes).1 ∧
      ∀ d, Held K f d → Held K (pull K trust f ref policy fetched writes).1 d := by
  rw [pull_files]
  unfold pullKeeps at hk
  cases hx : pullImports K trust f ref policy fetched with
  | none => exact ⟨hf, fun _ h => h⟩
  | some x =>
    simp only [hx] at hk
    exact linked_importBundle hf hk x.kernel x.rootfs writes

theorem lookup_of_pull {policy : String} {fetched : Except String Fetched}
    (h : (pull K trust f ref policy fetched writes).2 = .ok b) :
    (pull K trust f ref policy fetched writes).1.refs.lookup (record K ref) = some b := by
  have hfetch : ∀ x : Fetched,
      (importBundle K trust f ref x.signed x.kernel x.rootfs writes).2 = .ok b →
      (importBundle K trust f ref x.signed x.kernel x.rootfs writes).1.refs.lookup
        (record K ref) = some b := by
    intro x hx
    rcases importBundle_refs K trust f ref x.signed x.kernel x.rootfs writes with
      ⟨_, e, he⟩ | ⟨hrefs, hok⟩
    · rw [he] at hx
      cases hx
    · rw [hrefs, lookup_put_self, ← Except.ok.inj (hok.symm.trans hx)]
  unfold pull at h ⊢
  dsimp only at h ⊢
  split at h
  · rename_i hp
    rw [if_pos hp]
    cases hg : get K trust f ref with
    | ok x =>
      simp only [hg] at h
      rw [← Except.ok.inj h]
      exact get_eq_ok hg
    | error e =>
      simp only [hg] at h ⊢
      split at h
      · cases h
      · rename_i hn
        rw [if_neg hn]
        cases fetched with
        | error e => cases h
        | ok x => exact hfetch x h
  · rename_i hp
    rw [if_neg hp]
    cases fetched with
    | error e => cases h
    | ok x => exact hfetch x h

/-- All records of the bundle that the reference resolves to are deleted. -/
def removesWhole (K : Crypto) (trust : String → String) (f : Files) (ref : String)
    (deletions : ℕ) : Bool :=
  match get K trust f ref with
  | .ok b => decide (((readDir f.refs).filter fun r => r.2.digest == b.digest).length ≤ deletions)
  | .error _ => true

theorem not_mem_unusedPaths {n : String} {x : Bundle} (hx : (n, x) ∈ f.refs)
    (hd : x.digest ≠ b.digest) : x.kernelPath ∉ unusedPaths f b ∧ x.rootFSPath ∉ unusedPaths f b := by
  refine ⟨fun h => ?_, fun h => ?_⟩
  · have hall := List.all_eq_true.1 (List.mem_filter.1 h).2 (n, x) hx
    simp [hd] at hall
  · have hall := List.all_eq_true.1 (List.mem_filter.1 h).2 (n, x) hx
    simp [hd] at hall

theorem Component.keep {path : String} {x : Descriptor}
    {gone : List String} (h : Component K blobs path x) (hp : path ∉ gone) :
    Component K (keep (fun n => !gone.contains n) blobs) path x := by
  obtain ⟨c, hc, hd⟩ := h
  exact ⟨c, by rw [lookup_keep _ _ (by simpa using hp), hc], hd⟩

theorem Held.remove {deletions : ℕ} (h : Held K f d) (hf : Linked K trust f)
    (hne : ∀ b, get K trust f ref = .ok b → b.digest ≠ d) :
    Held K (remove K trust f ref deletions).1 d := by
  cases hg : get K trust f ref with
  | error e => simpa [Base.remove, hg] using h
  | ok b =>
    obtain ⟨x, hx, hd, hc⟩ := h
    have hxb : x.digest ≠ b.digest := fun he => hne b hg (he.symm.trans hd)
    obtain ⟨hk, hr⟩ := not_mem_unusedPaths (lookup_mem hx) hxb
    simp only [Base.remove, hg]
    refine ⟨x, ?_, hd, hc.1.keep fun hm => hk (List.mem_of_mem_take hm),
      hc.2.keep fun hm => hr (List.mem_of_mem_take hm)⟩
    have hname : record K d ∉ (((readDir f.refs).filter fun r =>
        r.2.digest == b.digest).map Prod.fst).take deletions := by
      intro hm
      obtain ⟨⟨n, y⟩, hy, rfl⟩ := List.mem_map.1 (List.mem_of_mem_take hm)
      obtain ⟨hmem, hyd⟩ := List.mem_filter.1 hy
      have hlook := lookup_of_mem hf.names (mem_readDir.1 hmem)
      rw [Option.some.inj (hx.symm.trans hlook)] at hxb
      exact hxb (by simpa using hyd)
    rw [lookup_keep _ _ (by simpa using hname), hx]

theorem linked_remove {deletions : ℕ} (hf : Linked K trust f)
    (hw : removesWhole K trust f ref deletions = true) :
    Linked K trust (remove K trust f ref deletions).1 := by
  cases hg : get K trust f ref with
  | error e => simpa [remove, hg] using hf
  | ok b =>
    have hall : ((readDir f.refs).filter fun r => r.2.digest == b.digest).length ≤
        deletions := by simpa [removesWhole, hg] using hw
    have hout : (remove K trust f ref deletions).1.refs = keep (fun n =>
        !(((readDir f.refs).filter fun r => r.2.digest == b.digest).map Prod.fst).contains n)
        f.refs := by
      simp only [remove, hg]
      rw [List.take_of_length_le (by simpa using hall)]
    refine ⟨?_, fun n x hx => hf.formed n x (lookup_refs_remove hx), fun n x hx => ?_, ?_⟩
    · rw [hout]
      exact nodup_keep _ hf.names
    · have hold := lookup_refs_remove hx
      refine (hf.held n x hold).remove hf fun b' hb' he => ?_
      cases hg.symm.trans hb'
      -- A record of the removed digest is gone, but this one is still there.
      rw [hout] at hx
      have hgone := (lookup_keep_eq_some hx).1
      have hmem : (n, x) ∈ (readDir f.refs).filter fun r => r.2.digest == b.digest :=
        List.mem_filter.2 ⟨mem_readDir.2 (lookup_mem hold), by simp [he]⟩
      have hn := List.mem_map_of_mem (f := Prod.fst) hmem
      simp only [Bool.not_eq_true', List.contains_eq_mem, decide_eq_false_iff_not] at hgone
      exact hgone hn
    · cases hl : (remove K trust f ref deletions).1.refs.lookup (record K "") with
      | none => rfl
      | some x => exact absurd (lookup_refs_remove hl) (by simp [hf.unnamed])

end Niflhel.Base
