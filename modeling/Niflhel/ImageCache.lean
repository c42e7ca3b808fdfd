import Niflhel.ImageStore

/-!
# Integrity of the image cache

Blobs are renamed to their digest after it was verified, and before any record that names
them; a removal deletes the records first and then only blobs that no record names. So in
every state that a failure or a crash can leave, a blob has the digest it is named after,
and a readable record, even one in a temporary file, names only blobs that are there.
-/

namespace Niflhel.Oci
open Concurrent FileOps Fsutil Catalog Directory
open Base (digest record CollisionFree)

variable {K : Base.Crypto} {P : Decoder} {C : Codec Image} {H : List Bytes} {s : Disk Dir}
  {d : Descriptor} {tmp : String} {v : Image}

/-- The blob of the descriptor is there with the recorded size. -/
def Held (s : Disk Dir) (d : Descriptor) : Prop :=
  ∃ p c, blob d.digest = .ok p ∧ (s .blobs).lookup p = some c ∧ (c.length : ℤ) = d.size

structure Cached (K : Base.Crypto) (C : Codec Image) (H : List Bytes) (s : Disk Dir) : Prop where
  hashed : ∀ h c, (s .blobs).lookup h = some c →
    ".download-".toList <+: h.toList ∨ K.sha256 c = h ∧ c ∈ H
  layers : ∀ r, Readable C s r → ∀ d ∈ r.layers, Held s d

variable {x p : String}

theorem blob_eq_ok (h : blob x = .ok p) :
    x.toList = "sha256:".toList ++ p.toList ∧ p.toList.length = 64 ∧
      ∀ c ∈ p.toList, (isHexDigit c || ('A' ≤ c && c ≤ 'F')) = true := by
  have hx := Base.hexDigest_eq_ok h
  unfold blob Base.hexDigest at h
  split_ifs at h with hbad hhex
  cases h
  have htext : (String.ofList (x.toList.drop 7)).toList = x.toList.drop 7 := String.toList_ofList
  rw [htext]
  refine ⟨hx, ?_, List.all_eq_true.1 hhex⟩
  have hlen : x.toList.length = 71 := by
    by_contra hne
    exact hbad (Or.inl hne)
  rw [List.length_drop, hlen]

theorem not_download (hlen : p.toList.length = 64)
    (hhex : ∀ c ∈ p.toList, (isHexDigit c || ('A' ≤ c && c ≤ 'F')) = true) :
    ¬ ".download-".toList <+: p.toList := by
  cases hp : p.toList with
  | nil => simp [hp] at hlen
  | cons c cs =>
    have hc := hhex c (by simp [hp])
    rw [← hp]
    exact not_temporary "download-" hp (by rintro rfl; simp [isHexDigit] at hc)

theorem blob_not_download (h : blob x = .ok p) : ¬ ".download-".toList <+: p.toList :=
  not_download (blob_eq_ok h).2.1 (blob_eq_ok h).2.2

theorem blob_injective {y : String} (hx : blob x = .ok p) (hy : blob y = .ok p) : x = y := by
  apply String.toList_injective
  rw [(blob_eq_ok hx).1, (blob_eq_ok hy).1]

/-- The file of a digest is named after the hash. -/
theorem sha256_of_digest {c : Bytes} (h : blob x = .ok p) (hc : digest K c = x) : K.sha256 c = p := by
  have hx := (blob_eq_ok h).1
  rw [← hc, digest, String.toList_append] at hx
  exact String.toList_injective (List.append_cancel_left hx)

/-- A temporary file in `blobs` does not hide a blob. -/
theorem Held.of_put_temporary {c : Bytes} (h : Held s d) (htmp : ".download-".toList <+: tmp.toList) :
    Held (s.put .blobs tmp c) d := by
  obtain ⟨p, c', hp, hc', hlen⟩ := h
  have hne : p ≠ tmp := fun he => blob_not_download hp (he ▸ htmp)
  exact ⟨p, c', hp, by rw [put_same, lookup_put_ne _ _ hne, hc'], hlen⟩

/-- A verified blob replaces only one with the same contents. -/
theorem Held.of_put_blob {c : Bytes} (hs : Cached K C H s) (hH : CollisionFree K H)
    (hc : c ∈ H) (hp : K.sha256 c = p) (h : Held s d) : Held (s.put .blobs p c) d := by
  obtain ⟨q, c', hq, hc', hlen⟩ := h
  by_cases hqp : q = p
  · subst hqp
    rcases hs.hashed q c' hc' with htmp | ⟨hsha, hmem⟩
    · exact absurd htmp (blob_not_download hq)
    · obtain rfl := hH c hc c' hmem (hp.trans hsha.symm)
      exact ⟨q, c, hq, by simp, hlen⟩
  · exact ⟨q, c', hq, by rw [put_same, lookup_put_ne _ _ hqp, hc'], hlen⟩

theorem held_put_refs {c : Bytes} (name : String) : Held (s.put .refs name c) d ↔ Held s d := by
  unfold Held
  rw [put_other (by decide)]

theorem readable_put_blobs {c : Bytes} : Readable C (s.put .blobs p c) v ↔ Readable C s v := by
  unfold Readable
  rw [put_other (by decide)]

theorem Cached.put_temporary (hs : Cached K C H s) (htmp : ".download-".toList <+: tmp.toList)
    (c : Bytes) : Cached K C H (s.put .blobs tmp c) where
  hashed h c' hc' := by
    rw [put_same, lookup_put] at hc'
    split_ifs at hc' with hh
    · exact Or.inl (hh ▸ htmp)
    · exact hs.hashed h c' hc'
  layers r hr d hd := (hs.layers r (readable_put_blobs.1 hr) d hd).of_put_temporary htmp

theorem Cached.put_blob {c : Bytes} (hs : Cached K C H s) (hH : CollisionFree K H)
    (hc : c ∈ H) (hp : K.sha256 c = p) : Cached K C H (s.put .blobs p c) where
  hashed h c' hc' := by
    rw [put_same, lookup_put] at hc'
    split_ifs at hc' with hh
    · subst hh
      cases hc'
      exact Or.inr ⟨hp, hc⟩
    · exact hs.hashed h c' hc'
  layers r hr d hd := (hs.layers r (readable_put_blobs.1 hr) d hd).of_put_blob hs hH hc hp

theorem Cached.put_record (hs : Cached K C H s) (hC : C.Lawful) (hv : ∀ d ∈ v.layers, Held s d)
    (name : String) (n : ℕ) : Cached K C H (s.put .refs name ((C.marshal v).take n)) where
  hashed h c hc := by
    exact hs.hashed h c hc
  layers r hr d hd := by
    obtain ⟨file, b, hb, hread⟩ := hr
    rw [put_same, lookup_put] at hb
    split_ifs at hb with hfile
    · cases hb
      by_cases hn : n < (C.marshal v).length
      · obtain ⟨e, he⟩ := hC.unmarshal_take v n hn
        rw [he] at hread
        cases hread
      · rw [List.take_of_length_le (by omega), hC.unmarshal_marshal] at hread
        cases hread
        exact hv d hd
    · exact hs.layers r ⟨file, b, hb, hread⟩ d hd

theorem counted_cached : Counted C layout (Cached K C H) where
  record s name hs :=
    { hashed := fun h c hc => by
        exact hs.hashed h c hc
      layers := fun r hr d hd => by
        obtain ⟨file, b, hb, hread⟩ := hr
        rw [erase_same] at hb
        have hheld := hs.layers r ⟨file, b, (lookup_keep_eq_some hb).2, hread⟩ d hd
        unfold Held at hheld ⊢
        rwa [erase_other (by decide)] }
  blob s path hs hunused :=
    { hashed := fun h c hc => by
        rw [erase_same] at hc
        exact hs.hashed h c (lookup_keep_eq_some hc).2
      layers := fun r hr d hd => by
        obtain ⟨p, c, hp, hc, hlen⟩ := hs.layers r hr.of_erase d hd
        have hne : p ≠ path := by
          rintro rfl
          exact hunused r hr.of_erase d.digest (List.mem_map_of_mem hd) hp
        refine ⟨p, c, hp, ?_, hlen⟩
        rw [erase_same, lookup_keep _ _ (by simpa using hne), hc] }

section
variable {Job' Loss : Type} {code : Job' → Files Dir Unit} {crash : Loss → Disk Dir → Disk Dir}
  {ok : Disk Dir → Event (FileOps.Op Dir) FileOps.Op.Reply Job' Loss → Bool}

theorem safe_checkLayers (hs : Cached K C H s) (layers : List Descriptor) :
    Machine.Safe ⟨FileOps.exec, code, crash⟩ ok (Cached K C H) (fun _ s' => Cached K C H s')
      ((checkLayers K layers).expand (steps K C)) s := by
  induction layers with
  | nil => exact hs
  | cons d rest ih =>
    unfold checkLayers
    cases blob d.digest with
    | error e => exact hs
    | ok p =>
      refine Catalog.safe_call (safe_readBlob hs) fun read s' hread => ?_
      obtain ⟨rfl, _⟩ := hread
      cases read with
      | error e => exact hs
      | ok c =>
        dsimp only
        split
        · exact hs
        · exact ih

theorem safe_get (hs : Cached K C H s) (ref : String) :
    Machine.Safe ⟨FileOps.exec, code, crash⟩ ok (Cached K C H) (fun _ s' => Cached K C H s')
      ((get K ref).expand (steps K C)) s := by
  refine Catalog.safe_call (safe_readRecord hs) fun read s' hread => ?_
  obtain ⟨rfl, _⟩ := hread
  cases read with
  | error e => exact hs
  | ok v =>
    rw [Program.expand_bind]
    exact (safe_checkLayers hs v.layers).bind _ fun
      | some e, _, hs' => hs'
      | none, _, hs' => hs'

def writeLayer (l : Layer) (desc : Descriptor) (p : String) : Calls Image (Option String) :=
  match l.compressed with
  | .error e => return some e
  | .ok r => call (.writeBlob p r desc)

theorem safe_fetchLayer (hs : Cached K C H s) (hH : CollisionFree K H) {l : Layer}
    (hp : blob d.digest = .ok p) (hl : ∀ r, l.compressed = .ok r → r.bytes ∈ H) :
    Machine.Safe ⟨FileOps.exec, code, crash⟩ ok (Cached K C H)
      (fun e s' => Cached K C H s' ∧ (e = none → Held s' d) ∧ ∀ x, Held s x → Held s' x)
      ((fetchLayer K l d p).expand (steps K C)) s := by
  have hwrite : Machine.Safe ⟨FileOps.exec, code, crash⟩ ok (Cached K C H)
      (fun e s' => Cached K C H s' ∧ (e = none → Held s' d) ∧ ∀ x, Held s x → Held s' x)
      ((writeLayer l d p).expand (steps K C)) s := by
    unfold writeLayer
    cases hr : l.compressed with
    | error e => exact ⟨hs, by simp, fun x hx => hx⟩
    | ok r =>
      have hmem := hl r hr
      have hput : digest K r.bytes = d.digest → Cached K C H (s.put .blobs p r.bytes) :=
        fun hd => hs.put_blob hH hmem (sha256_of_digest hp hd)
      refine Catalog.safe_call (safe_writeVerified (blob_not_download hp) hs
        (fun tmp n hfresh => hs.put_temporary hfresh.1 _) fun _ hd => hput hd) fun e s' hs' => ?_
      rcases hs' with ⟨rfl, hlen, hd, rfl⟩ | ⟨he, rfl | ⟨tmp, n, hfresh, rfl⟩⟩
      · exact ⟨hput hd, fun _ => ⟨p, r.bytes, hp, by simp, hlen⟩,
          fun x hx => hx.of_put_blob hs hH hmem (sha256_of_digest hp hd)⟩
      · exact ⟨hs, fun h => absurd h he, fun x hx => hx⟩
      · exact ⟨hs.put_temporary hfresh.1 _, fun h => absurd h he,
          fun x hx => hx.of_put_temporary hfresh.1⟩
  refine Catalog.safe_call (safe_readBlob hs) fun read s' hread => ?_
  obtain ⟨rfl, hread⟩ := hread
  cases read with
  | error e => exact hwrite
  | ok c =>
    by_cases hc : digest K c = d.digest ∧ (c.length : ℤ) = d.size
    · simp only [hc, and_self, decide_true]
      exact ⟨hs, fun _ => ⟨p, c, hp, hread c rfl, hc.2⟩, fun x hx => hx⟩
    · simp only [hc, decide_false]
      exact hwrite

theorem describe_eq_ok {l : Layer} {total : ℤ} (h : describe l total = .ok (d, p)) :
    blob d.digest = .ok p := by
  unfold describe at h
  simp only [bind, Except.bind, throw, throwThe, MonadExceptOf.throw, pure, Except.pure] at h
  repeat' split at h
  all_goals try cases h
  assumption

theorem safe_importLayers (hH : CollisionFree K H) {layers : List (Layer × String)}
    (hlayers : ∀ l ∈ layers, ∀ r, l.1.compressed = .ok r → r.bytes ∈ H) (hs : Cached K C H s)
    (total : ℤ) (hv : ∀ d ∈ v.layers, Held s d) :
    Machine.Safe ⟨FileOps.exec, code, crash⟩ ok (Cached K C H)
      (fun r s' => Cached K C H s' ∧ ∀ w, r = .ok w → ∀ d ∈ w.layers, Held s' d)
      ((importLayers K v total layers).expand (steps K C)) s := by
  induction layers generalizing s v total with
  | nil =>
    refine ⟨hs, fun w hw => ?_⟩
    cases hw
    exact hv
  | cons first rest ih =>
    obtain ⟨l, diffID⟩ := first
    unfold importLayers
    cases hdesc : describe l total with
    | error e => exact ⟨hs, fun w hw => nomatch hw⟩
    | ok found =>
      obtain ⟨desc, p⟩ := found
      rw [Program.expand_bind]
      refine Machine.Safe.bind _ (safe_fetchLayer hs hH (describe_eq_ok hdesc)
        (hlayers _ (List.mem_cons_self ..))) fun e s' hs' => ?_
      obtain ⟨hcached, hheld, hkept⟩ := hs'
      cases e with
      | some e => exact ⟨hcached, fun w hw => nomatch hw⟩
      | none =>
        refine ih (fun x hx => hlayers x (List.mem_cons_of_mem _ hx)) hcached _ fun d hd => ?_
        rcases List.mem_append.1 hd with hd | hd
        · exact hkept d (hv d hd)
        · rw [List.mem_singleton.1 hd]
          exact hheld rfl

theorem checkImage_eq_ok {ref : String} {img : Source} {layers : List (Layer × String)}
    (h : checkImage K P ref img = .ok (v, layers)) :
    v.layers = [] ∧ ∃ all, img.layers = .ok all ∧ ∀ x ∈ layers, x.1 ∈ all := by
  unfold checkImage at h
  simp only [bind, Except.bind, throw, throwThe, MonadExceptOf.throw, pure, Except.pure] at h
  repeat' split at h
  all_goals try cases h
  rename_i all hall _
  exact ⟨rfl, all, hall, fun x hx => (List.of_mem_zip hx).1⟩

theorem mem_contents {img : Source} {all : List Layer} {l : Layer} {r : Reader}
    (hall : img.layers = .ok all) (hl : l ∈ all) (hr : l.compressed = .ok r) :
    r.bytes ∈ img.contents := by
  unfold Source.contents
  rw [hall]
  exact List.mem_filterMap.2 ⟨l, hl, by rw [hr]⟩

theorem safe_writeRecord (hC : C.Lawful) (hK : HexHash K) (hs : Cached K C H s)
    (hv : ∀ d ∈ v.layers, Held s d) (ref : String) :
    Machine.Safe ⟨FileOps.exec, code, crash⟩ ok (Cached K C H)
      (fun _ s' => Cached K C H s' ∧ ∀ d ∈ v.layers, Held s' d)
      (steps K C (.writeRecord (record K ref) v)) s := by
  have hpart := hs.put_record hC hv
  have hfull : Cached K C H (s.put .refs (record K ref) (C.marshal v)) := by
    have h := hpart (record K ref) (C.marshal v).length
    rwa [List.take_length] at h
  refine (safe_atomic (record_not_pending hK ref) hs (fun tmp n _ => hpart tmp n) hfull).weaken _
    fun r s' hs' => ?_
  obtain ⟨renamed, err⟩ := r
  cases hs' with
  | nothing e => exact ⟨hs, hv⟩
  | leftover tmp n e e' hfresh hok =>
    exact ⟨hpart tmp n, fun d hd => (held_put_refs tmp).2 (hv d hd)⟩
  | written e => exact ⟨hfull, fun d hd => (held_put_refs _).2 (hv d hd)⟩

theorem safe_importImage (hC : C.Lawful) (hK : HexHash K) (hH : CollisionFree K H)
    (hs : Cached K C H s) (ref : String) (img : Source) (himg : ∀ c ∈ img.contents, c ∈ H) :
    Machine.Safe ⟨FileOps.exec, code, crash⟩ ok (Cached K C H) (fun _ s' => Cached K C H s')
      ((importImage K P ref img).expand (steps K C)) s := by
  unfold importImage
  cases hchecked : checkImage K P ref img with
  | error e => exact hs
  | ok found =>
    obtain ⟨out, layers⟩ := found
    obtain ⟨hempty, all, hall, hsub⟩ := checkImage_eq_ok hchecked
    have hlayers : ∀ l ∈ layers, ∀ r, l.1.compressed = .ok r → r.bytes ∈ H :=
      fun l hl r hr => himg _ (mem_contents hall (hsub l hl) hr)
    have hnone : ∀ d ∈ out.layers, Held s d := by
      rw [hempty]
      exact fun d hd => absurd hd List.not_mem_nil
    rw [Program.expand_bind]
    refine Machine.Safe.bind _ (safe_importLayers hH hlayers hs 0 hnone) fun
      | .error e, _, hs₁ => hs₁.1
      | .ok out, s₁, hs₁ => ?_
    refine Catalog.safe_call (safe_writeRecord hC hK hs₁.1 (hs₁.2 out rfl) _) fun r s₂ hs₂ => ?_
    obtain ⟨renamed, e⟩ := r
    cases e with
    | some e => exact hs₂.1
    | none =>
      refine Catalog.safe_call (safe_writeRecord hC hK hs₂.1 hs₂.2 _) fun r s₃ hs₃ => ?_
      obtain ⟨renamed, e⟩ := r
      cases e with
      | some | none => exact hs₃.1

theorem safe_pull (hC : C.Lawful) (hK : HexHash K) (hH : CollisionFree K H)
    (hs : Cached K C H s) (ref policy : String) (fetched : Except String Source)
    (hfetched : ∀ img, fetched = .ok img → ∀ c ∈ img.contents, c ∈ H) :
    Machine.Safe ⟨FileOps.exec, code, crash⟩ ok (Cached K C H) (fun _ s' => Cached K C H s')
      ((pull K P ref policy fetched).expand (steps K C)) s := by
  have hfetch : ∀ s', Cached K C H s' → Machine.Safe ⟨FileOps.exec, code, crash⟩ ok (Cached K C H)
      (fun _ s' => Cached K C H s') ((importFetched K P ref fetched).expand (steps K C)) s' := by
    intro s' hs'
    cases fetched with
    | error e => exact hs'
    | ok img => exact safe_importImage hC hK hH hs' ref img (hfetched img rfl)
  unfold pull
  split
  · rw [Program.expand_bind]
    refine (safe_get hs ref).bind _ fun
      | .ok v, _, hs' => hs'
      | .error e, s', hs' => ?_
    dsimp only
    split
    · exact hs'
    · exact hfetch s' hs'
  · exact hfetch s hs

theorem safe_remove (hs : Cached K C H s) (ref : String) :
    Machine.Safe ⟨FileOps.exec, code, crash⟩ ok (Cached K C H) (fun _ s' => Cached K C H s')
      ((remove K ref).expand (steps K C)) s := by
  unfold remove Catalog.remove
  rw [Program.expand_bind]
  refine (safe_get hs ref).bind _ fun
    | .error e, _, hs' => hs'
    | .ok image, s', hs' => ?_
  exact safe_purge counted_cached (fun _ _ _ hx hy => blob_injective hx hy) hs' image

theorem safe_job (hC : C.Lawful) (hK : HexHash K) (hH : CollisionFree K H) (hs : Cached K C H s)
    (j : Job) (hj : ∀ c ∈ j.contents, c ∈ H) :
    Machine.Safe ⟨FileOps.exec, code, crash⟩ ok (Cached K C H) (fun _ s' => Cached K C H s')
      ((j.calls K P).expand (steps K C)) s := by
  cases j with
  | importImage ref img =>
    exact Catalog.safe_ignore (safe_importImage hC hK hH hs ref img hj)
  | pull ref policy fetched =>
    refine Catalog.safe_ignore (safe_pull hC hK hH hs ref policy fetched ?_)
    rintro img rfl
    exact hj
  | remove ref => exact Catalog.safe_ignore (safe_remove hs ref)

end

theorem cached_empty : Cached K C H (fun _ => []) where
  hashed _ _ h := nomatch h
  layers _ h := by
    obtain ⟨_, _, hb, _⟩ := h
    cases hb

def isHexName (h : String) : Bool :=
  decide (h.toList.length = 64) && h.toList.all fun c => isHexDigit c || ('A' ≤ c && c ≤ 'F')

/-- Through any failures and crashes, a blob has the hash it is named after, and a readable
record lists only layers whose blob is there with the recorded size. -/
theorem cache_intact (K : Base.Crypto) (P : Decoder) (C : Codec Image) (hC : C.Lawful)
    (hK : HexHash K) (H : List Bytes) (hH : CollisionFree K H)
    (c : Session (Disk Dir) (FileOps.Op Dir) FileOps.Op.Reply)
    (hr : (machine K P C).Runs (downloads H) ⟨fun _ => [], .pure ()⟩ c) :
    (∀ h content, (c.state .blobs).lookup h = some content → isHexName h = true →
      K.sha256 content = h) ∧
    ∀ name bytes v, (c.state .refs).lookup name = some bytes → C.unmarshal bytes = .ok v →
      ∀ d ∈ v.layers, ∃ p content, blob d.digest = .ok p ∧
        (c.state .blobs).lookup p = some content ∧ (content.length : ℤ) = d.size := by
  have hsettled : (machine K P C).Settled (downloads H) (Cached K C H) (Cached K C H) c := by
    have hstart : (machine K P C).Settled (downloads H) (Cached K C H) (Cached K C H)
        ⟨fun _ => [], .pure ()⟩ := ⟨cached_empty, cached_empty⟩
    refine (machine K P C).settled_of_runs (fun j s hok hs _ => ?_) (fun _ s _ hs => ⟨hs, hs⟩)
      hstart hr
    have hj : ∀ x ∈ j.contents, x ∈ H := fun x hx => by
      simpa using List.all_eq_true.1 hok x hx
    exact safe_job hC hK hH hs j hj
  refine ⟨fun h content hlook hhex => ?_, fun name bytes v hlook hread d hd => ?_⟩
  · rcases hsettled.1.hashed h content hlook with htmp | ⟨hsha, _⟩
    · obtain ⟨hlen, hall⟩ := (Bool.and_eq_true _ _).mp hhex
      exact absurd htmp (not_download (of_decide_eq_true hlen) (List.all_eq_true.1 hall))
    · exact hsha
  · exact hsettled.1.layers v ⟨name, bytes, hlook, hread⟩ d hd

namespace Sample

def configCode : PrefixCode ImageConfig :=
  (PrefixCode.string.list.pair (PrefixCode.string.list.pair (PrefixCode.string.list.pair
    (PrefixCode.string.pair (PrefixCode.string.pair (PrefixCode.string.pair
      (PrefixCode.string.list.pair PrefixCode.bool))))))).map
    (fun x => ⟨x.1, x.2.1, x.2.2.1, x.2.2.2.1, x.2.2.2.2.1, x.2.2.2.2.2.1, x.2.2.2.2.2.2.1,
      x.2.2.2.2.2.2.2⟩)
    (fun c => (c.entrypoint, c.cmd, c.env, c.user, c.workingDir, c.stopSignal, c.volumes,
      c.healthcheck))
    fun _ => rfl

def imageCode : PrefixCode Image :=
  (PrefixCode.string.pair (PrefixCode.string.pair (configCode.pair (Catalog.Sample.descriptorCode.list.pair
    PrefixCode.string.list)))).map
    (fun x => ⟨x.1, x.2.1, x.2.2.1, x.2.2.2.1, x.2.2.2.2⟩)
    (fun v => (v.ref, v.digest, v.config, v.layers, v.diffIDs)) fun _ => rfl

def codec : Codec Image := Codec.ofCode imageCode

def decoder : Decoder where
  manifest _ := .ok ⟨1, digest Base.Sample.crypto [2]⟩
  config _ := .ok ⟨"linux", "amd64", ⟨[], ["sh"], [], "", "", "", [], false⟩, ["d"]⟩

def source : Source where
  rawManifest := .ok [1]
  rawConfigFile := .ok [2]
  digest := .ok (digest Base.Sample.crypto [1])
  layers := .ok [⟨none, .ok (digest Base.Sample.crypto [7]), .ok 1, .ok "", .ok ⟨[7], none⟩⟩]

end Sample

/-- An import that a crash ends after the record of the digest was published. -/
theorem cache_intact_imported :
    ∃ c, (machine Base.Sample.crypto Sample.decoder Sample.codec).Runs (downloads [[7]])
        ⟨fun _ => [], .pure ()⟩ c ∧ (c.state .refs).length = 2 ∧
      ∀ name bytes v, (c.state .refs).lookup name = some bytes → Sample.codec.unmarshal bytes = .ok v →
        ∀ d ∈ v.layers, ∃ p content, blob d.digest = .ok p ∧
          (c.state .blobs).lookup p = some content ∧ (content.length : ℤ) = d.size := by
  have hrun : ((machine Base.Sample.crypto Sample.decoder Sample.codec).replay (downloads [[7]])
      Catalog.Sample.reply ⟨fun _ => [], .pure ()⟩ (.request (.importImage "i" Sample.source) ::
        List.replicate 24 (.run 0) ++ [.crash ()])).any
        (fun c => decide ((c.state .refs).length = 2)) = true := by decide +kernel
  obtain ⟨c, hr, hlen⟩ := Machine.exists_of_replay _ hrun
  have hone : CollisionFree Base.Sample.crypto [[7]] := by
    intro x hx y hy _
    rw [List.mem_singleton.1 hx, List.mem_singleton.1 hy]
  exact ⟨c, hr, of_decide_eq_true hlen, (cache_intact Base.Sample.crypto Sample.decoder Sample.codec
    (Codec.lawful_ofCode _) Catalog.Sample.hexHash_crypto [[7]] hone c hr).2⟩

end Niflhel.Oci
