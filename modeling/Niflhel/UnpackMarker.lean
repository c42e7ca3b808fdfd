import Niflhel.StateDisk

/-!
# What the unpack marker says after kills

`fsutil.Atomic` syncs the marker's data before the rename that publishes it, so the rename of
the unpacked tree, which comes earlier, survives whenever the marker does. The data of the
unpacked files is not synced: a kill can leave the marker with empty files. If no kill loses
such data once the marker is there, and the marker is read without error, then a boot that
skips unpacking finds the contents of the image.
-/

namespace Niflhel.Guest
open Concurrent FileOps Fsutil Directory

def Bootstrap.digest (b : Bootstrap) : Bytes := Base.bytesOf b.sandbox.imageDigest

/-- Once the marker is there, it is read without error, and a kill finds the data of every
unpacked file on the disk. -/
def flushed (b : Bootstrap) (s : State) : Event Op Op.Reply Job Loss → Bool
  | .run .readMarker r => r == s.markerText
  | .crash l =>
    s.markerText != b.digest ||
      match s.live.lookup "lower" with
      | some (.dir nodes) => nodes.all fun x => x.2.synced || (l.data "lower" x.1).isNone
      | _ => true
  | _ => true

variable {carrier : Carrier} {s s' : State} {o : Op} {name tmp : String} {data : Bytes}

section
variable (K : Base.Crypto) (F : Formats) (b : Bootstrap) (carrier : Carrier)

/-- Before the marker is published, and after. The empty digest is never published, and then
nothing is ever unpacked. -/
def Inv (s : State) : Prop :=
  (Unpublished s ∧ (b.digest = [] → Bare s)) ∨ (Published b.digest (carrier.contents F) s ∧ b.digest ≠ [])

def Working (s : State) : Prop := Unpublished s ∧ b.digest ≠ []

abbrev Safe {α : Type} (post : α → State → Prop) (p : Calls α) (s : State) : Prop :=
  (machine K F b carrier).Safe (flushed b) (Inv F b carrier) post p s

def quiet (o : Op) : Prop := o = .mkdirAll "lower" ∨ (o.spares marker ∧ o.spares "lower")

variable {K F b carrier} {α : Type} {post : α → State → Prop}

theorem Working.inv (h : Working b s) : Inv F b carrier s := .inl ⟨h.1, fun he => absurd he h.2⟩

theorem Working.effect (h : Working b s) (he : Effect o s s') (ho : o.spares marker) : Working b s' :=
  ⟨h.1.effect he ho, h.2⟩

theorem Inv.exec {r : o.Reply} (hs : Inv F b carrier s) (ho : quiet o)
    (hx : exec carrier s o r = some s') : Inv F b carrier s' := by
  have he := effect_of_exec hx
  rcases ho with rfl | ⟨hm, hl⟩
  · rcases hs with ⟨hs, hbare⟩ | ⟨hs, hne⟩
    · refine .inl ⟨hs.effect he (by simp [Op.spares, marker]), fun hd => ?_⟩
      -- the directory is created empty
      have hb := hbare hd
      cases r with
      | some e => cases hx; exact hb
      | none => ?_
      simp only [Guest.exec] at hx
      split at hx
      · refine Option.some.inj hx ▸ ⟨hb.base, fun c hc => ?_⟩
        rcases List.mem_append.1 hc with hc | hc
        · exact hb.journal c hc
        · exact .inr (List.mem_singleton.1 hc)
      · cases hx; exact hb
      · cases hx
    · -- it is there already
      obtain ⟨_, ⟨nodes, hnodes, _⟩, _⟩ := hs.live
      refine .inr ⟨?_, hne⟩
      cases r with
      | some e => cases hx; exact hs
      | none =>
        simp only [Guest.exec, hnodes] at hx
        cases hx; exact hs
  · rcases hs with ⟨hs, hbare⟩ | ⟨hs, hne⟩
    · exact .inl ⟨hs.effect he hm, fun hd => (hbare hd).effect he hl⟩
    · exact .inr ⟨hs.effect he hm hl, hne⟩

theorem safe_quiet {p : Calls α} (hp : p.Uses quiet) (hs : Inv F b carrier s) :
    Safe K F b carrier (fun _ s' => Inv F b carrier s') p s :=
  Machine.safe_of_uses _ (fun _ h => h) hp (fun _ _ _ _ ho h hx => h.exec ho hx) hs

theorem safe_working {f : o.Reply → Calls α} (hs : Working b s) (ho : o.spares marker)
    (h : ∀ r s', exec carrier s o r = some s' → Working b s' → Effect o s s' →
      Safe K F b carrier post (f r) s') :
    Safe K F b carrier post (perform o >>= f) s := by
  refine Machine.safe_perform _ fun r s' _ hx => ?_
  have he := effect_of_exec hx
  have hs' := hs.effect he ho
  exact ⟨hs'.inv, h r s' hx hs' he⟩

theorem kinds_apply (e : Edit) (nodes : List (String × Node)) :
    mapFiles (fun _ n => n.kind) (e.apply (fun k => ⟨k, false⟩) nodes) =
      e.apply id (mapFiles (fun _ n => n.kind) nodes) := by
  cases e with
  | put path k => exact mapFiles_put (fun _ n => n.kind) nodes path ⟨k, false⟩
  | remove path => exact mapFiles_keep (fun _ n => n.kind) (fun p => p != path) nodes

variable {kinds : List (String × Kind)}

theorem safe_applyEdits (err : Option String) (edits : List Edit)
    (hs : Working b s) (ht : Tree "unpack" kinds s.live) :
    Safe K F b carrier (fun e s' => Working b s' ∧
        (e = none → Tree "unpack" (edits.foldl (Edit.apply id) kinds) s'.live))
      (applyEdits "unpack" err edits) s := by
  induction edits generalizing s kinds with
  | nil => exact ⟨hs, fun _ => ht⟩
  | cons edit rest ih =>
    refine safe_working hs (by simp [Op.spares, marker]) fun
      | some m, _, _, hs', _ => ⟨hs', fun he => nomatch he⟩
      | none, s', hx, hs', _ => ?_
    obtain ⟨nodes, hnodes, hkinds⟩ := ht
    simp only [exec, hnodes] at hx
    cases hx
    refine ih hs' ⟨_, ?_, (kinds_apply edit nodes).trans (by rw [hkinds])⟩
    rw [State.live, Volatile.Store.live_note, List.foldl_cons, List.foldl_nil]
    rw [State.live] at hnodes
    simp only [Change.apply, hnodes]
    exact lookup_put_self ..

theorem safe_discard (a : α) (hs : Working b s) (hm : tmp ≠ marker) (hu : tmp ≠ "unpack") :
    Safe K F b carrier (fun a' s' => a' = a ∧ Working b s' ∧
        ∀ kinds, Tree "unpack" kinds s.live → Tree "unpack" kinds s'.live) (discard tmp a) s :=
  safe_working hs hm fun _ _ _ hs' he => ⟨rfl, hs', fun _ ht => ht.effect he hu⟩

theorem safe_fail {β : Type} {e : String} (hs : Working b s)
    (hm : tmp ≠ marker) (hu : tmp ≠ "unpack") :
    Safe K F b carrier (fun (r : Except String β) s' => Working b s' ∧
      ∀ x, r = .ok x → Tree "unpack" kinds s'.live) (discard tmp (.error e)) s := by
  refine Machine.Safe.weaken _ (safe_discard (Except.error e) hs hm hu) fun r s' h =>
    ⟨h.2.1, fun x hx => ?_⟩
  rw [h.1] at hx
  cases hx

theorem safe_applyLayer {diffID : String} {entries : ℕ} {synced : Bool}
    (hs : Working b s) (ht : Tree "unpack" kinds s.live)
    (htmp : s.live.lookup tmp = some (.file data synced)) (hm : tmp ≠ marker) (hu : tmp ≠ "unpack") :
    Safe K F b carrier (fun r s' => Working b s' ∧ ∀ n, r = .ok n →
        Tree "unpack" ((F.edits data).1.foldl (Edit.apply id) kinds) s'.live)
      (applyLayer K F "unpack" tmp diffID entries) s := by
  -- the spool file is read twice and not changed in between
  have hread : ∀ c s', exec carrier s (.state (.readFile () tmp)) (.ok c) = some s' →
      c = data ∧ s' = s := by
    intro c s' hx
    simp only [exec, execState, htmp] at hx
    split_ifs at hx with hc
    exact ⟨hc, (Option.some.inj hx).symm⟩
  refine safe_working hs trivial fun r s' hx hs' _ => ?_
  cases r with
  | error e => exact safe_fail hs' hm hu
  | ok c =>
    obtain ⟨rfl, rfl⟩ := hread c s' hx
    dsimp only
    by_cases hdigest : Base.digest K c ≠ diffID
    · rw [if_pos hdigest]
      exact safe_fail hs hm hu
    rw [if_neg hdigest]
    refine safe_working hs trivial fun r s₂ hx hs₂ _ => ?_
    cases r with
    | error e => exact ⟨hs₂, by rintro _ ⟨⟩⟩
    | ok c₂ =>
      obtain ⟨rfl, rfl⟩ := hread c₂ s₂ hx
      dsimp only
      cases checkEntries entries (headers F.tar (c₂.length + 1) 0 c₂).1
          (headers F.tar (c₂.length + 1) 0 c₂).2 with
      | error e => exact safe_fail hs hm hu
      | ok n =>
        refine Machine.Safe.bind _ (safe_applyEdits _ _ hs ht) fun e s₃ h₃ => ?_
        cases e with
        | some e => exact safe_fail h₃.1 hm hu
        | none =>
          refine Machine.Safe.weaken _ (safe_discard _ h₃.1 hm hu) fun r s₄ h₄ => ?_
          exact ⟨h₄.2.1, fun _ _ => h₄.2.2 _ (h₃.2 rfl)⟩

theorem temp_ne {pattern other : String} (h : pattern.toList.isPrefixOf tmp.toList = true)
    (ho : pattern.toList.isPrefixOf other.toList = false) : tmp ≠ other := by
  rintro rfl
  rw [h] at ho
  cases ho

theorem created_of_exec {pattern : String}
    (hx : exec carrier s (.state (.createTemp () pattern)) (.ok tmp) = some s') :
    pattern.toList.isPrefixOf tmp.toList = true ∧ s'.live.lookup tmp = some (.file [] true) := by
  simp only [exec, execState] at hx
  split_ifs at hx with h
  cases hx
  refine ⟨((Bool.and_eq_true _ _).mp h).1, ?_⟩
  rw [State.live, Volatile.Store.live_note]
  exact lookup_put_self ..

theorem written_of_exec {n : ℕ} {e : Option String} {synced : Bool}
    (hx : exec carrier s (.state (.write () tmp data)) (n, e) = some s')
    (htmp : s.live.lookup tmp = some (.file [] synced)) (he : e = none) :
    n = data.length ∧ s'.live.lookup tmp = some (.file data false) := by
  simp only [exec, execState] at hx
  split_ifs at hx with h
  cases hx
  have hn := h.2 he
  refine ⟨hn, ?_⟩
  rw [State.live] at htmp
  rw [State.live, Volatile.Store.live_note, List.foldl_cons, List.foldl_nil]
  simp only [Change.apply, htmp, hn, List.take_length, List.nil_append]
  exact lookup_put_self ..

/-- A source that fits the limit is copied completely. -/
theorem limit_of_fits {r : Reader} {room : ℤ} (hroom : (r.limit (room + 1).toNat).bytes.length ≤ room) :
    (r.limit (room + 1).toNat).bytes = r.bytes := by
  simp only [Reader.limit] at hroom ⊢
  apply List.take_of_length_le
  rw [List.length_take] at hroom
  omega

variable {maxBytes : ℤ}

theorem safe_unpackLayer {total : ℤ} {entries : ℕ} {d : Descriptor} {diffID : String}
    (hs : Working b s) (ht : Tree "unpack" kinds s.live) :
    Safe K F b carrier (fun r s' => Working b s' ∧ ∀ x, r = .ok x →
        Tree "unpack" ((F.edits (carrier.layer F d)).1.foldl (Edit.apply id) kinds) s'.live)
      (unpackLayer K F "unpack" maxBytes total entries d diffID) s := by
  unfold unpackLayer
  cases hhex : Base.hexDigest d.digest with
  | error e => exact ⟨hs, by rintro _ ⟨⟩⟩
  | ok h =>
    have hread : ∀ c s', exec carrier s (.readBlob h) (.ok c) = some s' →
        carrier.blobs.lookup h = some c ∧ s' = s := by
      intro c s' hx
      simp only [exec] at hx
      split_ifs at hx with hc
      exact ⟨hc, (Option.some.inj hx).symm⟩
    refine safe_working hs trivial fun r s₁ hx hs₁ _ => ?_
    cases r with
    | error e => exact ⟨hs₁, by rintro _ ⟨⟩⟩
    | ok c =>
      obtain ⟨_, rfl⟩ := hread c s₁ hx
      dsimp only
      by_cases hbad : Base.digest K c ≠ d.digest ∨ (c.length : ℤ) ≠ d.size
      · rw [if_pos hbad]
        exact ⟨hs, by rintro _ ⟨⟩⟩
      rw [if_neg hbad]
      -- the reader yields the uncompressed layer
      refine safe_working hs trivial fun r s₂ hx hs₂ _ => ?_
      cases r with
      | error e => exact ⟨hs₂, by rintro _ ⟨⟩⟩
      | ok c₂ =>
        obtain ⟨hblob, rfl⟩ := hread c₂ s₂ hx
        cases hdecode : decode F d.mediaType c₂ with
        | error e =>
          simp only [pure, Program.bind, hdecode]
          exact ⟨hs, by rintro _ ⟨⟩⟩
        | ok reader =>
          have hlayer : carrier.layer F d = reader.bytes := by
            simp only [Carrier.layer, hhex, hblob, Option.getD_some, hdecode]
          simp only [pure, Program.bind, hdecode]
          refine safe_working hs (by change _ = false; decide) fun r s₃ hx hs₃ he₃ => ?_
          have ht₃ := ht.effect he₃ (by change _ = false; decide)
          cases r with
          | error e => exact ⟨hs₃, by rintro _ ⟨⟩⟩
          | ok tmp =>
            obtain ⟨hstart, htmp⟩ := created_of_exec hx
            have hm : tmp ≠ marker := temp_ne hstart (by decide)
            have hu : tmp ≠ "unpack" := temp_ne hstart (by decide)
            refine safe_working hs₃ hm fun r s₄ hx hs₄ he₄ => ?_
            obtain ⟨n, e⟩ := r
            have ht₄ := ht₃.effect he₄ hu
            refine safe_working hs₄ trivial fun r s₅ hx₅ hs₅ he₅ => ?_
            cases hx₅
            dsimp only
            split_ifs with hbudget
            · exact safe_fail hs₅ hm hu
            · simp only [not_or, not_lt, Option.isSome_iff_ne_none, ne_eq, not_not,
                Option.or_eq_none_iff] at hbudget
              obtain ⟨⟨herr, _⟩, hroom⟩ := hbudget
              obtain ⟨hn, htmp₄⟩ := written_of_exec hx htmp herr
              rw [limit_of_fits (by omega), ← hlayer] at htmp₄
              refine Machine.Safe.bind _ (safe_applyLayer hs₅ ht₄ htmp₄ hm hu) fun r s₆ h₆ => ?_
              cases r with
              | error e => exact ⟨h₆.1, by rintro _ ⟨⟩⟩
              | ok count => exact ⟨h₆.1, fun _ _ => h₆.2 count rfl⟩

theorem safe_unpackLayers {total : ℤ} {entries : ℕ} (layers : List (Descriptor × String))
    (hs : Working b s) (ht : Tree "unpack" kinds s.live) :
    Safe K F b carrier (fun e s' => Working b s' ∧ (e = none → Tree "unpack"
        ((layers.flatMap fun x => (F.edits (carrier.layer F x.1)).1).foldl (Edit.apply id) kinds)
        s'.live))
      (unpackLayers K F "unpack" maxBytes layers total entries) s := by
  induction layers generalizing s kinds total entries with
  | nil => exact ⟨hs, fun _ => ht⟩
  | cons x rest ih =>
    refine Machine.Safe.bind _ (safe_unpackLayer hs ht) fun
      | .error e, _, h₁ => ⟨h₁.1, fun he => nomatch he⟩
      | .ok y, s₁, h₁ => ?_
    rw [List.flatMap_cons, List.foldl_append]
    exact ih h₁.1 (h₁.2 y rfl)

theorem safe_unpack (hs : Working b s) (ht : Tree "unpack" [] s.live) :
    Safe K F b carrier (fun e s' => Working b s' ∧
        (e = none → Tree "unpack" (carrier.contents F) s'.live))
      (unpack K F "unpack" maxBytes) s := by
  refine safe_working hs trivial fun r s₁ hx hs₁ he => ?_
  have ht₁ := ht.effect he trivial
  cases r with
  | error e => exact ⟨hs₁, by rintro ⟨⟩⟩
  | ok img =>
    have himg : img = carrier.image := by
      simp only [exec] at hx
      split_ifs at hx with h
      exact h
    dsimp only
    split_ifs with hbad
    · exact ⟨hs₁, by rintro ⟨⟩⟩
    · refine Machine.Safe.weaken _ (safe_unpackLayers _ hs₁ ht₁) fun e s₂ h₂ => ⟨h₂.1, fun he => ?_⟩
      have hlen : img.layers.length = img.diffIDs.length := not_not.1 (not_or.1 hbad).1
      have hzip : (img.layers.zip img.diffIDs).map Prod.fst = img.layers :=
        List.map_fst_zip hlen.le
      have hflat : (img.layers.zip img.diffIDs).flatMap (fun x => (F.edits (carrier.layer F x.1)).1) =
          carrier.image.layers.flatMap fun d => (F.edits (carrier.layer F d)).1 := by
        rw [← himg, ← hzip, List.flatMap_map, hzip]
      have h := h₂.2 he
      rw [hflat] at h
      exact h

def Placed (F : Formats) (b : Bootstrap) (carrier : Carrier) (s : State) : Prop :=
  Working b s ∧ Tree "lower" (carrier.contents F) s.live

/-- The marker's temporary file is durable, and so is the tree up to its data. -/
structure Ready (F : Formats) (b : Bootstrap) (carrier : Carrier) (tmp : String) (s : State) :
    Prop where
  working : Working b s
  journal : s.journal = []
  file : s.base.lookup tmp = some (.file b.digest true)
  tree : Tree "lower" (carrier.contents F) s.base

theorem Placed.effect (h : Placed F b carrier s) (he : Effect o s s') (hm : o.spares marker)
    (hl : o.spares "lower") : Placed F b carrier s' :=
  ⟨h.1.effect he hm, h.2.effect he hl⟩

theorem safe_placed {o : FileOps.Op Unit} {f : o.Reply → Files Unit α} (hs : Placed F b carrier s)
    (hm : (Op.state o).spares marker) (hl : (Op.state o).spares "lower")
    (h : ∀ r s', exec carrier s (.state o) r = some s' → Placed F b carrier s' →
      Safe K F b carrier post (lift (f r)) s') :
    Safe K F b carrier post (lift (file o >>= f)) s :=
  safe_working hs.1 hm fun r s' hx _ he => h r s' hx (hs.effect he hm hl)

theorem safe_fill (hs : Placed F b carrier s) (htmp : s.live.lookup tmp = some (.file [] true))
    (hm : tmp ≠ marker) (hl : tmp ≠ "lower") :
    Safe K F b carrier (fun e s' => Working b s' ∧ (e = none → Ready F b carrier tmp s'))
      (lift (fill () tmp b.digest)) s := by
  refine safe_placed hs trivial trivial fun r s₁ hx hs₁ => ?_
  cases hx
  have hclose : ∀ (e : String) {s : State}, Placed F b carrier s →
      Safe K F b carrier (fun e s' => Working b s' ∧ (e = none → Ready F b carrier tmp s'))
        (lift (file (.close () tmp) >>= fun _ => pure (some e))) s := fun e s hs =>
    safe_placed hs trivial trivial fun _ _ _ hs' => ⟨hs'.1, fun he => nomatch he⟩
  cases r with
  | some e => exact hclose e hs
  | none => ?_
  refine safe_placed hs hm hl fun r s₂ hx hs₂ => ?_
  obtain ⟨n, e⟩ := r
  cases e with
  | some e => exact hclose e hs₂
  | none => ?_
  obtain ⟨_, htmp₂⟩ := written_of_exec hx htmp rfl
  refine safe_placed hs₂ trivial trivial fun
    | some e, _, _, hs₃ => hclose e hs₃
    | none, s₃, hx, hs₃ => ?_
  cases hx
  have hready : Ready F b carrier tmp (s₂.commit fun n => n == tmp) := by
    refine ⟨hs₃.1, rfl, ?_, hs₂.2.settle fun n => n == tmp⟩
    rw [State.commit, Volatile.Store.commit, lookup_settle]
    rw [State.live] at htmp₂
    simp [htmp₂, Entry.settled]
  refine safe_placed (f := pure) hs₃ trivial trivial fun r s₄ hx hs₄ => ?_
  cases hx
  exact ⟨hs₄.1, fun _ => hready⟩

theorem safe_atomic (hs : Placed F b carrier s) :
    Safe K F b carrier (fun _ s' => Inv F b carrier s') (lift (atomic () marker b.digest)) s := by
  refine safe_placed hs trivial trivial fun r s₁ _ hs₁ => ?_
  cases r with
  | some e => exact hs₁.1.inv
  | none =>
    refine safe_placed hs₁ (by change _ = false; decide) (by change _ = false; decide)
      fun r s₂ hx hs₂ => ?_
    cases r with
    | error e => exact hs₂.1.inv
    | ok tmp =>
      obtain ⟨hstart, htmp⟩ := created_of_exec hx
      have hm : tmp ≠ marker := temp_ne hstart (by decide)
      have hl : tmp ≠ "lower" := temp_ne hstart (by decide)
      have hremove : ∀ {α : Type} (a : α) {s : State}, Inv F b carrier s →
          Safe K F b carrier (fun _ s' => Inv F b carrier s')
            (lift (file (.remove () tmp) >>= fun _ => pure a)) s := fun a s hs =>
        safe_quiet ⟨.inr ⟨hm, hl⟩, fun _ => trivial⟩ hs
      dsimp only
      unfold lift
      rw [Program.expand_bind]
      refine Machine.Safe.bind _ (safe_fill hs₂ htmp hm hl) fun e s₃ h₃ => ?_
      cases e with
      | some e => exact hremove _ h₃.1.inv
      | none =>
        obtain ⟨hworking, hjournal, hfile, htree⟩ := h₃.2 rfl
        refine Machine.safe_perform _ fun r s₄ _ hx => ?_
        cases r with
        | some e =>
          cases hx
          exact ⟨hworking.inv, hremove _ hworking.inv⟩
        | none =>
          -- the rename is the only change that a kill can still lose
          have hrenamed : s₄ = s₃.note [.rename tmp marker] := by
            simp only [machine, exec, execState] at hx
            split at hx
            · cases hx
            · cases hx
            · exact (Option.some.inj hx).symm
          have hpublished : Inv F b carrier s₄ := by
            refine .inr ⟨.pending tmp [] ?_ ?_ ?_ hl ?_ (by rintro c ⟨⟩), hworking.2⟩
            · rw [hrenamed]
              exact hworking.1.base
            · rw [hrenamed]
              exact hfile
            · rw [hrenamed]
              exact htree
            · rw [hrenamed, Volatile.Store.note, hjournal, List.nil_append]
          refine ⟨hpublished, ?_⟩
          exact safe_quiet ⟨.inr ⟨trivial, trivial⟩, fun _ => ⟨.inr ⟨hm, hl⟩, fun _ => trivial⟩⟩
            hpublished

theorem safe_unpackImage (hs : Working b s) :
    Safe K F b carrier (fun _ s' => Inv F b carrier s') (unpackImage K F b) s := by
  refine safe_working hs (by simp [Op.spares, marker]) fun _ s₁ _ hs₁ _ => ?_
  refine safe_working hs₁ (by simp [Op.spares, marker]) fun _ s₂ _ hs₂ _ => ?_
  refine safe_working hs₂ (by simp [Op.spares, marker]) fun r s₃ hx hs₃ _ => ?_
  cases r with
  | some e => exact hs₃.inv
  | none =>
    have hempty : Tree "unpack" [] s₃.live := by
      simp only [exec] at hx
      split_ifs at hx
      cases hx
      refine ⟨[], ?_, rfl⟩
      rw [State.live, Volatile.Store.live_note]
      exact lookup_put_self ..
    refine Machine.Safe.bind _ (safe_unpack hs₃ hempty) fun e s₄ h₄ => ?_
    cases e with
    | some e => exact h₄.1.inv
    | none =>
      refine safe_working h₄.1 (by simp [Op.spares, marker]) fun r s₅ hx hs₅ _ => ?_
      cases r with
      | some e => exact hs₅.inv
      | none =>
        obtain ⟨nodes, hnodes, hkinds⟩ := h₄.2 rfl
        have hplaced : Tree "lower" (carrier.contents F) s₅.live := by
          simp only [exec, execState, hnodes] at hx
          split at hx
          · cases hx
          · cases hx
          · cases hx
            refine ⟨nodes, ?_, hkinds⟩
            rw [State.live, Volatile.Store.live_note, List.foldl_cons, List.foldl_nil]
            rw [State.live] at hnodes
            simp only [Change.apply, hnodes]
            exact lookup_put_self ..
        exact Machine.Safe.bind _ (safe_atomic ⟨hs₅, hplaced⟩) fun _ _ h => h

theorem uses_run (args : List String) : (run args).Uses quiet :=
  ⟨.inr ⟨trivial, trivial⟩, fun _ => trivial⟩

theorem uses_mountOutside (source target kind flags : String) :
    (mountOutside source target kind flags).Uses quiet := uses_mount (uses_run _) (.inr ⟨trivial, trivial⟩)

theorem uses_mkdirAll (h : name ≠ marker) : (perform (.mkdirAll name)).Uses quiet := by
  refine ⟨?_, fun _ => trivial⟩
  by_cases hl : name = "lower"
  · exact .inl (by rw [hl])
  · exact .inr ⟨h, hl⟩

theorem uses_initializeGuest : (initializeGuest b).Uses quiet := by
  have hcheck : (if b.protocol ≠ 1 ∨ b.id ≠ b.sandbox.id then
      (return some "bootstrap identity mismatch") else return none : Calls (Option String)).Uses quiet := by
    split_ifs <;> trivial
  refine uses_sequence ?_
  simp only [List.forall_mem_cons, List.not_mem_nil, false_imp_iff, implies_true, and_true]
  exact ⟨uses_mountOutside .., uses_mountOutside .., uses_mountOutside .., uses_mountOutside ..,
    uses_mountOutside .., uses_mountOutside .., uses_mountOutside .., uses_mountOutside ..,
    uses_run _, hcheck, uses_mountOutside .., uses_mountOutside .., uses_run _,
    uses_mkdirAll (by decide), uses_mkdirAll (by decide), uses_mkdirAll (by decide),
    uses_mkdirAll (by decide), uses_ignore (uses_run _), uses_run _, uses_ignore (uses_run _)⟩

theorem uses_prepareNetwork : (prepareNetwork b).Uses quiet := by
  refine uses_sequence fun p hp => ?_
  obtain ⟨args, _, rfl⟩ := List.mem_map.1 hp
  exact uses_run args

theorem uses_assemble : (assemble b).Uses quiet := by
  refine uses_sequence fun p hp => ?_
  simp only [List.mem_append, List.mem_singleton] at hp
  rcases hp with ((rfl | hp) | hp) | rfl
  · refine uses_mount ?_ (.inr ⟨trivial, trivial⟩)
    exact ⟨.inr ⟨by simp [Op.spares, marker], by simp [Op.spares]⟩, fun _ => trivial⟩
  · obtain ⟨i, hi, rfl⟩ := List.mem_mapIdx.1 hp
    exact uses_mountOutside ..
  · split_ifs at hp
    · rw [List.mem_singleton.1 hp]
      exact uses_prepareNetwork
    · cases hp
  · exact uses_run _

theorem safe_prepare (hs : Inv F b carrier s) :
    Safe K F b carrier (fun _ s' => Inv F b carrier s') (prepare K F b) s := by
  refine Machine.safe_perform _ fun content s₁ hok hx => ?_
  have hcontent : content = s.markerText := by simpa [flushed] using hok
  have hread : quiet .readMarker := .inr ⟨trivial, trivial⟩
  have hs₁ : Inv F b carrier s₁ := hs.exec hread hx
  have hsame : s₁ = s := by
    simp only [machine, exec] at hx
    split_ifs at hx
    exact (Option.some.inj hx).symm
  refine ⟨hs₁, ?_⟩
  split_ifs with hskip
  · rcases hs with ⟨hunpublished, _⟩ | ⟨hpublished, _⟩
    · -- without a marker nothing was read, so the digest is not empty
      have hempty : content = [] := by
        rw [hcontent, State.markerText, hunpublished.lookup_live]
      have hworking : Working b s₁ := by
        rw [hsame]
        exact ⟨hunpublished, fun he => hskip (hempty.trans he.symm)⟩
      refine Machine.Safe.bind _ (safe_unpackImage hworking) fun e s₂ hs₂ => ?_
      cases e with
      | some e => exact hs₂
      | none => exact safe_quiet uses_assemble hs₂
    · refine absurd ?_ hskip
      rw [hcontent, State.markerText, hpublished.live.1]
      rfl
  · exact safe_quiet uses_assemble hs₁

theorem safe_boot (hs : Inv F b carrier s) :
    Safe K F b carrier (fun _ s' => Inv F b carrier s') (boot K F b) s := by
  have hsync : ∀ {s : State}, Inv F b carrier s →
      Safe K F b carrier (fun _ s' => Inv F b carrier s') (perform .sync) s :=
    fun hs => safe_quiet ⟨.inr ⟨trivial, trivial⟩, fun _ => trivial⟩ hs
  have hserve : Safe K F b carrier (fun _ s' => Inv F b carrier s')
      (sequence [initializeGuest b, prepare K F b, run ["serve"]]) s := by
    refine Machine.Safe.bind _ (safe_quiet uses_initializeGuest hs) fun
      | some e, _, hs₁ => hs₁
      | none, s₁, hs₁ => ?_
    exact Machine.Safe.bind _ (safe_prepare hs₁) fun
      | some e, _, hs₂ => hs₂
      | none, _, hs₂ =>
        safe_quiet (uses_sequence fun p hp => List.mem_singleton.1 hp ▸ uses_run _) hs₂
  exact Machine.Safe.bind _ hserve fun
    | some e, _, hs₁ => hsync hs₁
    | none, _, hs₁ => hs₁

theorem safe_job (j : Job) (hs : Inv F b carrier s) :
    Safe K F b carrier (fun _ s' => Inv F b carrier s') ((machine K F b carrier).code j) s := by
  cases j with
  | boot => exact safe_boot hs
  | work e =>
    exact safe_quiet ⟨.inr ⟨by simp [Op.spares, marker], by simp [Op.spares]⟩, fun _ => trivial⟩ hs
  | shutdown =>
    exact safe_quiet ⟨.inr ⟨trivial, trivial⟩, fun _ => ⟨.inr ⟨trivial, trivial⟩, fun _ => trivial⟩⟩ hs

theorem Inv.killed (hs : Inv F b carrier s) (l : Loss) (hok : flushed b s (.crash l) = true) :
    Inv F b carrier (kill l s) := by
  rcases hs with ⟨hs, hbare⟩ | ⟨hs, hne⟩
  · exact .inl ⟨hs.killed l, fun he => (hbare he).killed l⟩
  · have hmarker : s.markerText = b.digest := by
      rw [State.markerText, hs.live.1]
    have hkept : ∀ nodes, s.live.lookup "lower" = some (.dir nodes) →
        ∀ x ∈ nodes, x.2.synced = true ∨ l.data "lower" x.1 = none := by
      intro nodes hnodes x hx
      simp only [flushed, hmarker, bne_self_eq_false, Bool.false_or, hnodes] at hok
      simpa using List.all_eq_true.1 hok x hx
    rcases hs.killed l hkept with h | h
    · exact .inr ⟨h, hne⟩
    · exact .inl ⟨h, fun he => absurd he hne⟩

end

/-- In every sequence of boots, kills and shutdowns that meets the condition: when the marker
has the digest, every file below `/state/lower` has the contents that the layers give it, and
unless the digest is empty they are all there. -/
theorem marker_trusted_while_flushed (K : Base.Crypto) (F : Formats) (b : Bootstrap)
    (carrier : Carrier) {c : Session State Op Op.Reply}
    (hr : (machine K F b carrier).Runs (flushed b) ⟨⟨[], []⟩, .pure ()⟩ c)
    (hskip : c.state.markerText = Base.bytesOf b.sandbox.imageDigest) :
    (∀ path content, (path, .file content) ∈ c.state.live.below "lower" →
      (path, .file content) ∈ carrier.contents F) ∧
    (b.sandbox.imageDigest ≠ "" → c.state.live.below "lower" = carrier.contents F) := by
  have hinit : Inv F b carrier ⟨[], []⟩ :=
    .inl ⟨⟨rfl, fun c hc => nomatch hc⟩, fun _ => ⟨fun _ h => (nomatch h), fun c hc => nomatch hc⟩⟩
  have hsettled : (machine K F b carrier).Settled (flushed b) (Inv F b carrier) (fun _ => True) c := by
    have hstart : (machine K F b carrier).Settled (flushed b) (Inv F b carrier) (fun _ => True)
        ⟨⟨[], []⟩, .pure ()⟩ := ⟨hinit, trivial⟩
    refine Machine.settled_of_runs _ (fun j s _ hs _ => ?_) (fun l s hok hs => ?_) hstart hr
    · exact Machine.Safe.weaken _ (safe_job j hs) fun _ _ _ => trivial
    · exact ⟨hs.killed l hok, trivial⟩
  rcases hsettled.1 with ⟨hunpublished, hbare⟩ | ⟨hpublished, _⟩
  · -- no marker reads like an empty one
    have hempty : b.digest = [] := by
      rw [Bootstrap.digest, ← hskip, State.markerText, hunpublished.lookup_live]
    have hdigest : Base.bytesOf b.sandbox.imageDigest = Base.bytesOf "" := hempty
    refine ⟨fun path content hmem => ?_, fun hne => absurd (Base.bytesOf_injective hdigest) hne⟩
    unfold Root.below at hmem
    split at hmem
    · rename_i nodes hnodes
      rw [(hbare hempty).live hnodes] at hmem
      cases hmem
    · cases hmem
  · obtain ⟨_, ⟨nodes, hnodes, hkinds⟩, _⟩ := hpublished.live
    have hbelow : c.state.live.below "lower" = carrier.contents F := by
      simp only [Root.below, hnodes, hkinds]
    exact ⟨fun path content hmem => hbelow ▸ hmem, fun _ => hbelow⟩

namespace UnpackSample
open Base.Sample (crypto)

def archive : Bytes := 1 :: List.replicate 511 0 ++ 5 :: List.replicate 511 0

def formats : Formats where
  tar := ⟨fun _ _ => some ⟨"f", 48, 1, 420⟩, fun _ _ => true⟩
  gunzip _ := .error "gzip: invalid header"
  unzstd _ := .error "magic number mismatch"
  edits b := ([.put "f" (.file ((b.drop 512).take 1))], none)

def layer : Descriptor := ⟨Base.digest crypto archive, 1024, "application/vnd.oci.image.layer.v1.tar"⟩

def media : Carrier where
  image := ⟨"i", "sha256:i", ⟨[], [], [], "", "", "", [], false⟩, [layer], [Base.digest crypto archive]⟩
  blobs := [(crypto.sha256 archive, archive)]

def sandbox : Sandbox :=
  { Network.occupant Network.idA 1 with
    imageDigest := "sha256:i"
    spec := { defaultSpec with diskSize := 2 ^ 20, network := "none" } }

def bootstrap : Bootstrap := ⟨1, sandbox.id, sandbox⟩

def guest : Machine State Op Op.Reply Job Loss := machine crypto formats bootstrap media

def succeed (s : State) : (o : Op) → ℕ → o.Reply
  | .state (.mkdirAll _), _ => none
  | .state (.createTemp _ pattern), _ => .ok (pattern ++ "0")
  | .state (.chmod _ _), _ => none
  | .state (.write _ _ data), _ => (data.length, none)
  | .state (.sync _ _), _ => none
  | .state (.close _ _), _ => none
  | .state (.rename _ _ _), _ => none
  | .state (.remove _ name), _ => if (s.live.lookup name).isNone then .missing else .done
  | .state (.readFile _ name), _ =>
    match s.live.lookup name with
    | some (.file data _) => .ok data
    | _ => .error "no such file or directory"
  | .state (.readDir _), _ => .error "not a directory"
  | .state (.syncDir _), _ => none
  | .readMarker, _ => s.markerText
  | .mkdirAll _, _ => none
  | .mkdir _, _ => none
  | .removeAll _, _ => none
  | .readImage, _ => .ok media.image
  | .readBlob _, _ => .ok archive
  | .edit _ _, _ => none
  | .outside _, _ => none
  | .sync, _ => ()

def firstBoot : List (Machine.Move Job Loss) := .request .boot :: List.replicate 57 (.run 0)

def total : Loss := ⟨[], fun _ _ => some []⟩

end UnpackSample

open UnpackSample in
/-- After an orderly shutdown a kill can lose nothing. -/
theorem marker_trusted_while_flushed_shutdown :
    ∃ c, guest.Runs (flushed bootstrap) ⟨⟨[], []⟩, .pure ()⟩ c ∧
      c.state.markerText = Base.bytesOf bootstrap.sandbox.imageDigest ∧
      c.state.live.below "lower" = media.contents formats := by
  have hrun : (guest.replay (flushed bootstrap) succeed ⟨⟨[], []⟩, .pure ()⟩
      (firstBoot ++ [.request .shutdown, .run 0, .run 0, .crash total])).any
        (fun c => c.state.markerText == Base.bytesOf bootstrap.sandbox.imageDigest) = true := by
    decide +kernel
  obtain ⟨c, hr, hmarker⟩ := Machine.exists_of_replay _ hrun
  have hmarker := eq_of_beq hmarker
  exact ⟨c, hr, hmarker,
    (marker_trusted_while_flushed Base.Sample.crypto formats bootstrap media hr hmarker).2 (by decide)⟩

open UnpackSample in
/-- A kill after the first boot leaves the marker, and an unpacked file without its data. -/
theorem marker_outlives_data : ∃ c, guest.Runs (fun _ _ => true) ⟨⟨[], []⟩, .pure ()⟩ c ∧
      c.state.markerText = Base.bytesOf bootstrap.sandbox.imageDigest ∧
      ("f", .file []) ∈ c.state.live.below "lower" ∧
      ("f", .file []) ∉ media.contents formats ∧ ("f", .file [5]) ∈ media.contents formats := by
  have hrun : (guest.replay (fun _ _ => true) succeed ⟨⟨[], []⟩, .pure ()⟩
      (firstBoot ++ [.crash total])).any
        (fun c => c.state.markerText == Base.bytesOf bootstrap.sandbox.imageDigest &&
          (c.state.live.below "lower").contains ("f", .file [])) = true := by
    decide +kernel
  obtain ⟨c, hr, hall⟩ := Machine.exists_of_replay _ hrun
  obtain ⟨hmarker, hfile⟩ := (Bool.and_eq_true _ _).mp hall
  refine ⟨c, hr, eq_of_beq hmarker, List.contains_iff_mem.1 hfile, ?_, ?_⟩
  · decide +kernel
  · decide +kernel

end Niflhel.Guest
