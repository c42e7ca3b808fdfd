import Niflhel.BaseStore
import Niflhel.BaseDigest
import Niflhel.RelyGuarantee

/-!
# Concurrent calls on the base store

`base-pull` and `base-load` take no lock, and `base.Store` has none of its own, so its calls
interleave. A removal lists the records, computes from them which component files are in use
and deletes the others later; an import writes its component files before the records that
name them. The state remembers which component files imports wrote while a removal was in
progress. If no removal deletes one of those, every record names component files with the
signed digest and size, in every state.
-/

namespace Niflhel.BaseStore
open Concurrent Catalog Directory
open Base (Bundle Signed digest blobPath CollisionFree)

structure Shared where
  files : Base.Files
  /-- The component files that each import in progress has written. -/
  writing : List (ℕ × String)
  /-- The removals that have listed the records. -/
  removing : List ℕ
  /-- For each of these, the component files that imports wrote, or named in a record, in the
  meantime, or had written before and not returned since. -/
  overlap : List (ℕ × String)

inductive Op where
  | call (o : Catalog.Op Bundle)
  /-- The call of the store returns. -/
  | done

abbrev Op.Reply : Op → Type
  | .call o => o.Reply
  | .done => Unit

def lift (o : Catalog.Op Bundle) : Program Op Op.Reply o.Reply := Program.perform (Op.call o)

def touch (threads : List ℕ) (paths : List String) : List (ℕ × String) :=
  threads.flatMap fun t => paths.map fun p => (t, p)

namespace Shared

def listed (s : Shared) (t : ℕ) : Shared :=
  { s with removing := t :: s.removing, overlap := s.writing.map (fun w => (t, w.2)) ++ s.overlap }

def recorded (s : Shared) (name : String) (b : Bundle) : Shared :=
  { s with
    files := ⟨put s.files.refs name b, s.files.blobs⟩
    overlap := touch s.removing (layout.keys b) ++ s.overlap }

def unrecorded (s : Shared) (name : String) : Shared :=
  { s with files := ⟨keep (fun n => n != name) s.files.refs, s.files.blobs⟩ }

def stored (s : Shared) (t : ℕ) (path : String) (blobs : List (String × Bytes)) : Shared :=
  { s with
    files := ⟨s.files.refs, blobs⟩
    writing := (t, path) :: s.writing
    overlap := touch s.removing [path] ++ s.overlap }

def deleted (s : Shared) (path : String) : Shared :=
  { s with files := ⟨s.files.refs, keep (fun n => n != path) s.files.blobs⟩ }

def returned (s : Shared) (t : ℕ) : Shared :=
  { s with
    writing := s.writing.filter fun w => w.1 != t
    removing := s.removing.filter fun u => u != t
    overlap := s.overlap.filter fun w => w.1 != t }

end Shared

def Job.contents : Job → List Bytes
  | .importBundle _ _ kernel rootfs =>
      [kernel, rootfs].filterMap fun x => x.toOption.map Fsutil.Reader.bytes
  | .pull _ _ (.ok x) =>
      [x.kernel, x.rootfs].filterMap fun x => x.toOption.map Fsutil.Reader.bytes
  | _ => []

section
variable (K : Base.Crypto) (trust : String → String) (H : List Bytes)

def execCall (t : ℕ) (s : Shared) : (o : Op) → o.Reply → Option Shared
  | .call (.readRecord name), .ok b =>
      if s.files.refs.lookup name = some b then some s else none
  | .call .listRecords, .ok names =>
      if names = (readDir s.files.refs).map Prod.fst then some (s.listed t) else none
  | .call (.writeRecord name b), (true, _) => some (s.recorded name b)
  | .call (.writeRecord _ _), (false, e) => if e.isSome then some s else none
  | .call (.deleteRecord name), none => some (s.unrecorded name)
  | .call (.readBlob path), .ok c => if s.files.blobs.lookup path = some c then some s else none
  | .call (.writeBlob path r desc), none =>
      if r.failure.isNone then
        (Base.writeVerified K s.files.blobs path r.bytes desc).toOption.map (s.stored t path)
      else none
  | .call (.deleteBlob path), none => some (s.deleted path)
  | .call _, _ => some s
  | .done, _ => some (s.returned t)

def store : System Shared Op Op.Reply (Option Job) where
  exec := execCall K
  forks _ := none
  code
    | none => .pure ()
    | some j => (j.calls K trust).expand lift >>= fun _ => Program.perform Op.done
  accepts _
    | none => false
    | some j => j.contents.all fun c => H.contains c
  crash s := ⟨s.files, [], [], []⟩
  boot := none

end

/-- No component file is deleted that an import wrote during a removal in progress. -/
def apart (s : Shared) : (o : Op) → o.Reply → Bool
  | .call (.deleteBlob path), none => s.overlap.all fun w => w.2 != path
  | _, _ => true

def Present (K : Base.Crypto) (blobs : List (String × Bytes)) (path : String) (d : Descriptor) :
    Prop := ∃ c, blobs.lookup path = some c ∧ digest K c = d.digest ∧ (c.length : ℤ) = d.size

def Intact (K : Base.Crypto) (blobs : List (String × Bytes)) (b : Bundle) : Prop :=
  Present K blobs b.kernelPath b.signed.config.kernel ∧
    Present K blobs b.rootFSPath b.signed.config.rootFS

structure Sound (K : Base.Crypto) (H : List Bytes) (s : Shared) : Prop where
  hashed : ∀ path c, s.files.blobs.lookup path = some c → path = "blobs/" ++ K.sha256 c ∧ c ∈ H
  intact : ∀ name b, s.files.refs.lookup name = some b → Intact K s.files.blobs b

variable {K : Base.Crypto} {trust : String → String} {H : List Bytes} {s s' : Shared} {t u : ℕ}
  {path : String} {d : Descriptor} {b : Bundle} {α : Type}

theorem mem_touch {threads : List ℕ} {paths : List String} :
    (t, path) ∈ touch threads paths ↔ t ∈ threads ∧ path ∈ paths := by
  simp [touch]

/-- No record names the component file, and no import in progress has written it. -/
structure Unused (s : Shared) (path : String) : Prop where
  records : ∀ name b, s.files.refs.lookup name = some b → path ∉ layout.keys b
  writing : ∀ u, (u, path) ∉ s.writing

/-- The guarantee of every call: a written component lies under its hash, a written record is
intact, and a deleted component is unused. -/
def permit (K : Base.Crypto) (H : List Bytes) (s : Shared) : (o : Op) → o.Reply → Prop
  | .call (.writeBlob path r _), none => path = "blobs/" ++ K.sha256 r.bytes ∧ r.bytes ∈ H
  | .call (.writeRecord _ b), (true, _) => Intact K s.files.blobs b
  | .call (.deleteBlob path), none => Unused s path
  | _, _ => True

inductive Effect (K : Base.Crypto) (H : List Bytes) (t : ℕ) (s : Shared) : Op → Shared → Prop where
  | same (o : Catalog.Op Bundle) : Effect K H t s (.call o) s
  | list (o : Catalog.Op Bundle) : Effect K H t s (.call o) (s.listed t)
  | record (o : Catalog.Op Bundle) (name : String) (b : Bundle) (hb : Intact K s.files.blobs b) :
      Effect K H t s (.call o) (s.recorded name b)
  | unrecord (o : Catalog.Op Bundle) (name : String) : Effect K H t s (.call o) (s.unrecorded name)
  | blob (o : Catalog.Op Bundle) (path : String) (c : Bytes)
      (hc : path = "blobs/" ++ K.sha256 c ∧ c ∈ H) :
      Effect K H t s (.call o) (s.stored t path (put s.files.blobs path c))
  | unblob (o : Catalog.Op Bundle) (path : String) (hunused : Unused s path) :
      Effect K H t s (.call o) (s.deleted path)
  | done : Effect K H t s .done (s.returned t)

theorem written_of_exec {r : Fsutil.Reader}
    (hx : execCall K t s (.call (.writeBlob path r d)) none = some s') :
    (r.bytes.length : ℤ) = d.size ∧ digest K r.bytes = d.digest ∧
      s' = s.stored t path (put s.files.blobs path r.bytes) := by
  simp only [execCall] at hx
  split_ifs at hx
  obtain ⟨blobs, hblobs, rfl⟩ := Option.map_eq_some_iff.1 hx
  cases hw : Base.writeVerified K s.files.blobs path r.bytes d with
  | error e => simp [hw, Except.toOption] at hblobs
  | ok written =>
    obtain rfl : written = blobs := by simpa [hw, Except.toOption] using hblobs
    obtain ⟨hlen, hd, rfl⟩ := Base.writeVerified_eq_ok hw
    exact ⟨hlen, hd, rfl⟩

theorem effect_of_exec {o : Op} {r : o.Reply} (hp : permit K H s o r)
    (hx : execCall K t s o r = some s') : Effect K H t s o s' := by
  cases o with
  | done => cases hx; exact .done
  | call o => ?_
  cases o with
  | readRecord name =>
    cases r with
    | error e => exact Option.some.inj hx ▸ .same _
    | ok b =>
      simp only [execCall] at hx
      split_ifs at hx
      exact Option.some.inj hx ▸ .same _
  | listRecords =>
    cases r with
    | error e => exact Option.some.inj hx ▸ .same _
    | ok names =>
      simp only [execCall] at hx
      split_ifs at hx
      exact Option.some.inj hx ▸ .list _
  | writeRecord name b =>
    obtain ⟨renamed, e⟩ := r
    cases renamed with
    | true => exact Option.some.inj hx ▸ .record _ name b hp
    | false =>
      simp only [execCall] at hx
      split_ifs at hx
      exact Option.some.inj hx ▸ .same _
  | deleteRecord name =>
    cases r with
    | none => exact Option.some.inj hx ▸ .unrecord _ name
    | some e => exact Option.some.inj hx ▸ .same _
  | readBlob path =>
    cases r with
    | error e => exact Option.some.inj hx ▸ .same _
    | ok c =>
      simp only [execCall] at hx
      split_ifs at hx
      exact Option.some.inj hx ▸ .same _
  | writeBlob path reader desc =>
    cases r with
    | some e => exact Option.some.inj hx ▸ .same _
    | none =>
      obtain ⟨_, _, rfl⟩ := written_of_exec hx
      exact .blob _ path reader.bytes hp
  | deleteBlob path =>
    cases r with
    | none => exact Option.some.inj hx ▸ .unblob _ path hp
    | some e => exact Option.some.inj hx ▸ .same _

theorem hashed_unique (hH : CollisionFree K H) {c c' : Bytes}
    (hc : path = "blobs/" ++ K.sha256 c ∧ c ∈ H) (hc' : path = "blobs/" ++ K.sha256 c' ∧ c' ∈ H) :
    c = c' := by
  have htext := congrArg String.toList (hc.1.symm.trans hc'.1)
  rw [String.toList_append, String.toList_append] at htext
  exact hH c hc.2 c' hc'.2 (String.toList_injective (List.append_cancel_left htext))

theorem Present.put (hH : CollisionFree K H) (hs : Sound K H s) {c : Bytes} {other : String}
    (hc : other = "blobs/" ++ K.sha256 c ∧ c ∈ H) (h : Present K s.files.blobs path d) :
    Present K (put s.files.blobs other c) path d := by
  obtain ⟨c', hc', hd, hlen⟩ := h
  by_cases hpath : path = other
  · subst hpath
    obtain rfl := hashed_unique hH hc (hs.hashed path c' hc')
    exact ⟨c, lookup_put_self .., hd, hlen⟩
  · exact ⟨c', by rw [lookup_put_ne _ _ hpath, hc'], hd, hlen⟩

theorem Present.keep {other : String} (hne : path ≠ other) {blobs : List (String × Bytes)}
    (h : Present K blobs path d) : Present K (keep (fun n => n != other) blobs) path d := by
  obtain ⟨c, hc, hd, hlen⟩ := h
  exact ⟨c, by rw [lookup_keep _ _ (by simpa using hne), hc], hd, hlen⟩

theorem Sound.effect (hH : CollisionFree K H) {o : Op} (hs : Sound K H s) (h : Effect K H t s o s') :
    Sound K H s' := by
  cases h with
  | same o => exact hs
  | list | done => exact ⟨hs.hashed, hs.intact⟩
  | record o name b hb =>
    refine ⟨hs.hashed, fun n b' hb' => ?_⟩
    rw [Shared.recorded, lookup_put] at hb'
    split_ifs at hb'
    · rwa [← Option.some.inj hb']
    · exact hs.intact n b' hb'
  | unrecord o name =>
    refine ⟨hs.hashed, fun n b' hb' => ?_⟩
    have hkept : (keep (fun n => n != name) s.files.refs).lookup n = some b' := hb'
    exact hs.intact n b' (lookup_keep_eq_some hkept).2
  | blob o path c hc =>
    refine ⟨fun p c' hc' => ?_, fun n b' hb' => ?_⟩
    · rw [Shared.stored, lookup_put] at hc'
      split_ifs at hc' with hp
      · rw [hp, ← Option.some.inj hc']
        exact hc
      · exact hs.hashed p c' hc'
    · obtain ⟨hk, hr⟩ := hs.intact n b' hb'
      exact ⟨hk.put hH hs hc, hr.put hH hs hc⟩
  | unblob o path hunused =>
    refine ⟨fun p c' hc' => ?_, fun n b' hb' => ?_⟩
    · have hkept : (keep (fun n => n != path) s.files.blobs).lookup p = some c' := hc'
      exact hs.hashed p c' (lookup_keep_eq_some hkept).2
    · obtain ⟨hk, hr⟩ := hs.intact n b' hb'
      have hnot := hunused.records n b' hb'
      simp only [layout, List.mem_cons, List.not_mem_nil, or_false, not_or] at hnot
      exact ⟨hk.keep (Ne.symm hnot.1), hr.keep (Ne.symm hnot.2)⟩

def Written (K : Base.Crypto) (t : ℕ) (path : String) (d : Descriptor) (s : Shared) : Prop :=
  (t, path) ∈ s.writing ∧ Present K s.files.blobs path d

theorem Written.effect (hH : CollisionFree K H) {o : Op} (hs : Sound K H s)
    (hw : Written K t path d s) (h : Effect K H u s o s') (ho : o = .done → u ≠ t) :
    Written K t path d s' := by
  obtain ⟨hmem, hpresent⟩ := hw
  cases h with
  | same | list | record | unrecord => exact ⟨hmem, hpresent⟩
  | blob o other c hc => exact ⟨List.mem_cons_of_mem _ hmem, hpresent.put hH hs hc⟩
  | unblob o other hunused =>
    refine ⟨hmem, hpresent.keep ?_⟩
    rintro rfl
    exact hunused.writing t hmem
  | done =>
    refine ⟨List.mem_filter.2 ⟨hmem, ?_⟩, hpresent⟩
    simpa using (ho rfl).symm

def Holding (K : Base.Crypto) (t : ℕ) (components : List (String × Descriptor)) (s : Shared) :
    Prop := ∀ x ∈ components, Written K t x.1 x.2 s

theorem Holding.effect (hH : CollisionFree K H) {components : List (String × Descriptor)} {o : Op}
    (hs : Sound K H s) (hw : Holding K t components s) (h : Effect K H u s o s')
    (ho : o = .done → u ≠ t) : Holding K t components s' :=
  fun x hx => (hw x hx).effect hH hs h ho

/-- Where a removal is: the records it has not read yet are among `names`, the components of
every other record are in `used`, unless an import interfered. -/
structure Seen (t : ℕ) (names used : List String) (s : Shared) : Prop where
  removing : t ∈ s.removing
  records : ∀ n b, s.files.refs.lookup n = some b → n ∉ names → ∀ p ∈ layout.keys b,
    p ∈ used ∨ (t, p) ∈ s.overlap
  writing : ∀ u p, (u, p) ∈ s.writing → (t, p) ∈ s.overlap

theorem Seen.effect {names used : List String} {o : Op} (hs : Seen t names used s)
    (h : Effect K H u s o s') (ho : o = .done → u ≠ t) : Seen t names used s' := by
  obtain ⟨hremoving, hrecords, hwriting⟩ := hs
  cases h with
  | same | unblob => exact ⟨hremoving, hrecords, hwriting⟩
  | list o =>
    refine ⟨List.mem_cons_of_mem _ hremoving, fun n b hb hn p hp => ?_, fun v p hv => ?_⟩
    · exact (hrecords n b hb hn p hp).imp id (List.mem_append_right _)
    · exact List.mem_append_right _ (hwriting v p hv)
  | record o name b hb =>
    refine ⟨hremoving, fun n b' hb' hn p hp => ?_, fun v p hv => ?_⟩
    · rw [Shared.recorded, lookup_put] at hb'
      split_ifs at hb'
      · cases hb'
        exact .inr (List.mem_append_left _ (mem_touch.2 ⟨hremoving, hp⟩))
      · exact (hrecords n b' hb' hn p hp).imp id (List.mem_append_right _)
    · exact List.mem_append_right _ (hwriting v p hv)
  | unrecord o name =>
    refine ⟨hremoving, fun n b hb => ?_, hwriting⟩
    have hkept : (keep (fun n => n != name) s.files.refs).lookup n = some b := hb
    exact hrecords n b (lookup_keep_eq_some hkept).2
  | blob o path c hc =>
    refine ⟨hremoving, fun n b hb hn p hp => ?_, fun v p hv => ?_⟩
    · exact (hrecords n b hb hn p hp).imp id (List.mem_append_right _)
    · rcases List.mem_cons.1 hv with heq | hold
      · cases heq
        exact List.mem_append_left _ (mem_touch.2 ⟨hremoving, List.mem_singleton_self _⟩)
      · exact List.mem_append_right _ (hwriting v p hold)
  | done =>
    have hother : ∀ p, (t, p) ∈ s.overlap → (t, p) ∈ (s.returned u).overlap := by
      intro p hp
      exact List.mem_filter.2 ⟨hp, by simpa using (ho rfl).symm⟩
    refine ⟨List.mem_filter.2 ⟨hremoving, by simpa using (ho rfl).symm⟩, ?_, ?_⟩
    · exact fun n b hb hn p hp => (hrecords n b hb hn p hp).imp id (hother p)
    · exact fun v p hv => hother p (hwriting v p (List.mem_filter.1 hv).1)

/-- What a removal that has read all records deletes is unused, unless an import interfered. -/
theorem Seen.unused {used : List String} (hs : Seen t [] used s) (hpath : path ∉ used)
    (hapart : (s.overlap.all fun w => w.2 != path) = true) : Unused s path := by
  have hno : (t, path) ∉ s.overlap := by
    intro hmem
    have hne := List.all_eq_true.1 hapart (t, path) hmem
    simp at hne
  refine ⟨fun n b hb hp => ?_, fun u hu => hno (hs.writing u path hu)⟩
  rcases hs.records n b hb List.not_mem_nil path hp with hused | hover
  · exact hpath hused
  · exact hno hover

def guarantee (K : Base.Crypto) (trust : String → String) (H : List Bytes)
    (hH : CollisionFree K H) : Discipline ((store K trust H).restrict apart) where
  inv := Sound K H
  permit _ := permit K H
  fresh _ _ := True
  pre j _ _ := ∀ i, j = some i → ∀ c ∈ i.contents, c ∈ H
  inv_step hi hp hx := hi.effect hH (effect_of_exec hp (System.restrict_exec_eq_some _ |>.1 hx).2)
  fresh_step _ _ _ _ _ := trivial

section
variable {hH : CollisionFree K H} {P : Shared → Prop} {post : α → Shared → Prop}

/-- What every operation but the thread's own return keeps is stable. -/
theorem stable_of_effect
    (h : ∀ u s o s', Sound K H s → Effect K H u s o s' → (o = .done → u ≠ t) → P s → P s') :
    (guarantee K trust H hH).Stable t P := by
  rintro s s' ⟨hi, u, o, r, hu, hp, hx⟩ hs
  exact h u s o s' hi (effect_of_exec hp (System.restrict_exec_eq_some _ |>.1 hx).2) (fun _ => hu) hs

theorem stable_holding (components : List (String × Descriptor)) :
    (guarantee K trust H hH).Stable t (Holding K t components) :=
  stable_of_effect fun _ _ _ _ hi he ho hs => hs.effect hH hi he ho

theorem stable_seen (names used : List String) :
    (guarantee K trust H hH).Stable t (Seen t names used) :=
  stable_of_effect fun _ _ _ _ _ he ho hs => hs.effect he ho

theorem safe_call {o : Catalog.Op Bundle} {f : o.Reply → Calls Bundle α}
    (hP : (guarantee K trust H hH).Stable t P) (hs : P s)
    (h : ∀ s₁ r s₂, Sound K H s₁ → P s₁ → apart s₁ (.call o) r = true →
      execCall K t s₁ (.call o) r = some s₂ → permit K H s₁ (.call o) r ∧
      (Effect K H t s₁ (.call o) s₂ → (guarantee K trust H hH).Safe t post ((f r).expand lift) s₂)) :
    (guarantee K trust H hH).Safe t post ((call o >>= f).expand lift) s := by
  refine Discipline.Safe.step hP hs fun s₁ hi hs₁ r s₂ hx => ?_
  obtain ⟨hapart, hx⟩ := (System.restrict_exec_eq_some _).1 hx
  obtain ⟨hp, hnext⟩ := h s₁ r s₂ hi hs₁ hapart hx
  exact ⟨hp, fun j hj => (nomatch hj), hnext (effect_of_exec hp hx)⟩

theorem safe_reads {p : Calls Bundle α} (hp : p.Uses fun o => ∀ s r, permit K H s (.call o) r) :
    (guarantee K trust H hH).Respects t (p.expand lift) s := by
  have huses : (p.expand lift).Uses fun o => ∀ s r, permit K H s o r :=
    Program.uses_expand _ hp fun o ho => ⟨ho, fun _ => trivial⟩
  refine Discipline.safe_of_uses (Discipline.stable_const _ t True) huses ?_ trivial
  exact fun o r s₁ s₂ ho _ _ _ => ⟨ho s₁ r, fun j hj => (nomatch hj), trivial⟩

theorem safe_get (ref : String) :
    (guarantee K trust H hH).Respects t ((get K trust ref).expand lift) s := by
  have hcomponents : ∀ l, (checkComponents K l).Uses fun o => ∀ s r, permit K H s (.call o) r := by
    intro l
    induction l with
    | nil => trivial
    | cons x rest ih =>
      refine Program.uses_perform (fun _ _ => trivial) fun
        | .error e => trivial
        | .ok c => ?_
      dsimp only
      split_ifs
      · trivial
      · exact ih
  refine safe_reads (Program.uses_perform (fun _ _ => trivial) fun r => ?_)
  cases r with
  | error e => trivial
  | ok b => ?_
  dsimp only
  cases Base.verify K trust b.signed with
  | error e => trivial
  | ok _ =>
    exact Program.uses_bind (hcomponents _) fun
      | none => trivial
      | some e => trivial

theorem safe_scan (digest : String) {names used : List String} (hs : Seen t names used s) :
    (guarantee K trust H hH).Safe t (fun r s' => ∀ all, r = .ok all → Seen t [] all s')
      ((scan layout digest names used).expand lift) s := by
  induction names generalizing used s with
  | nil =>
    rintro all ⟨⟩
    exact hs
  | cons name rest ih =>
    refine safe_call (stable_seen _ _) hs fun s₁ r s₂ _ hs₁ _ hx => ⟨trivial, fun _ => ?_⟩
    cases r with
    | error e => exact fun all h => nomatch h
    | ok other => ?_
    simp only [execCall] at hx
    split_ifs at hx with hother
    cases hx
    dsimp only
    split_ifs
    · refine safe_call (stable_seen _ _) hs₁ fun s₃ r s₄ _ hs₃ _ hx => ⟨trivial, fun he => ?_⟩
      cases r with
      | some e => exact fun all h => nomatch h
      | none =>
        cases hx
        refine ih ⟨hs₃.removing, fun n b hb hn => ?_, hs₃.writing⟩
        have hkept : (keep (fun n => n != name) s₃.files.refs).lookup n = some b := hb
        obtain ⟨hne, hb⟩ := lookup_keep_eq_some hkept
        exact hs₃.records n b hb (by simpa [hn] using hne)
    · refine ih ⟨hs₁.removing, fun n b hb hn p hp => ?_, hs₁.writing⟩
      by_cases hname : n = name
      · subst hname
        cases hb.symm.trans hother
        exact .inl (List.mem_append_left _ hp)
      · exact (hs₁.records n b hb (by simp [hname, hn]) p hp).imp (List.mem_append_right _) id

theorem safe_sweep {used : List String} (keys : List String) (hs : Seen t [] used s) :
    (guarantee K trust H hH).Respects t ((sweep layout used keys).expand lift) s := by
  induction keys generalizing s with
  | nil => trivial
  | cons key rest ih =>
    unfold sweep
    by_cases hkey : used.contains key = true
    · rw [if_pos hkey]
      exact ih hs
    · rw [if_neg hkey]
      refine safe_call (stable_seen _ _) hs fun s₁ r s₂ _ hs₁ hapart hx => ?_
      cases r with
      | some e => exact ⟨trivial, fun _ => trivial⟩
      | none =>
        refine ⟨hs₁.unused (by simpa using hkey) hapart, fun he => ?_⟩
        exact ih (hs₁.effect he (by simp))

theorem safe_remove (ref : String) :
    (guarantee K trust H hH).Respects t ((remove K trust ref).expand lift) s := by
  unfold remove Catalog.remove
  rw [Program.expand_bind]
  refine (safe_get ref).bind fun
    | .error e, _, _ => trivial
    | .ok b, s₁, _ => ?_
  refine safe_call (Discipline.stable_const _ t True) trivial
    fun s₂ r s₃ _ _ _ hx => ⟨trivial, fun _ => ?_⟩
  cases r with
  | error e => trivial
  | ok names => ?_
  simp only [execCall] at hx
  split_ifs at hx with hnames
  cases hx
  have hstart : Seen t names [] (s₂.listed t) := by
    refine ⟨List.mem_cons_self, fun n b hb hn => ?_, fun u p hu => ?_⟩
    · refine absurd ?_ hn
      rw [hnames]
      exact List.mem_map.2 ⟨(n, b), mem_readDir.2 (lookup_mem hb), rfl⟩
    · exact List.mem_append_left _ (List.mem_map.2 ⟨(u, p), hu, rfl⟩)
  rw [Program.expand_bind]
  exact (safe_scan b.digest hstart).bind fun
    | .error e, _, _ => trivial
    | .ok used, _, hr => safe_sweep _ (hr used rfl)

theorem blobPath_of_digest {c : Bytes} (h : digest K c = d.digest) :
    blobPath d = "blobs/" ++ K.sha256 c := by
  have htext : d.digest.toList.drop 7 = (K.sha256 c).toList := by
    rw [← h, digest, String.toList_append]
    rfl
  rw [blobPath, htext, String.ofList_toList]

theorem safe_writeComponent {source : Except String Fsutil.Reader} (d : Descriptor)
    {components : List (String × Descriptor)}
    (hsource : ∀ r, source = .ok r → r.bytes ∈ H) (hs : Holding K t components s) :
    (guarantee K trust H hH).Safe t
      (fun e s' => e = none → Holding K t ((blobPath d, d) :: components) s')
      ((writeComponent (blobPath d) source d).expand lift) s := by
  cases source with
  | error e => exact fun he => nomatch he
  | ok r => ?_
  refine safe_call (f := pure) (stable_holding _) hs fun
    | _, some e, _, _, _, _, _ => ⟨trivial, fun _ he => nomatch he⟩
    | s₁, none, s₂, hi, hs₁, _, hx => ?_
  obtain ⟨hlen, hd, rfl⟩ := written_of_exec hx
  refine ⟨⟨blobPath_of_digest hd, hsource r rfl⟩, fun he _ => ?_⟩
  intro x hx
  rcases List.mem_cons.1 hx with rfl | hx
  · exact ⟨List.mem_cons_self, r.bytes, lookup_put_self .., hd, hlen⟩
  · exact (hs₁ x hx).effect hH hi he (by simp)

def parts (v : Signed) : List (String × Descriptor) :=
  [(blobPath v.config.rootFS, v.config.rootFS), (blobPath v.config.kernel, v.config.kernel)]

theorem Holding.intact {v : Signed} (h : Holding K t (parts v) s) (ref : String) :
    Intact K s.files.blobs (Base.bundleOf K ref v) :=
  ⟨(h _ (List.mem_cons_of_mem _ List.mem_cons_self)).2, (h _ List.mem_cons_self).2⟩

theorem safe_writeRecord {v : Signed} {name ref : String}
    {f : Bool × Option String → Calls Bundle α} (hs : Holding K t (parts v) s)
    (hf : ∀ r s', Holding K t (parts v) s' →
      (guarantee K trust H hH).Safe t post ((f r).expand lift) s') :
    (guarantee K trust H hH).Safe t post
      ((call (.writeRecord name (Base.bundleOf K ref v)) >>= f).expand lift) s := by
  refine safe_call (stable_holding _) hs fun s₁ r s₂ hi hs₁ _ _ => ⟨?_, fun he => ?_⟩
  · obtain ⟨renamed, e⟩ := r
    cases renamed with
    | true => exact hs₁.intact ref
    | false => trivial
  · exact hf r s₂ (hs₁.effect hH hi he (by simp))

theorem safe_importBundle (ref : String) (v : Signed) {kernel rootfs : Except String Fsutil.Reader}
    (hkernel : ∀ r, kernel = .ok r → r.bytes ∈ H) (hrootfs : ∀ r, rootfs = .ok r → r.bytes ∈ H) :
    (guarantee K trust H hH).Respects t
      ((importBundle K trust ref v kernel rootfs).expand lift) s := by
  unfold importBundle
  cases Base.verify K trust v with
  | error e => trivial
  | ok _ =>
    rw [Program.expand_bind]
    have hnone : Holding K t [] s := fun x hx => nomatch hx
    refine (safe_writeComponent _ hkernel hnone).bind fun
      | some e, _, _ => trivial
      | none, s₁, hs₁ => ?_
    rw [Program.expand_bind]
    refine (safe_writeComponent _ hrootfs (hs₁ rfl)).bind fun
      | some e, _, _ => trivial
      | none, s₂, hs₂ => ?_
    -- from here on both components stay until the call returns
    have hparts : Holding K t (parts v) s₂ := hs₂ rfl
    refine safe_call (stable_holding _) hparts
      fun s₃ c s₄ hi hs₃ _ _ => ⟨trivial, fun he => ?_⟩
    have hs₄ := hs₃.effect hH hi he (by simp)
    cases c with
    | error e => trivial
    | ok c => ?_
    dsimp only
    cases Base.checkKernel c with
    | error e => trivial
    | ok _ =>
      refine safe_writeRecord hs₄ fun r s₅ hs₅ => ?_
      obtain ⟨_, e⟩ := r
      cases e with
      | some e => trivial
      | none =>
        refine safe_writeRecord hs₅ fun r s₆ _ => ?_
        obtain ⟨_, e⟩ := r
        cases e with
        | some | none => trivial

theorem safe_importFetched (ref : String) (fetched : Except String Fetched)
    (h : ∀ x, fetched = .ok x → (∀ r, x.kernel = .ok r → r.bytes ∈ H) ∧
      ∀ r, x.rootfs = .ok r → r.bytes ∈ H) :
    (guarantee K trust H hH).Respects t
      ((importFetched K trust ref fetched).expand lift) s := by
  cases fetched with
  | error e => trivial
  | ok x => exact safe_importBundle ref x.signed (h x rfl).1 (h x rfl).2

theorem safe_pull (ref policy : String) (fetched : Except String Fetched)
    (h : ∀ x, fetched = .ok x → (∀ r, x.kernel = .ok r → r.bytes ∈ H) ∧
      ∀ r, x.rootfs = .ok r → r.bytes ∈ H) :
    (guarantee K trust H hH).Respects t
      ((pull K trust ref policy fetched).expand lift) s := by
  unfold pull
  by_cases halways : policy ≠ "always"
  · rw [if_pos halways, Program.expand_bind]
    refine (safe_get ref).bind fun
      | .ok b, _, _ => trivial
      | .error e, s₁, _ => ?_
    split_ifs
    · trivial
    · exact safe_importFetched ref fetched h
  · rw [if_neg halways]
    exact safe_importFetched ref fetched h

theorem mem_contents {kernel rootfs : Except String Fsutil.Reader}
    (h : ∀ c ∈ [kernel, rootfs].filterMap fun x => x.toOption.map Fsutil.Reader.bytes, c ∈ H) :
    (∀ r, kernel = .ok r → r.bytes ∈ H) ∧ ∀ r, rootfs = .ok r → r.bytes ∈ H := by
  constructor
  · rintro r rfl
    exact h _ (List.mem_filterMap.2 ⟨.ok r, by simp, rfl⟩)
  · rintro r rfl
    exact h _ (List.mem_filterMap.2 ⟨.ok r, by simp, rfl⟩)

theorem safe_job (j : Job) (hj : ∀ c ∈ j.contents, c ∈ H) :
    (guarantee K trust H hH).Respects t ((j.calls K trust).expand lift) s := by
  cases j with
  | importBundle ref v kernel rootfs =>
    obtain ⟨hkernel, hrootfs⟩ := mem_contents hj
    unfold Job.calls
    rw [Program.expand_bind]
    exact (safe_importBundle ref v hkernel hrootfs).bind fun _ _ _ => trivial
  | pull ref policy fetched =>
    have hfetched : ∀ x, fetched = .ok x → (∀ r, x.kernel = .ok r → r.bytes ∈ H) ∧
        ∀ r, x.rootfs = .ok r → r.bytes ∈ H := by
      rintro x rfl
      exact mem_contents hj
    unfold Job.calls
    rw [Program.expand_bind]
    exact (safe_pull ref policy fetched hfetched).bind fun _ _ _ => trivial
  | remove ref =>
    unfold Job.calls
    rw [Program.expand_bind]
    exact (safe_remove ref).bind fun _ _ _ => trivial

theorem sound_guarantee : (guarantee K trust H hH).Sound (Sound K H) where
  boots s hs := ⟨hs, fun i hi => (nomatch hi), fun _ => trivial⟩
  crashes s hs := ⟨⟨hs.hashed, hs.intact⟩, fun i hi => (nomatch hi), fun _ => trivial⟩
  accepts s j _ hj t i hi c hc := by
    subst hi
    have hall := List.all_eq_true.1 hj c hc
    simpa using hall
  jobs j t s _ hj _ := by
    cases j with
    | none => trivial
    | some j =>
      refine (safe_job j (hj j rfl)).bind fun _ s₁ _ => ?_
      exact Discipline.Safe.step (Discipline.stable_const _ t True) trivial
        fun _ _ _ _ _ _ => ⟨trivial, fun i hi => (nomatch hi), trivial⟩

end

/-- Every record names intact components, in every state of every run of any number of calls
in which no removal deletes a component that an import wrote meanwhile. -/
theorem records_intact_while_apart (hH : CollisionFree K H) (hs : Sound K H s)
    {c : Config Shared Op Op.Reply}
    (hc : (store K trust H).Runs (System.Meets apart) ((store K trust H).booted s) c) :
    ∀ name b, c.state.files.refs.lookup name = some b → Intact K c.state.files.blobs b := by
  have hreach : ((store K trust H).restrict apart).Reachable (Sound K H) c :=
    ⟨s, hs, (System.restrict_runs _).2 hc⟩
  have hsound : (guarantee K trust H hH).Sound (Sound K H) := sound_guarantee
  exact (hsound.guarded hreach).inv.intact

namespace RaceSample
open Base.Sample (crypto trusted kernel rootfs signed)

def empty : Shared := ⟨Base.Files.empty, [], [], []⟩

def bundles : System Shared Op Op.Reply (Option Job) := store crypto trusted [kernel, rootfs]

def load (ref : String) (reserve : ℤ) : System.Move (Option Job) :=
  .request (some (.importBundle ref (signed reserve) (.ok ⟨kernel, none⟩) (.ok ⟨rootfs, none⟩)))

def rm (ref : String) : System.Move (Option Job) := .request (some (.remove ref))

def run (t n : ℕ) : List (System.Move (Option Job)) := List.replicate n (.run t 0)

def succeed (s : Shared) : (o : Op) → ℕ → o.Reply
  | .call (.readRecord name), _ => match s.files.refs.lookup name with
    | some b => .ok b
    | none => .error "no such file or directory"
  | .call .listRecords, _ => .ok ((readDir s.files.refs).map Prod.fst)
  | .call (.writeRecord _ _), _ => (true, none)
  | .call (.deleteRecord _), _ => none
  | .call (.readBlob path), _ => match s.files.blobs.lookup path with
    | some c => .ok c
    | none => .error "no such file or directory"
  | .call (.writeBlob _ _ _), _ => none
  | .call (.deleteBlob _), _ => none
  | .done, _ => ()

def idle : Program Op Op.Reply Unit → Bool
  | .pure _ => true
  | .call _ _ => false

theorem sound_empty : Sound crypto [kernel, rootfs] empty :=
  ⟨fun _ _ h => (nomatch h), fun _ _ h => (nomatch h)⟩

end RaceSample

open RaceSample in
/-- The removal of a bundle keeps the components it shares with another one. -/
theorem records_intact_while_apart_removed :
    ∃ c, bundles.Runs (System.Meets apart) (bundles.booted empty) c ∧
      c.state.files.refs.length = 2 ∧
      ∀ name b, c.state.files.refs.lookup name = some b →
        Intact Base.Sample.crypto c.state.files.blobs b := by
  have hrun : (((bundles.restrict apart).replay succeed ((bundles.restrict apart).booted empty)
      (load "x" 64 :: run 1 6 ++ load "y" 65 :: run 2 6 ++ rm "x" :: run 3 11)).any fun c =>
        decide (c.state.files.refs.length = 2)) = true := by
    decide +kernel
  obtain ⟨c, hc, hlen⟩ := (Option.any_eq_true _ _).1 hrun
  have hruns := (System.restrict_runs bundles).1 (System.replay_runs _ hc)
  have hH : CollisionFree Base.Sample.crypto [Base.Sample.kernel, Base.Sample.rootfs] := by
    unfold CollisionFree
    decide +kernel
  exact ⟨c, hruns, of_decide_eq_true hlen, records_intact_while_apart hH sound_empty hruns⟩

open RaceSample in
/-- A bundle imported between the scan and the deletions of a removal loses its components. -/
theorem removal_deletes_imported : ∃ c, bundles.Runs (fun _ _ => True) (bundles.booted empty) c ∧
      (∀ t < c.count, idle (c.threads t) = true) ∧
      ∃ name b, c.state.files.refs.lookup name = some b ∧
        ¬ Intact Base.Sample.crypto c.state.files.blobs b := by
  have hrun : ((bundles.replay succeed (bundles.booted empty)
      (load "x" 64 :: run 1 6 ++ rm "x" :: run 2 8 ++ load "y" 65 :: run 3 6 ++ run 2 3)).any fun c =>
        (List.range c.count).all (fun t => idle (c.threads t)) &&
          c.state.files.refs.any fun r => c.state.files.refs.lookup r.1 == some r.2 &&
            (c.state.files.blobs.lookup r.2.kernelPath).isNone) = true := by
    decide +kernel
  obtain ⟨c, hc, hall⟩ := (Option.any_eq_true _ _).1 hrun
  obtain ⟨hidle, hany⟩ := (Bool.and_eq_true _ _).mp hall
  obtain ⟨⟨name, b⟩, _, hb⟩ := List.any_eq_true.1 hany
  obtain ⟨hlook, hgone⟩ := (Bool.and_eq_true _ _).mp hb
  refine ⟨c, System.replay_runs _ hc, fun t ht => ?_, name, b, by simpa using hlook, ?_⟩
  · exact List.all_eq_true.1 hidle t (List.mem_range.2 ht)
  · rintro ⟨⟨content, hcontent, _⟩, _⟩
    simp [hcontent] at hgone

end Niflhel.BaseStore
