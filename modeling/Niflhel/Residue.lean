import Niflhel.BaseStore
import Niflhel.ImageCache

/-!
# What a crash leaves in the record directory

`List` and `Remove` of both stores read every file of `refs`, and stop at the first that is
not a record. `Atomic` keeps its temporary file in the same directory, and nothing removes
one that a crash has left. As long as no such file is cut off, both functions succeed:
`list_complete` and `purge_complete`.
-/

namespace Niflhel.Catalog
open Concurrent FileOps Fsutil Directory

variable {ρ : Type} (C : Codec ρ)

def isRecord (b : Bytes) : Bool := (C.unmarshal b).toOption.isSome

/-- No crash while a file of `refs` is cut off, and no failing deletion of such a file. -/
def orderly {Job : Type} (s : Disk Dir) : Event (FileOps.Op Dir) FileOps.Op.Reply Job Unit → Bool
  | .crash _ => (s .refs).all fun f => isRecord C f.2
  | .run (.remove .refs name) (.failed _) => ((s .refs).lookup name).all (isRecord C)
  | _ => true

def Whole (s : Disk Dir) : Prop := ∀ name b, (s .refs).lookup name = some b → isRecord C b = true

variable {C} {K : Base.Crypto} {L : Layout ρ} {s s' : Disk Dir} {name path : String} {α Job : Type}
  {code : Job → Files Dir Unit} {crash : Unit → Disk Dir → Disk Dir}

theorem isRecord_marshal (hC : C.Lawful) (r : ρ) : isRecord C (C.marshal r) = true := by
  simp [isRecord, hC.unmarshal_marshal, Except.toOption]

theorem Whole.of_refs (h : Whole C s) (hrefs : s' .refs = s .refs) : Whole C s' := by
  intro n b hb
  rw [hrefs] at hb
  exact h n b hb

theorem Whole.erase (h : Whole C s) (d : Dir) (name : String) : Whole C (s.erase d name) := by
  cases d with
  | blobs => exact h.of_refs (erase_other (by decide))
  | refs =>
    intro n b hb
    rw [erase_same] at hb
    exact h n b (lookup_keep_eq_some hb).2

variable {b : Bytes}

theorem Whole.put (h : Whole C s) (hb : isRecord C b = true) (name : String) :
    Whole C (s.put .refs name b) := by
  intro n b' hb'
  rw [put_same, lookup_put] at hb'
  split_ifs at hb'
  · rwa [← Option.some.inj hb']
  · exact h n b' hb'

theorem whole_remove {d : Dir} {f : Removal → Files Dir α} (h : Whole C s)
    (hf : ∀ r s', Whole C s' → Machine.Safe ⟨FileOps.exec, code, crash⟩ (orderly C) (fun _ => True)
      (fun _ s' => Whole C s') (f r) s') :
    Machine.Safe ⟨FileOps.exec, code, crash⟩ (orderly C) (fun _ => True) (fun _ s' => Whole C s')
      (file (.remove d name) >>= f) s := by
  refine safe_file fun r s' _ hx => ⟨trivial, hf r s' ?_⟩
  rcases exec_remove hx with ⟨_, rfl⟩ | ⟨_, rfl⟩
  · exact h.erase d name
  · exact h

theorem whole_discard {a : α} {data : Bytes} {tmp : String} {n : ℕ} (h : Whole C s)
    (hfresh : Fresh s .refs ".pending-" tmp) :
    Machine.Safe ⟨FileOps.exec, code, crash⟩ (orderly C) (fun _ => True) (fun _ s' => Whole C s')
      (file (.remove .refs tmp) >>= fun _ => pure a) (staged s .refs tmp data n) := by
  refine safe_discard trivial trivial hfresh h fun e' hok => h.put ?_ tmp
  simpa [orderly, lookup_staged] using hok

theorem whole_atomic (hC : C.Lawful) (h : Whole C s) (name : String) (r : ρ) :
    Machine.Safe ⟨FileOps.exec, code, crash⟩ (orderly C) (fun _ => True) (fun _ s' => Whole C s')
      (atomic .refs name (C.marshal r)) s := by
  refine safe_quiet rfl trivial fun
    | some e => h
    | none => ?_
  refine safe_file fun created s' _ hx => ⟨trivial, ?_⟩
  cases created with
  | error e =>
    cases hx
    exact h
  | ok tmp =>
    obtain ⟨hpattern, hnew, rfl⟩ := exec_createTemp hx
    have hfresh : Fresh s .refs ".pending-" tmp := ⟨hpattern, hnew⟩
    refine Machine.Safe.bind _ (safe_fill (fun _ => trivial)) fun filled s' hfilled => ?_
    obtain ⟨n, rfl, hn⟩ := hfilled
    cases filled with
    | some e => exact whole_discard h hfresh
    | none => ?_
    refine safe_file fun renamed s' _ hx => ⟨trivial, ?_⟩
    cases renamed with
    | some e =>
      cases hx
      exact whole_discard h hfresh
    | none =>
      have hfull := exec_rename_staged hnew hx
      rw [hn rfl, List.take_length] at hfull
      subst hfull
      refine safe_quiet rfl trivial fun e => ?_
      exact whole_remove (h.put (isRecord_marshal hC r) name) fun _ _ hs => hs

def opDir : FileOps.Op Dir → Dir
  | .mkdirAll d | .createTemp d _ | .chmod d _ | .write d _ _ | .sync d _ | .close d _
  | .rename d _ _ | .remove d _ | .readFile d _ | .readDir d | .syncDir d => d

theorem exec_refs {o : FileOps.Op Dir} {r : o.Reply} (ho : opDir o = .blobs)
    (hx : FileOps.exec s o r = some s') : s' .refs = s .refs := by
  have hne : Dir.refs ≠ Dir.blobs := by decide
  cases hq : o.quiet with
  | true => rw [exec_quiet hq hx]
  | false =>
    cases o with
    | createTemp d pattern =>
      obtain rfl : d = .blobs := ho
      cases r with
      | error e => rw [← Option.some.inj hx]
      | ok tmp => rw [(exec_createTemp hx).2.2, put_other hne]
    | write d name data =>
      obtain rfl : d = .blobs := ho
      obtain ⟨n, e⟩ := r
      cases hlook : (s .blobs).lookup name with
      | some c => rw [(exec_write hlook hx).2, put_other hne]
      | none =>
        simp only [FileOps.exec, hlook] at hx
        split_ifs at hx
        rw [← Option.some.inj hx]
    | rename d source target =>
      obtain rfl : d = .blobs := ho
      cases r with
      | some e => rw [← Option.some.inj hx]
      | none =>
        obtain ⟨c, hc, rfl⟩ := Option.map_eq_some_iff.1 hx
        rw [put_other hne, erase_other hne]
    | remove d name =>
      obtain rfl : d = .blobs := ho
      rcases exec_remove hx with ⟨_, rfl⟩ | ⟨_, rfl⟩
      · rw [erase_other hne]
      · rfl
    | _ => cases hq

theorem whole_of_uses {p : Files Dir α} (hp : p.Uses fun o => opDir o = .blobs) (h : Whole C s) :
    Machine.Safe ⟨FileOps.exec, code, crash⟩ (orderly C) (fun _ => True) (fun _ s' => Whole C s') p s := by
  induction p generalizing s with
  | pure a => exact h
  | call o next ih =>
    intro r s' _ hx
    exact ⟨trivial, ih r (hp.2 r) (h.of_refs (exec_refs hp.1 hx))⟩

theorem uses_copy (tmp : String) (r : Reader) :
    (copy Dir.blobs tmp r).Uses fun o => opDir o = .blobs := by
  refine Program.uses_perform rfl fun written => ?_
  cases written.2.or r.failure with
  | some e => exact Program.uses_perform rfl fun _ => Program.uses_pure _
  | none =>
    exact Program.uses_perform rfl fun
      | some e => Program.uses_perform rfl fun _ => Program.uses_pure _
      | none => ⟨rfl, fun _ => trivial⟩

theorem uses_writeVerified (K : Base.Crypto) (path : String) (r : Reader) (desc : Descriptor) :
    (writeVerified K Dir.blobs path r desc).Uses fun o => opDir o = .blobs := by
  unfold writeVerified
  cases Base.hexDigest desc.digest with
  | error e => exact Program.uses_pure _
  | ok hex =>
    dsimp only
    split
    · exact Program.uses_pure _
    refine Program.uses_perform rfl fun
      | some e => Program.uses_pure _
      | none => ?_
    refine Program.uses_perform rfl fun
      | .error e => Program.uses_pure _
      | .ok tmp => ?_
    refine Program.uses_bind (uses_copy tmp _) fun
      | some e => Program.uses_perform rfl fun _ => Program.uses_pure _
      | none => ?_
    refine Program.uses_perform rfl fun
      | .error e => Program.uses_perform rfl fun _ => Program.uses_pure _
      | .ok c => ?_
    dsimp only
    split
    · exact Program.uses_perform rfl fun _ => Program.uses_pure _
    · exact Program.uses_perform rfl fun _ =>
        Program.uses_perform rfl fun _ => Program.uses_pure _

/-- Every call keeps the directory whole, and so does every program of calls. -/
theorem whole_steps (hC : C.Lawful) (h : Whole C s) (o : Op ρ) :
    Machine.Safe ⟨FileOps.exec, code, crash⟩ (orderly C) (fun _ => True) (fun _ s' => Whole C s')
      (steps K C o) s := by
  cases o with
  | readRecord name =>
    exact safe_quiet rfl trivial fun
      | .error e => h
      | .ok b => h
  | listRecords | readBlob => exact safe_quiet (f := pure) rfl trivial fun _ => h
  | writeRecord name r => exact whole_atomic hC h name r
  | deleteRecord | deleteBlob =>
    exact whole_remove h fun
      | .done, _, hs' => hs'
      | .missing, _, hs' => hs'
      | .failed e, _, hs' => hs'
  | writeBlob path r desc => exact whole_of_uses (uses_writeVerified K path r desc) h

theorem whole_calls (hC : C.Lawful) (h : Whole C s) (p : Calls ρ α) :
    Machine.Safe ⟨FileOps.exec, code, crash⟩ (orderly C) (fun _ => True) (fun _ s' => Whole C s')
      (p.expand (steps K C)) s := by
  induction p generalizing s with
  | pure a => exact h
  | call o next ih => exact (whole_steps hC h o).bind _ fun r s' hs' => ih r hs'

/-- In a run that meets the condition, the directory is whole between calls. -/
theorem whole_of_runs (hC : C.Lawful) {calls : Job → Calls ρ Unit}
    {c : Session (Disk Dir) (FileOps.Op Dir) FileOps.Op.Reply}
    (hr : Machine.Runs ⟨FileOps.exec, fun j => (calls j).expand (steps K C), fun _ s => s⟩ (orderly C)
      ⟨fun _ => [], .pure ()⟩ c) (hidle : c.program = .pure ()) :
    Named c.state ∧ Whole C c.state := by
  let M : Machine (Disk Dir) (FileOps.Op Dir) FileOps.Op.Reply Job Unit :=
    ⟨FileOps.exec, fun j => (calls j).expand (steps K C), fun _ s => s⟩
  have hnamed : Named c.state := by
    have hempty : Named (fun _ : Dir => ([] : List (String × Bytes))) := fun _ => List.nodup_nil
    exact M.invariant_of_runs (c := ⟨fun _ => [], .pure ()⟩) (fun _ _ _ _ h hx => h.exec hx)
      (fun _ _ h => h) hempty hr
  have hsettled : M.Settled (orderly C) (fun _ => True) (Whole C) c := by
    have hempty : Whole C (fun _ => []) := fun _ _ h => nomatch h
    have hstart : M.Settled (orderly C) (fun _ => True) (Whole C) ⟨fun _ => [], .pure ()⟩ :=
      ⟨trivial, hempty⟩
    exact M.settled_of_runs (fun j s _ _ hs => whole_calls hC hs (calls j))
      (fun _ s hok _ => ⟨trivial, fun n b hb => List.all_eq_true.1 hok _ (lookup_mem hb)⟩) hstart hr
  have hrest := hsettled.2
  rw [hidle] at hrest
  exact ⟨hnamed, hrest⟩

/-- The answers when every operation succeeds that can. The name of a temporary file is
the system's choice. -/
def succeed (s : Disk Dir) : (o : FileOps.Op Dir) → Option o.Reply
  | .createTemp _ _ => none
  | .write _ _ data => some (data.length, none)
  | .remove d name => some (if ((s d).lookup name).isSome then .done else .missing)
  | .readFile d name => some (match (s d).lookup name with
    | some c => .ok c
    | none => .error "no such file or directory")
  | .readDir d => some (.ok ((readDir (s d)).map Prod.fst))
  | .mkdirAll _ | .chmod _ _ | .sync _ _ | .close _ _ | .rename _ _ _ | .syncDir _ => some none

abbrev bare : Machine (Disk Dir) (FileOps.Op Dir) FileOps.Op.Reply Empty Unit :=
  ⟨FileOps.exec, nofun, fun _ s => s⟩

def finish (K : Base.Crypto) (C : Codec ρ) (s : Disk Dir) (p : Calls ρ α) : Option (α × Disk Dir) :=
  bare.complete succeed s (p.expand (steps K C))

theorem finish_bind {β : Type} (p : Calls ρ α) (f : α → Calls ρ β) :
    finish K C s (p >>= f) = (finish K C s p).bind fun x => finish K C x.2 (f x.1) := by
  unfold finish
  rw [Program.expand_bind, Machine.complete_bind]

theorem finish_call {o : Op ρ} {r : o.Reply} (h : finish K C s (call o) = some (r, s'))
    (f : o.Reply → Calls ρ α) : finish K C s (call o >>= f) = finish K C s' (f r) := by
  rw [finish_bind, h, Option.bind_some]

theorem finish_eq {o : Op ρ} {r : o.Reply}
    (h : bare.complete succeed s (steps K C o) = some (r, s')) :
    finish K C s (call o) = some (r, s') := by
  unfold finish
  rw [show (call o).expand (steps K C) = steps K C o >>= pure from rfl, Machine.complete_bind, h]
  rfl

theorem complete_file (o : FileOps.Op Dir) (r : o.Reply) (s' : Disk Dir)
    (hr : succeed s o = some r) (hx : FileOps.exec s o r = some s') (f : o.Reply → Files Dir α) :
    bare.complete succeed s (file o >>= f) = bare.complete succeed s' (f r) :=
  bare.complete_perform hr hx f

theorem finish_readRecord (h : (s .refs).lookup name = some b) :
    finish K C s (call (.readRecord name)) = some (C.unmarshal b, s) := by
  apply finish_eq
  refine (complete_file (.readFile .refs name) (.ok b) s ?_ ?_ _).trans rfl
  · simp [succeed, h]
  · simp [FileOps.exec, h]

theorem finish_listRecords :
    finish K C s (call .listRecords) = some (.ok ((readDir (s .refs)).map Prod.fst), s) := by
  apply finish_eq
  exact complete_file (.readDir .refs) (.ok ((readDir (s .refs)).map Prod.fst)) s rfl (by simp [FileOps.exec]) pure

theorem finish_deleteRecord (h : (s .refs).lookup name = some b) :
    finish K C s (call (.deleteRecord name)) = some (none, s.erase .refs name) := by
  apply finish_eq
  refine (complete_file (.remove .refs name) .done (s.erase .refs name) ?_ ?_ _).trans rfl
  · simp [succeed, h]
  · simp [FileOps.exec, h]

theorem finish_deleteBlob (path : String) :
    ∃ s', finish K C s (call (.deleteBlob path)) = some (none, s') ∧ s' .refs = s .refs := by
  cases h : (s .blobs).lookup path with
  | some c =>
    refine ⟨s.erase .blobs path, finish_eq ?_, erase_other (by decide)⟩
    refine (complete_file (.remove .blobs path) .done (s.erase .blobs path) ?_ ?_ _).trans rfl
    · simp [succeed, h]
    · simp [FileOps.exec, h]
  | none =>
    refine ⟨s, finish_eq ?_, rfl⟩
    refine (complete_file (.remove .blobs path) .missing s ?_ ?_ _).trans rfl
    · simp [succeed, h]
    · simp [FileOps.exec, h]

theorem Whole.record (h : Whole C s) (hb : (s .refs).lookup name = some b) :
    ∃ r, C.unmarshal b = .ok r := by
  have hrec := h name b hb
  cases hu : C.unmarshal b with
  | error e => simp [isRecord, hu, Except.toOption] at hrec
  | ok r => exact ⟨r, rfl⟩

def firsts (L : Layout ρ) : List ρ → List ρ → List ρ
  | [], out => out
  | v :: rest, out =>
    if out.any fun w => L.ref w == L.ref v then firsts L rest out else firsts L rest (out ++ [v])

theorem subset_firsts (records out : List ρ) : ∀ w ∈ out, w ∈ firsts L records out := by
  induction records generalizing out with
  | nil => exact fun w hw => hw
  | cons v rest ih =>
    intro w hw
    unfold firsts
    split
    · exact ih out w hw
    · exact ih (out ++ [v]) w (List.mem_append_left _ hw)

variable {records : List ρ}

theorem mem_of_firsts {out : List ρ} {w : ρ} (hw : w ∈ firsts L records out) :
    w ∈ out ∨ w ∈ records := by
  induction records generalizing out with
  | nil => exact Or.inl hw
  | cons v rest ih =>
    unfold firsts at hw
    split at hw
    · exact (ih hw).imp_right (List.mem_cons_of_mem _)
    · rcases ih hw with h | h
      · rcases List.mem_append.1 h with h | h
        · exact Or.inl h
        · exact Or.inr (List.mem_singleton.1 h ▸ List.mem_cons_self ..)
      · exact Or.inr (List.mem_cons_of_mem _ h)

theorem ref_mem_firsts {r : ρ} (hr : r ∈ records) (out : List ρ) :
    ∃ w ∈ firsts L records out, L.ref w = L.ref r := by
  induction records generalizing out with
  | nil => cases hr
  | cons v rest ih =>
    unfold firsts
    rcases List.mem_cons.1 hr with rfl | hr
    · split
      · rename_i hseen
        obtain ⟨w, hw, href⟩ := List.any_eq_true.1 hseen
        exact ⟨w, subset_firsts rest out w hw, by simpa using href⟩
      · exact ⟨r, subset_firsts rest _ r (by simp), rfl⟩
    · split
      · exact ih hr out
      · exact ih hr _

def Holds (C : Codec ρ) (s : Disk Dir) (name : String) (r : ρ) : Prop :=
  ∃ b, (s .refs).lookup name = some b ∧ C.unmarshal b = .ok r

variable {names : List String}

theorem finish_collect (h : List.Forall₂ (Holds C s) names records) (out : List ρ) :
    finish K C s (collect L names out) = some (.ok (firsts L records out), s) := by
  induction h generalizing out with
  | nil => rfl
  | cons hfirst _ ih =>
    obtain ⟨b, hb, hv⟩ := hfirst
    unfold collect firsts
    rw [finish_call (finish_readRecord hb), hv]
    dsimp only
    split
    · exact ih out
    · exact ih _

theorem Holds.unique {r r' : ρ} (h : Holds C s name r) (h' : Holds C s name r') : r = r' := by
  obtain ⟨b, hb, hr⟩ := h
  obtain ⟨b', hb', hr'⟩ := h'
  cases hb.symm.trans hb'
  exact Except.ok.inj (hr.symm.trans hr')

theorem exists_holds (h : Whole C s) (hnamed : Named s) :
    ∀ n ∈ (readDir (s .refs)).map Prod.fst, ∃ r, Holds C s n r := by
  intro n hn
  obtain ⟨f, hf, rfl⟩ := List.mem_map.1 hn
  have hb := lookup_of_mem (hnamed .refs) (mem_readDir.1 hf)
  obtain ⟨r, hr⟩ := h.record hb
  exact ⟨r, f.2, hb, hr⟩

/-- Files that hold records hold a list of records. -/
theorem exists_forall₂ (h : ∀ n ∈ names, ∃ r, Holds C s n r) :
    ∃ records, List.Forall₂ (Holds C s) names records ∧
      ∀ r, r ∈ records ↔ ∃ n ∈ names, Holds C s n r := by
  induction names with
  | nil => exact ⟨[], .nil, by simp⟩
  | cons n rest ih =>
    obtain ⟨v, hv⟩ := h n (List.mem_cons_self ..)
    obtain ⟨records, hrest, hmem⟩ := ih fun m hm => h m (List.mem_cons_of_mem _ hm)
    refine ⟨v :: records, .cons hv hrest, fun r => ?_⟩
    rw [List.mem_cons, hmem, List.exists_mem_cons_iff]
    exact or_congr_left ⟨fun hr => hr ▸ hv, fun hr => hr.unique hv⟩

theorem exists_records (h : Whole C s) (hnamed : Named s) :
    ∃ records, List.Forall₂ (Holds C s) ((readDir (s .refs)).map Prod.fst) records ∧
      ∀ r, r ∈ records ↔ Readable C s r := by
  obtain ⟨records, hholds, hmem⟩ := exists_forall₂ (exists_holds h hnamed)
  refine ⟨records, hholds, fun r => (hmem r).trans ⟨?_, ?_⟩⟩
  · rintro ⟨n, _, b, hb, hr⟩
    exact ⟨n, b, hb, hr⟩
  · rintro ⟨n, b, hb, hr⟩
    exact ⟨n, List.mem_map_of_mem (mem_readDir.2 (lookup_mem hb)), b, hb, hr⟩

/-- In a whole directory `List` returns a record for every reference, and a record itself
unless another one has its reference. -/
theorem list_complete (h : Whole C s) (hnamed : Named s) :
    ∃ out, finish K C s (list L) = some (.ok out, s) ∧ ∀ r, Readable C s r →
      (∃ w ∈ out, L.ref w = L.ref r) ∧
      ((∀ w, Readable C s w → L.ref w = L.ref r → w = r) → r ∈ out) := by
  obtain ⟨records, hholds, hmem⟩ := exists_records h hnamed
  refine ⟨firsts L records [], (finish_call finish_listRecords _).trans (finish_collect hholds []),
    fun r hr => ?_⟩
  obtain ⟨w, hw, href⟩ := ref_mem_firsts ((hmem r).2 hr) []
  refine ⟨⟨w, hw, href⟩, fun hunique => ?_⟩
  have hread : w ∈ records := (mem_of_firsts hw).resolve_left List.not_mem_nil
  rwa [← hunique w ((hmem w).1 hread) href]

theorem Holds.erase {r : ρ} {other : String} (h : Holds C s name r) (hne : name ≠ other) :
    Holds C (s.erase .refs other) name r := by
  obtain ⟨b, hb, hr⟩ := h
  refine ⟨b, ?_, hr⟩
  rw [erase_same, lookup_keep _ _ (by simpa using hne), hb]

theorem finish_scan (digest : String) (hnames : names.Nodup)
    (h : ∀ n ∈ names, ∃ r, Holds C s n r) (used : List String) :
    ∃ used' s', finish K C s (scan L digest names used) = some (.ok used', s') := by
  induction names generalizing used s with
  | nil => exact ⟨used, s, rfl⟩
  | cons name rest ih =>
    obtain ⟨hnew, hrest⟩ := List.nodup_cons.1 hnames
    obtain ⟨other, b, hb, hother⟩ := h name (List.mem_cons_self ..)
    have hkept : ∀ n ∈ rest, ∃ r, Holds C s n r := fun n hn => h n (List.mem_cons_of_mem _ hn)
    unfold scan
    rw [finish_call (finish_readRecord hb), hother]
    dsimp only
    split
    · rw [finish_call (finish_deleteRecord hb)]
      refine ih hrest (fun n hn => ?_) used
      obtain ⟨r, hr⟩ := hkept n hn
      exact ⟨r, hr.erase fun he => hnew (he ▸ hn)⟩
    · exact ih hrest hkept _

theorem finish_sweep (used : List String) {keys : List String} (h : ∀ key ∈ keys, ∃ path, L.path key = .ok path) :
    ∃ s', finish K C s (sweep L used keys) = some (none, s') := by
  induction keys generalizing s with
  | nil => exact ⟨s, rfl⟩
  | cons key rest ih =>
    have hrest : ∀ k ∈ rest, ∃ path, L.path k = .ok path :=
      fun k hk => h k (List.mem_cons_of_mem _ hk)
    unfold sweep
    split
    · exact ih hrest
    · obtain ⟨path, hpath⟩ := h key (List.mem_cons_self ..)
      obtain ⟨s₁, hdelete, _⟩ := finish_deleteBlob (K := K) (C := C) (s := s) path
      rw [hpath]
      rw [finish_call hdelete]
      exact ih hrest

/-- In a whole directory `Remove` succeeds after its call of `Get`. -/
theorem purge_complete (h : Whole C s) (hnamed : Named s) {v : ρ}
    (hkeys : ∀ key ∈ L.keys v, ∃ path, L.path key = .ok path) :
    ∃ s', finish K C s (purge L v) = some (none, s') := by
  have hnodup : ((readDir (s .refs)).map Prod.fst).Nodup :=
    ((List.perm_insertionSort _ _).map Prod.fst).nodup_iff.2 (hnamed .refs)
  obtain ⟨used, s₁, hscan⟩ := finish_scan (K := K) (L := L) (L.digest v) hnodup
    (exists_holds h hnamed) []
  obtain ⟨s', hsweep⟩ := finish_sweep (K := K) (C := C) (s := s₁) used hkeys
  refine ⟨s', (finish_call finish_listRecords _).trans ?_⟩
  rw [finish_bind, hscan, Option.bind_some]
  exact hsweep

theorem Whole.finished {p : Calls ρ α} {a : α} (hC : C.Lawful) (h : Whole C s) (hnamed : Named s)
    (hrun : finish K C s p = some (a, s')) : Whole C s' ∧ Named s' := by
  have hnames : bare.Safe (fun _ _ => true) Named (fun _ s' => Named s') (p.expand (steps K C)) s :=
    bare.safe_of_invariant (fun _ _ _ _ hs hx => hs.exec hx) hnamed _
  refine ⟨(whole_calls hC h p).complete _ (fun s o r hr => ?_) hrun,
    hnames.complete _ (fun _ _ _ _ => rfl) hrun⟩
  cases o with
  | remove d name =>
    cases hr
    cases d with
    | blobs => rfl
    | refs =>
      split
      · rfl
      · rfl
  | _ => rfl

/-- What a store is expected to offer in every state: `List` succeeds and returns every
complete record, unless another one has its reference, and then one with that reference;
and `Remove` succeeds for every reference for which `Get` does. -/
structure Enabled (K : Base.Crypto) (C : Codec ρ) (L : Layout ρ)
    (get : String → Calls ρ (Except String ρ)) (remove : String → Calls ρ (Option String))
    (s : Disk Dir) : Prop where
  list : ∃ out, finish K C s (list L) = some (.ok out, s) ∧ ∀ r, Readable C s r →
    (∃ w ∈ out, L.ref w = L.ref r) ∧
    ((∀ w, Readable C s w → L.ref w = L.ref r → w = r) → r ∈ out)
  remove : ∀ ref v s₁, finish K C s (get ref) = some (.ok v, s₁) →
    ∃ s', finish K C s (remove ref) = some (none, s')

/-- A store is enabled where its directory is whole, if the blobs of what `Get` returns have
files. -/
theorem Whole.enabled (hC : C.Lawful) (h : Whole C s) (hnamed : Named s)
    {get : String → Calls ρ (Except String ρ)} {remove : String → Calls ρ (Option String)}
    (hremove : ∀ ref, remove ref = Catalog.remove L (get ref))
    (hget : ∀ ref v s₁, finish K C s (get ref) = some (.ok v, s₁) →
      ∀ key ∈ L.keys v, ∃ path, L.path key = .ok path) : Enabled K C L get remove s where
  list := list_complete h hnamed
  remove ref v s₁ hfound := by
    obtain ⟨h₁, hnamed₁⟩ := h.finished hC hnamed hfound
    obtain ⟨s', hpurge⟩ := purge_complete (K := K) h₁ hnamed₁ (hget ref v s₁ hfound)
    refine ⟨s', ?_⟩
    rw [hremove, Catalog.remove, finish_bind, hfound, Option.bind_some]
    exact hpurge

end Niflhel.Catalog

namespace Niflhel.Oci
open Concurrent FileOps Fsutil Catalog

variable {K : Base.Crypto} {C : Codec Image} {s : Disk Dir}

theorem safe_any {Job' Loss α : Type} {code : Job' → Files Dir Unit}
    {crash : Loss → Disk Dir → Disk Dir} (p : Files Dir α) :
    Machine.Safe ⟨FileOps.exec, code, crash⟩ (fun _ _ => true) (fun _ => True) (fun _ _ => True) p s :=
  Machine.safe_of_invariant _ (fun _ _ _ _ _ _ => trivial) trivial p

theorem safe_checked {Job' Loss : Type} {code : Job' → Files Dir Unit}
    {crash : Loss → Disk Dir → Disk Dir} (layers : List Descriptor) :
    Machine.Safe ⟨FileOps.exec, code, crash⟩ (fun _ _ => true) (fun _ => True)
      (fun e _ => e = none → ∀ d ∈ layers, ∃ p, blob d.digest = .ok p)
      ((checkLayers K layers).expand (steps K C)) s := by
  induction layers generalizing s with
  | nil => exact fun _ d hd => absurd hd List.not_mem_nil
  | cons d rest ih =>
    unfold checkLayers
    cases hp : blob d.digest with
    | error e => rintro ⟨⟩
    | ok p =>
      refine Catalog.safe_call (safe_any _) fun read s' _ => ?_
      cases read with
      | error e => rintro ⟨⟩
      | ok c =>
        dsimp only
        split
        · rintro ⟨⟩
        · refine ih.weaken _ fun e _ hrest he x hx => ?_
          rcases List.mem_cons.1 hx with rfl | hx
          · exact ⟨p, hp⟩
          · exact hrest he x hx

theorem path_of_get {ref : String} {v : Image} {s₁ : Disk Dir}
    (h : Catalog.finish K C s (get K ref) = some (.ok v, s₁)) :
    ∀ key ∈ layout.keys v, ∃ path, layout.path key = .ok path := by
  have hsafe : bare.Safe (fun _ _ => true) (fun _ => True)
      (fun r _ => ∀ v, r = .ok v → ∀ d ∈ v.layers, ∃ p, blob d.digest = .ok p)
      ((get K ref).expand (steps K C)) s := by
    refine Catalog.safe_call (safe_any _) fun
      | .error e, _, _ => fun v hv => nomatch hv
      | .ok v, s', _ => ?_
    rw [Program.expand_bind]
    refine (safe_checked v.layers).bind _ fun
      | some e, _, _ => fun w hw => nomatch hw
      | none, s', he => ?_
    intro w hw
    cases hw
    exact he rfl
  intro key hkey
  obtain ⟨d, hd, rfl⟩ := List.mem_map.1 hkey
  exact hsafe.complete _ (fun _ _ _ _ => rfl) h v rfl d hd

end Niflhel.Oci

namespace Niflhel.Catalog
open Concurrent FileOps

/-- If no crash happens while a record file is cut off, and no cut-off file fails to be
deleted, both stores stay enabled. -/
theorem stores_enabled_while_orderly (K : Base.Crypto) (P : Oci.Decoder) (trust : String → String)
    (C : Codec Oci.Image) (hC : C.Lawful) (C' : Codec Base.Bundle) (hC' : C'.Lawful) :
    (∀ c, (Oci.machine K P C).Runs (orderly C) ⟨fun _ => [], .pure ()⟩ c → c.program = .pure () →
      Enabled K C Oci.layout (Oci.get K) (Oci.remove K) c.state) ∧
    ∀ c, (BaseStore.machine K trust C').Runs (orderly C') ⟨fun _ => [], .pure ()⟩ c →
      c.program = .pure () →
      Enabled K C' BaseStore.layout (BaseStore.get K trust) (BaseStore.remove K trust) c.state := by
  refine ⟨fun c hr hidle => ?_, fun c hr hidle => ?_⟩
  · obtain ⟨hnamed, hwhole⟩ := whole_of_runs hC hr hidle
    exact hwhole.enabled hC hnamed (fun _ => rfl) fun ref v s₁ h => Oci.path_of_get h
  · obtain ⟨hnamed, hwhole⟩ := whole_of_runs hC' hr hidle
    exact hwhole.enabled hC' hnamed (fun _ => rfl) fun _ _ _ _ key _ => ⟨key, rfl⟩

/-- An image, imported and listed. -/
theorem stores_enabled_while_orderly_imported :
    ∃ c, (Oci.machine Base.Sample.crypto Oci.Sample.decoder Oci.Sample.codec).Runs
        (orderly Oci.Sample.codec) ⟨fun _ => [], .pure ()⟩ c ∧ (c.state .refs).length = 2 ∧
      ∃ out, finish Base.Sample.crypto Oci.Sample.codec c.state (list Oci.layout) =
        some (.ok out, c.state) := by
  have hrun : ((Oci.machine Base.Sample.crypto Oci.Sample.decoder Oci.Sample.codec).replay
      (orderly Oci.Sample.codec) Sample.reply ⟨fun _ => [], .pure ()⟩
      (.request (.importImage "i" Oci.Sample.source) :: List.replicate 27 (.run 0) ++
        [.crash ()])).any (fun c => c.idle && decide ((c.state .refs).length = 2)) = true := by
    decide +kernel
  obtain ⟨c, hr, htest⟩ := Machine.exists_of_replay _ hrun
  obtain ⟨hidle, hlen⟩ := (Bool.and_eq_true _ _).mp htest
  have henabled := (stores_enabled_while_orderly Base.Sample.crypto Oci.Sample.decoder
    Base.Sample.trusted Oci.Sample.codec (Codec.lawful_ofCode _) (Codec.ofCode BaseStore.Sample.bundleCode)
    (Codec.lawful_ofCode _)).1 c hr (Session.program_of_idle hidle)
  obtain ⟨out, hlist, _⟩ := henabled.list
  exact ⟨c, hr, of_decide_eq_true hlen, out, hlist⟩

/-- A crash in the second import, just after its temporary file was made: the first image is
intact, but neither `List` nor its removal works any more. -/
theorem residue_disables_store :
    ∃ c, (Oci.machine Base.Sample.crypto Oci.Sample.decoder Oci.Sample.codec).Runs
        (fun _ _ => true) ⟨fun _ => [], .pure ()⟩ c ∧ c.program = .pure () ∧
      (∃ v s₁, finish Base.Sample.crypto Oci.Sample.codec c.state (Oci.get Base.Sample.crypto "i") =
        some (.ok v, s₁)) ∧
      (∃ e s₁, finish Base.Sample.crypto Oci.Sample.codec c.state (list Oci.layout) =
        some (.error e, s₁)) ∧
      ∃ e s₁, finish Base.Sample.crypto Oci.Sample.codec c.state
        (Oci.remove Base.Sample.crypto "i") = some (some e, s₁) := by
  have hrun : ((Oci.machine Base.Sample.crypto Oci.Sample.decoder Oci.Sample.codec).replay
      (fun _ _ => true) Sample.reply ⟨fun _ => [], .pure ()⟩
      (.request (.importImage "i" Oci.Sample.source) :: List.replicate 27 (.run 0) ++
        .request (.importImage "j" Oci.Sample.source) :: List.replicate 3 (.run 0) ++
          [.crash ()])).any (fun c => c.idle &&
        ((finish Base.Sample.crypto Oci.Sample.codec c.state
          (Oci.get Base.Sample.crypto "i")).any fun x => x.1.toOption.isSome) &&
        ((finish Base.Sample.crypto Oci.Sample.codec c.state
          (list Oci.layout)).any fun x => x.1.toOption.isNone) &&
        ((finish Base.Sample.crypto Oci.Sample.codec c.state
          (Oci.remove Base.Sample.crypto "i")).any fun x => x.1.isSome)) = true := by
    decide +kernel
  obtain ⟨c, hr, htest⟩ := Machine.exists_of_replay _ hrun
  simp only [Bool.and_eq_true] at htest
  obtain ⟨⟨⟨hidle, hget⟩, hlist⟩, hremove⟩ := htest
  refine ⟨c, hr, Session.program_of_idle hidle, ?_, ?_, ?_⟩
  · obtain ⟨⟨r, s₁⟩, hfinish, hok⟩ := (Option.any_eq_true _ _).1 hget
    cases r with
    | ok v => exact ⟨v, s₁, hfinish⟩
    | error e => cases hok
  · obtain ⟨⟨r, s₁⟩, hfinish, hok⟩ := (Option.any_eq_true _ _).1 hlist
    cases r with
    | ok v => cases hok
    | error e => exact ⟨e, s₁, hfinish⟩
  · obtain ⟨⟨r, s₁⟩, hfinish, hok⟩ := (Option.any_eq_true _ _).1 hremove
    cases r with
    | none => cases hok
    | some e => exact ⟨e, s₁, hfinish⟩

end Niflhel.Catalog
