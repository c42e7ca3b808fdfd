import Niflhel.Fsutil
import Niflhel.PrefixCode

/-!
# Stores of records that name blobs

The image store and the base store have one layout: record files under `refs`, each a JSON
document that names blob files under `blobs`. Both are written against the same few calls,
and share the loops of `List` and `Remove`. `steps` spells the calls out as file
operations. Reference counting is a scan: `Remove` deletes the records of one digest and
then the blobs that no other record it has read names.
-/

namespace Niflhel.Catalog
open Concurrent FileOps Fsutil Directory

inductive Dir where
  | refs
  | blobs
  deriving DecidableEq, Repr

inductive Op (ρ : Type) where
  | readRecord (name : String)
  | listRecords
  | writeRecord (name : String) (r : ρ)
  | deleteRecord (name : String)
  | readBlob (path : String)
  | writeBlob (path : String) (r : Reader) (desc : Descriptor)
  | deleteBlob (path : String)

/-- Answers of the calls. Writing a record also tells whether the file is there. -/
abbrev Op.Reply {ρ : Type} : Op ρ → Type
  | .readRecord _ => Except String ρ
  | .listRecords => Except String (List String)
  | .writeRecord _ _ => Bool × Option String
  | .readBlob _ => Except String Bytes
  | _ => Option String

abbrev Calls (ρ : Type) := Program (Op ρ) (@Op.Reply ρ)

structure Codec (ρ : Type) where
  marshal : ρ → Bytes
  unmarshal : Bytes → Except String ρ

/-- Encoded records are read back, and a record cut off is not readable. -/
structure Codec.Lawful {ρ : Type} (C : Codec ρ) : Prop where
  unmarshal_marshal : ∀ r, C.unmarshal (C.marshal r) = .ok r
  unmarshal_take : ∀ r n, n < (C.marshal r).length →
    ∃ e, C.unmarshal ((C.marshal r).take n) = .error e

def Codec.ofCode {ρ : Type} (c : PrefixCode ρ) : Codec ρ where
  marshal := c.encode
  unmarshal b := match c.decode b with
    | some (r, []) => .ok r
    | _ => .error "unexpected end of JSON input"

theorem Codec.lawful_ofCode {ρ : Type} (c : PrefixCode ρ) : (Codec.ofCode c).Lawful where
  unmarshal_marshal r := by
    have h := c.decode_append r []
    rw [List.append_nil] at h
    simp only [ofCode, h]
  unmarshal_take r n hn := by
    simp only [ofCode, c.decode_take r n hn]
    exact ⟨_, rfl⟩

def HexHash (K : Base.Crypto) : Prop :=
  ∀ b, (K.sha256 b).toList.length = 64 ∧ ∀ c ∈ (K.sha256 b).toList, isHexDigit c = true

/-- What the shared loops look at in a record: its reference, its digest and the keys of
its blobs, with the file of a key. -/
structure Layout (ρ : Type) where
  ref : ρ → String
  digest : ρ → String
  keys : ρ → List String
  path : String → Except String String

section
variable {ρ : Type}

abbrev call (o : Op ρ) : Calls ρ o.Reply := Program.perform o

/-- The loop of `List`: of several records with one reference the first is returned. -/
def collect (L : Layout ρ) : List String → List ρ → Calls ρ (Except String (List ρ))
  | [], out => return .ok out
  | name :: rest, out => do
    match ← call (.readRecord name) with
    | .error e => return .error e
    | .ok v =>
      if out.any fun w => L.ref w == L.ref v then collect L rest out else collect L rest (out ++ [v])

def list (L : Layout ρ) : Calls ρ (Except String (List ρ)) := do
  match ← call .listRecords with
  | .error e => return .error e
  | .ok names => collect L names []

def scan (L : Layout ρ) (digest : String) : List String → List String →
    Calls ρ (Except String (List String))
  | [], used => return .ok used
  | name :: rest, used => do
    match ← call (.readRecord name) with
    | .error e => return .error e
    | .ok other =>
      if L.digest other = digest then
        match ← call (.deleteRecord name) with
        | some e => return .error e
        | none => scan L digest rest used
      else scan L digest rest (L.keys other ++ used)

def sweep (L : Layout ρ) (used : List String) : List String → Calls ρ (Option String)
  | [] => return none
  | key :: rest => do
    if used.contains key then sweep L used rest
    else
      match L.path key with
      | .error e => return some e
      | .ok path =>
        match ← call (.deleteBlob path) with
        | some e => return some e
        | none => sweep L used rest

def purge (L : Layout ρ) (v : ρ) : Calls ρ (Option String) := do
  match ← call .listRecords with
  | .error e => return some e
  | .ok names =>
    match ← scan L (L.digest v) names [] with
    | .error e => return some e
    | .ok used => sweep L used (L.keys v)

def remove (L : Layout ρ) (get : Calls ρ (Except String ρ)) : Calls ρ (Option String) := do
  match ← get with
  | .error e => return some e
  | .ok v => purge L v

def steps (K : Base.Crypto) (C : Codec ρ) : (o : Op ρ) → Files Dir o.Reply
  | .readRecord name => do
    match ← file (.readFile .refs name) with
    | .error e => return .error e
    | .ok b => return C.unmarshal b
  | .listRecords => file (.readDir .refs)
  | .writeRecord name r => atomic .refs name (C.marshal r)
  | .deleteRecord name => do
    match ← file (.remove .refs name) with
    | .done => return none
    | .missing => return some "no such file or directory"
    | .failed e => return some e
  | .readBlob path => file (.readFile .blobs path)
  | .writeBlob path r desc => writeVerified K .blobs path r desc
  | .deleteBlob path => do
    match ← file (.remove .blobs path) with
    | .done => return none
    | .missing => return none
    | .failed e => return some e

end

section
variable {ρ : Type} {K : Base.Crypto} {C : Codec ρ} {L : Layout ρ} {Job Loss α : Type}
  {code : Job → Files Dir Unit} {crash : Loss → Disk Dir → Disk Dir}
  {ok : Disk Dir → Event (FileOps.Op Dir) FileOps.Op.Reply Job Loss → Bool} {inv : Disk Dir → Prop}
  {post : α → Disk Dir → Prop} {s : Disk Dir} {name path : String}

def Readable (C : Codec ρ) (s : Disk Dir) (r : ρ) : Prop :=
  ∃ name b, (s .refs).lookup name = some b ∧ C.unmarshal b = .ok r

/-- Names that start with a hexadecimal digit are not those of temporary files. -/
theorem not_temporary (rest : String) {text : String} {c : Char} {cs : List Char}
    (htext : text.toList = c :: cs) (hc : c ≠ '.') : ¬ ('.' :: rest.toList) <+: text.toList := by
  rintro ⟨t, ht⟩
  rw [htext, List.cons_append] at ht
  exact hc (List.cons.inj ht).1.symm

theorem record_not_pending (hK : HexHash K) (ref : String) :
    ¬ ".pending-".toList <+: (Base.record K ref).toList := by
  obtain ⟨hlen, hhex⟩ := hK (Base.bytesOf ref)
  cases htext : (K.sha256 (Base.bytesOf ref)).toList with
  | nil => simp [htext] at hlen
  | cons c cs =>
    have hc : isHexDigit c = true := hhex c (by simp [htext])
    have hrecord : (Base.record K ref).toList = c :: (cs ++ ".json".toList) := by
      simp [Base.record, htext]
    exact not_temporary "pending-" hrecord (by rintro rfl; simp [isHexDigit] at hc)

theorem safe_call {o : Op ρ} {f : o.Reply → Calls ρ α} {mid : o.Reply → Disk Dir → Prop}
    (h : Machine.Safe ⟨FileOps.exec, code, crash⟩ ok inv mid (steps K C o) s)
    (hf : ∀ r s', mid r s' →
      Machine.Safe ⟨FileOps.exec, code, crash⟩ ok inv post ((f r).expand (steps K C)) s') :
    Machine.Safe ⟨FileOps.exec, code, crash⟩ ok inv post ((call o >>= f).expand (steps K C)) s :=
  Machine.Safe.bind _ h hf

theorem safe_ignore {p : Calls ρ α} {rest : Disk Dir → Prop}
    (h : Machine.Safe ⟨FileOps.exec, code, crash⟩ ok inv (fun _ s' => rest s') (p.expand (steps K C)) s) :
    Machine.Safe ⟨FileOps.exec, code, crash⟩ ok inv (fun _ s' => rest s')
      ((p >>= fun _ => pure ()).expand (steps K C)) s := by
  rw [Program.expand_bind]
  exact h.bind _ fun _ _ hs => hs

theorem safe_readRecord (hs : inv s) : Machine.Safe ⟨FileOps.exec, code, crash⟩ ok inv
    (fun r s' => s' = s ∧ ∀ v, r = .ok v → ∃ b, (s .refs).lookup name = some b ∧
      C.unmarshal b = .ok v) (steps K C (.readRecord name)) s := by
  refine safe_file fun r s' _ hx => ?_
  obtain rfl := exec_quiet rfl hx
  refine ⟨hs, ?_⟩
  cases r with
  | error e => exact ⟨rfl, fun v hv => nomatch hv⟩
  | ok b => exact ⟨rfl, fun v hv => ⟨b, exec_readFile hx, hv⟩⟩

theorem safe_listRecords (hs : inv s) : Machine.Safe ⟨FileOps.exec, code, crash⟩ ok inv
    (fun r s' => s' = s ∧ ∀ names, r = .ok names → names = (readDir (s .refs)).map Prod.fst)
    (steps K C .listRecords) s := by
  refine safe_file (f := pure) fun r s' _ hx => ?_
  obtain rfl := exec_quiet rfl hx
  refine ⟨hs, rfl, fun names hr => ?_⟩
  subst hr
  exact exec_readDir hx

theorem safe_readBlob (hs : inv s) : Machine.Safe ⟨FileOps.exec, code, crash⟩ ok inv
    (fun r s' => s' = s ∧ ∀ c, r = .ok c → (s .blobs).lookup path = some c)
    (steps K C (.readBlob path)) s := by
  refine safe_file (f := pure) fun r s' _ hx => ?_
  obtain rfl := exec_quiet rfl hx
  refine ⟨hs, rfl, fun c hr => ?_⟩
  subst hr
  exact exec_readFile hx

theorem safe_deleteRecord (hs : inv s) (herase : inv (s.erase .refs name)) :
    Machine.Safe ⟨FileOps.exec, code, crash⟩ ok inv
      (fun r s' => (r = none ∧ s' = s.erase .refs name) ∨ (r ≠ none ∧ s' = s))
      (steps K C (.deleteRecord name)) s := by
  refine safe_file fun r s' _ hx => ?_
  rcases exec_remove hx with ⟨rfl, rfl⟩ | ⟨hr, rfl⟩
  · exact ⟨herase, Or.inl ⟨rfl, rfl⟩⟩
  · refine ⟨hs, ?_⟩
    cases r with
    | done => exact absurd rfl hr
    | missing | failed => exact Or.inr ⟨by simp, rfl⟩

theorem safe_deleteBlob (hs : inv s) (herase : inv (s.erase .blobs path)) :
    Machine.Safe ⟨FileOps.exec, code, crash⟩ ok inv (fun _ s' => s' = s.erase .blobs path ∨ s' = s)
      (steps K C (.deleteBlob path)) s := by
  refine safe_file fun r s' _ hx => ?_
  rcases exec_remove hx with ⟨rfl, rfl⟩ | ⟨hr, rfl⟩
  · exact ⟨herase, Or.inl rfl⟩
  · refine ⟨hs, ?_⟩
    cases r with
    | done => exact absurd rfl hr
    | missing | failed => exact Or.inr rfl

/-- What the removal loops need of an invariant: a record may always be deleted, a blob
when no readable record has its key. -/
structure Counted (C : Codec ρ) (L : Layout ρ) (inv : Disk Dir → Prop) : Prop where
  record : ∀ s name, inv s → inv (s.erase .refs name)
  blob : ∀ s path, inv s → (∀ r, Readable C s r → ∀ key ∈ L.keys r, L.path key ≠ .ok path) →
    inv (s.erase .blobs path)

theorem Readable.of_erase {r : ρ} (h : Readable C (s.erase .blobs path) r) : Readable C s r := by
  obtain ⟨n, b, hb, hr⟩ := h
  exact ⟨n, b, hb, hr⟩

/-- Every readable record in a file that is not among the names has only keys in use. -/
def Scanned (C : Codec ρ) (L : Layout ρ) (names used : List String) (s : Disk Dir) : Prop :=
  ∀ n b r, (s .refs).lookup n = some b → C.unmarshal b = .ok r → n ∉ names →
    ∀ key ∈ L.keys r, key ∈ used

theorem scanned_all : Scanned C L ((readDir (s .refs)).map Prod.fst) [] s := by
  intro n b r hb _ hn
  exact absurd (List.mem_map_of_mem (mem_readDir.2 (lookup_mem hb))) hn

theorem safe_scan (hc : Counted C L inv) {digest : String} {names used : List String}
    (hs : inv s) (h : Scanned C L names used s) :
    Machine.Safe ⟨FileOps.exec, code, crash⟩ ok inv
      (fun r s' => inv s' ∧ ∀ used', r = .ok used' → Scanned C L [] used' s')
      ((scan L digest names used).expand (steps K C)) s := by
  induction names generalizing used s with
  | nil =>
    refine ⟨hs, fun used' hr => ?_⟩
    cases hr
    exact h
  | cons name rest ih =>
    refine safe_call (safe_readRecord hs) fun read s' hread => ?_
    obtain ⟨rfl, hread⟩ := hread
    cases read with
    | error e => exact ⟨hs, fun used' hr => nomatch hr⟩
    | ok other => ?_
    obtain ⟨b, hb, hother⟩ := hread other rfl
    dsimp only
    split
    · refine safe_call (safe_deleteRecord hs (hc.record _ _ hs)) fun deleted s' hs' => ?_
      rcases hs' with ⟨rfl, rfl⟩ | ⟨hr, rfl⟩
      · refine ih (hc.record _ _ hs) fun n b' r hb' hr hn => ?_
        rw [erase_same] at hb'
        obtain ⟨hne, hb'⟩ := lookup_keep_eq_some hb'
        exact h n b' r hb' hr (by simp [hn, bne_iff_ne.1 hne])
      · cases deleted with
        | none => exact absurd rfl hr
        | some e => exact ⟨hs, fun used' hr => nomatch hr⟩
    · refine ih hs fun n b' r hb' hr hn key hkey => ?_
      by_cases hname : n = name
      · subst hname
        cases hb.symm.trans hb'
        cases hother.symm.trans hr
        exact List.mem_append_left _ hkey
      · exact List.mem_append_right _ (h n b' r hb' hr (by simp [hn, hname]) key hkey)

theorem safe_sweep (hc : Counted C L inv)
    (hinj : ∀ key key' path, L.path key = .ok path → L.path key' = .ok path → key = key')
    {used keys : List String} (hs : inv s) (h : Scanned C L [] used s) :
    Machine.Safe ⟨FileOps.exec, code, crash⟩ ok inv (fun _ s' => inv s')
      ((sweep L used keys).expand (steps K C)) s := by
  induction keys generalizing s with
  | nil => exact hs
  | cons key rest ih =>
    unfold sweep
    split
    · exact ih hs h
    rename_i hunused
    cases hpath : L.path key with
    | error e => exact hs
    | ok path =>
      have herase : inv (s.erase .blobs path) := by
        refine hc.blob _ _ hs fun r hr key' hkey' hp => ?_
        obtain ⟨n, b, hb, hr⟩ := hr
        have hused := h n b r hb hr List.not_mem_nil key' hkey'
        rw [hinj key' key path hp hpath] at hused
        exact hunused (by simpa using hused)
      refine safe_call (safe_deleteBlob hs herase) fun deleted s' hs' => ?_
      have hnext : inv s' ∧ Scanned C L [] used s' := by
        rcases hs' with rfl | rfl
        · refine ⟨herase, fun n b r hb => ?_⟩
          exact h n b r hb
        · exact ⟨hs, h⟩
      cases deleted with
      | some e => exact hnext.1
      | none => exact ih hnext.1 hnext.2

theorem safe_purge (hc : Counted C L inv)
    (hinj : ∀ key key' path, L.path key = .ok path → L.path key' = .ok path → key = key')
    (hs : inv s) (v : ρ) :
    Machine.Safe ⟨FileOps.exec, code, crash⟩ ok inv (fun _ s' => inv s')
      ((purge L v).expand (steps K C)) s := by
  refine safe_call (safe_listRecords hs) fun listed s' hlisted => ?_
  obtain ⟨rfl, hnames⟩ := hlisted
  cases listed with
  | error e => exact hs
  | ok names =>
    obtain rfl := hnames names rfl
    rw [Program.expand_bind]
    exact Machine.Safe.bind _ (safe_scan hc hs scanned_all) fun
      | .error e, _, hs' => hs'.1
      | .ok used, _, hs' => safe_sweep hc hinj hs'.1 (hs'.2 used rfl)

end

namespace Sample

def reply (s : Disk Dir) : (o : FileOps.Op Dir) → ℕ → o.Reply
  | .createTemp _ pattern, tag => if tag = 0 then .ok (pattern ++ "0") else .error "failed"
  | .write _ _ data, tag => if tag = 0 then (data.length, none) else (0, some "failed")
  | .remove d name, tag =>
      if tag = 0 then if ((s d).lookup name).isSome then .done else .missing else .failed "failed"
  | .readFile d name, tag =>
      match (s d).lookup name with
      | some c => if tag = 0 then .ok c else .error "failed"
      | none => .error "no such file or directory"
  | .readDir d, tag => if tag = 0 then .ok ((readDir (s d)).map Prod.fst) else .error "failed"
  | .mkdirAll _, tag | .chmod _ _, tag | .sync _ _, tag | .close _ _, tag | .rename _ _ _, tag
  | .syncDir _, tag => if tag = 0 then none else some "failed"

def descriptorCode : PrefixCode Descriptor :=
  (PrefixCode.string.pair (PrefixCode.int.pair PrefixCode.string)).map
    (fun x => ⟨x.1, x.2.1, x.2.2⟩) (fun d => (d.digest, d.size, d.mediaType)) fun _ => rfl

theorem isHexDigit_hexChar (n : ℕ) : isHexDigit (Base.Sample.hexChar (n % 16)) = true := by
  have hlt : n % 16 < 16 := Nat.mod_lt _ (by omega)
  have hall : ∀ k < 16, isHexDigit (Base.Sample.hexChar k) = true := by decide
  exact hall _ hlt

theorem hexHash_crypto : HexHash Base.Sample.crypto := by
  intro b
  refine ⟨by simp [Base.Sample.crypto, Base.Sample.hash], fun c hc => ?_⟩
  simp only [Base.Sample.crypto, Base.Sample.hash, String.toList_ofList, List.mem_append,
    List.mem_map] at hc
  rcases hc with ⟨n, _, rfl⟩ | hc
  · exact isHexDigit_hexChar n
  · rw [(List.mem_replicate.1 hc).2]
    decide

end Sample
end Niflhel.Catalog
