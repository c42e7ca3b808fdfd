import Niflhel.Catalog

/-!
# The base store, call by call

The methods of `base.Store` against the calls of `Catalog`; every file operation is a step
of its own, and the store has no lock. Run without interruption they are the functions of
`Base`.
-/

namespace Niflhel.BaseStore
open Concurrent FileOps Fsutil Catalog Directory
open Base (Bundle Signed)

def layout : Layout Bundle :=
  ⟨Bundle.ref, Bundle.digest, fun b => [b.kernelPath, b.rootFSPath], fun path => .ok path⟩

section
variable (K : Base.Crypto) (trust : String → String)

def checkComponents : List (String × Descriptor) → Calls Bundle (Option String)
  | [] => return none
  | (path, d) :: rest => do
    match ← call (.readBlob path) with
    | .error _ => return some ("corrupt base component " ++ d.digest)
    | .ok c =>
      if Base.digest K c ≠ d.digest ∨ (c.length : ℤ) ≠ d.size then
        return some ("corrupt base component " ++ d.digest)
      else checkComponents rest

def get (ref : String) : Calls Bundle (Except String Bundle) := do
  match ← call (.readRecord (Base.record K ref)) with
  | .error e => return .error e
  | .ok b =>
    match Base.verify K trust b.signed with
    | .error e => return .error e
    | .ok _ =>
      match ← checkComponents K [(b.kernelPath, b.signed.config.kernel),
          (b.rootFSPath, b.signed.config.rootFS)] with
      | some e => return .error e
      | none => return .ok b

def writeComponent (path : String) (source : Except String Reader) (d : Descriptor) :
    Calls Bundle (Option String) :=
  match source with
  | .error e => return some e
  | .ok r => call (.writeBlob path r d)

def importBundle (ref : String) (v : Signed) (kernel rootfs : Except String Reader) :
    Calls Bundle (Except String Bundle) :=
  match Base.verify K trust v with
  | .error e => return .error e
  | .ok _ => do
    let b := Base.bundleOf K ref v
    match ← writeComponent b.kernelPath kernel v.config.kernel with
    | some e => return .error e
    | none =>
      match ← writeComponent b.rootFSPath rootfs v.config.rootFS with
      | some e => return .error e
      | none =>
        match ← call (.readBlob b.kernelPath) with
        | .error e => return .error e
        | .ok c =>
          match Base.checkKernel c with
          | .error e => return .error e
          | .ok _ =>
            match (← call (.writeRecord (Base.record K b.digest) b)).2 with
            | some e => return .error e
            | none =>
              match (← call (.writeRecord (Base.record K ref) b)).2 with
              | some e => return .error e
              | none => return .ok b

structure Fetched where
  signed : Signed
  kernel : Except String Reader
  rootfs : Except String Reader

def importFetched (ref : String) : Except String Fetched → Calls Bundle (Except String Bundle)
  | .error e => return .error e
  | .ok x => importBundle K trust ref x.signed x.kernel x.rootfs

def pull (ref policy : String) (fetched : Except String Fetched) :
    Calls Bundle (Except String Bundle) :=
  if policy ≠ "always" then do
    match ← get K trust ref with
    | .ok b => return .ok b
    | .error e =>
      if policy = "never" then return .error e else importFetched K trust ref fetched
  else importFetched K trust ref fetched

def remove (ref : String) : Calls Bundle (Option String) :=
  Catalog.remove layout (get K trust ref)

inductive Job where
  | importBundle (ref : String) (v : Signed) (kernel rootfs : Except String Reader)
  | pull (ref policy : String) (fetched : Except String Fetched)
  | remove (ref : String)

def Job.calls : Job → Calls Bundle Unit
  | .importBundle ref v kernel rootfs => do
    let _ ← BaseStore.importBundle K trust ref v kernel rootfs
  | .pull ref policy fetched => do
    let _ ← BaseStore.pull K trust ref policy fetched
  | .remove ref => do
    let _ ← BaseStore.remove K trust ref

def machine (C : Codec Bundle) : Machine (Disk Dir) (FileOps.Op Dir) FileOps.Op.Reply Job Unit where
  exec := FileOps.exec
  code j := (j.calls K trust).expand (steps K C)
  crash _ s := s

end

section uninterrupted
variable (K : Base.Crypto) (trust : String → String)

def found {α : Type} (files : List (String × α)) (name : String) : Except String α :=
  (files.lookup name).elim (.error "no such file or directory") .ok

/-- The calls on the files of `Base`: `n` writes succeed, and all deletions. -/
def answer : (o : Catalog.Op Bundle) → Base.Files × ℕ → o.Reply × (Base.Files × ℕ)
  | .readRecord name, s => (found s.1.refs name, s)
  | .listRecords, s => (.ok ((readDir s.1.refs).map Prod.fst), s)
  | .readBlob path, s => (found s.1.blobs path, s)
  | .writeRecord name b, (f, n + 1) => ((true, none), ⟨put f.refs name b, f.blobs⟩, n)
  | .writeRecord _ _, (f, 0) => ((false, some Base.ioError), f, 0)
  | .writeBlob path r d, (f, n + 1) =>
    match Base.writeVerified K f.blobs path r.bytes d with
    | .error e => (some e, f, n + 1)
    | .ok blobs => (none, ⟨f.refs, blobs⟩, n)
  | .writeBlob _ _ _, (f, 0) => (some Base.ioError, f, 0)
  | .deleteRecord name, (f, n) => (none, ⟨keep (· != name) f.refs, f.blobs⟩, n)
  | .deleteBlob path, (f, n) => (none, ⟨f.refs, keep (· != path) f.blobs⟩, n)

def uninterrupted {α : Type} (p : Calls Bundle α) (f : Base.Files) (n : ℕ) : Base.Files × α :=
  let out := p.runOn (answer K) (f, n)
  (out.2.1, out.1)

variable {K trust} {f : Base.Files} {n : ℕ} {ref : String} {v : Signed} {kernel rootfs : Bytes}
  {s : Base.Files × ℕ}

theorem runOn_checkComponents {path : String} {d : Descriptor} {rest : List (String × Descriptor)} :
    (checkComponents K ((path, d) :: rest)).runOn (answer K) s =
      if Base.componentOk K s.1 path d then (checkComponents K rest).runOn (answer K) s
      else (some ("corrupt base component " ++ d.digest), s) := by
  rw [checkComponents, Program.runOn_perform_bind]
  rcases Option.eq_none_or_eq_some (s.1.blobs.lookup path) with hnone | ⟨c, hc⟩
  · simp [answer, found, Base.componentOk, hnone]
    rfl
  · simp only [answer, found, Base.componentOk, hc, Option.elim]
    by_cases hok : Base.digest K c = d.digest ∧ (c.length : ℤ) = d.size
    · simp [hok]
    · rw [if_pos (by tauto), if_neg (by simpa using hok)]
      rfl

theorem runOn_get : (get K trust ref).runOn (answer K) s = (Base.get K trust s.1 ref, s) := by
  rw [get, Program.runOn_perform_bind]
  simp only [answer, found, Base.get]
  cases s.1.refs.lookup (Base.record K ref) with
  | none => rfl
  | some b =>
    dsimp only [Option.elim]
    cases Base.verify K trust b.signed with
    | error e => rfl
    | ok u =>
      dsimp only
      rw [Program.runOn_bind, runOn_checkComponents, runOn_checkComponents]
      cases Base.componentOk K s.1 b.kernelPath b.signed.config.kernel with
      | false => rfl
      | true =>
        cases Base.componentOk K s.1 b.rootFSPath b.signed.config.rootFS <;> rfl

theorem uninterrupted_importBundle :
    uninterrupted K (importBundle K trust ref v (.ok ⟨kernel, none⟩) (.ok ⟨rootfs, none⟩)) f n =
      Base.importBundle K trust f ref v kernel rootfs n := by
  unfold importBundle Base.importBundle
  cases Base.verify K trust v with
  | error e => rfl
  | ok u => ?_
  rcases n with _ | n
  · rfl
  dsimp only [uninterrupted]
  rw [if_neg (by omega), writeComponent, Program.runOn_perform_bind]
  simp only [answer]
  cases hkernel : Base.writeVerified K f.blobs (Base.bundleOf K ref v).kernelPath kernel v.config.kernel with
  | error e => rfl
  | ok blobs₁ => ?_
  rcases n with _ | n
  · rfl
  dsimp only
  rw [if_neg (by omega), writeComponent, Program.runOn_perform_bind]
  simp only [answer]
  cases hrootfs : Base.writeVerified K blobs₁ (Base.bundleOf K ref v).rootFSPath rootfs v.config.rootFS with
  | error e => rfl
  | ok blobs₂ => ?_
  obtain ⟨c, hc⟩ : ∃ c, blobs₂.lookup (Base.bundleOf K ref v).kernelPath = some c := by
    rw [(Base.writeVerified_eq_ok hrootfs).2.2, lookup_put, (Base.writeVerified_eq_ok hkernel).2.2,
      lookup_put_self]
    split <;> exact ⟨_, rfl⟩
  dsimp only
  rw [Program.runOn_perform_bind]
  simp only [answer, found, hc, Option.elim, Option.getD]
  cases Base.checkKernel c with
  | error e => rfl
  | ok u => rcases n with _ | _ | n <;> rfl

theorem uninterrupted_pull {policy : String} {fetched : Except String Base.Fetched} :
    uninterrupted K (pull K trust ref policy
        (fetched.map fun x => ⟨x.signed, .ok ⟨x.kernel, none⟩, .ok ⟨x.rootfs, none⟩⟩)) f n =
      Base.pull K trust f ref policy fetched n := by
  have hfetch : uninterrupted K (importFetched K trust ref
      (fetched.map fun x => ⟨x.signed, .ok ⟨x.kernel, none⟩, .ok ⟨x.rootfs, none⟩⟩)) f n =
        Base.pull K trust f ref "always" fetched n := by
    cases fetched with
    | error e => rfl
    | ok x => exact uninterrupted_importBundle
  unfold pull
  by_cases hpolicy : policy ≠ "always"
  · rw [if_pos hpolicy, uninterrupted, Program.runOn_bind, runOn_get]
    unfold Base.pull
    rw [if_pos hpolicy]
    cases Base.get K trust f ref with
    | ok b => rfl
    | error e =>
      dsimp only
      split
      · rfl
      · exact hfetch
  · obtain rfl : policy = "always" := not_not.1 hpolicy
    exact hfetch

theorem keep_cons {α : Type} (x : String) (gone : List String) (l : List (String × α)) :
    keep (fun y => !gone.contains y) (keep (· != x) l) = keep (fun y => !(x :: gone).contains y) l := by
  simp only [keep, List.filter_filter]
  refine List.filter_congr fun y _ => ?_
  by_cases h : y.1 = x <;> simp [h]

def keysOf (d : String) (rs : List (String × Bundle)) : List String :=
  (rs.filter fun r => r.2.digest != d).flatMap fun r => layout.keys r.2

theorem runOn_scan {d : String} {rs : List (String × Bundle)} {used : List String}
    (hnames : (rs.map Prod.fst).Nodup) (hrs : ∀ r ∈ rs, f.refs.lookup r.1 = some r.2) :
    (scan layout d (rs.map Prod.fst) used).runOn (answer K) (f, n) =
      (.ok (keysOf d rs.reverse ++ used), ⟨keep (fun x =>
        !((rs.filter fun r => r.2.digest == d).map Prod.fst).contains x) f.refs, f.blobs⟩, n) := by
  induction rs generalizing f used with
  | nil =>
    simp [keep, keysOf]
    rfl
  | cons r rs ih =>
    obtain ⟨hr, hnames⟩ := List.nodup_cons.1 hnames
    obtain ⟨hlook, hrs⟩ := List.forall_mem_cons.1 hrs
    rw [List.map_cons, scan, Program.runOn_perform_bind]
    simp only [answer, found, hlook, Option.elim]
    by_cases hd : layout.digest r.2 = d
    · have hrest : ∀ x ∈ rs, (keep (· != r.1) f.refs).lookup x.1 = some x.2 := fun x hx => by
        have hne : x.1 ≠ r.1 := fun heq => hr (heq ▸ List.mem_map_of_mem hx)
        rw [lookup_keep _ _ (by simpa using hne), hrs x hx]
      rw [if_pos hd, Program.runOn_perform_bind]
      have hloop := @ih ⟨keep (· != r.1) f.refs, f.blobs⟩ used hnames hrest
      simp only [answer, hloop, keep_cons]
      simp [keysOf, show r.2.digest = d from hd]
    · rw [if_neg hd, ih hnames hrs]
      simp [keysOf, show r.2.digest ≠ d from hd]

theorem runOn_sweep {used keys : List String} : (sweep layout used keys).runOn (answer K) (f, n) =
      (none, ⟨f.refs, keep (fun x => !(keys.filter fun k => !used.contains k).contains x) f.blobs⟩, n) := by
  induction keys generalizing f with
  | nil =>
    simp [keep]
    rfl
  | cons key keys ih =>
    rw [sweep]
    cases hused : used.contains key with
    | true => rw [if_pos rfl, ih, List.filter_cons_of_neg (by simpa using hused)]
    | false =>
      rw [if_neg (by simp), List.filter_cons_of_pos (by simpa using hused)]
      change Program.runOn _ (call (.deleteBlob key) >>= _) _ = _
      rw [Program.runOn_perform_bind]
      simp only [answer, ih, keep_cons]

/-- The records that `Remove` reads are those of the directory, if their names are different. -/
theorem uninterrupted_remove {deletions : ℕ} (hnames : (f.refs.map Prod.fst).Nodup)
    (hall : f.refs.length + 2 ≤ deletions) :
    (uninterrupted K (remove K trust ref) f n).map id (·.elim (.ok ()) .error) =
      Base.remove K trust f ref deletions := by
  unfold uninterrupted remove Catalog.remove Base.remove
  rw [Program.runOn_bind, runOn_get]
  cases Base.get K trust f ref with
  | error e => rfl
  | ok b => ?_
  have hsorted : ((readDir f.refs).map Prod.fst).Nodup :=
    ((List.perm_insertionSort _ f.refs).map Prod.fst).nodup_iff.2 hnames
  have hpaths : (layout.keys b).filter (fun key =>
      !(keysOf b.digest (readDir f.refs).reverse ++ []).contains key) = Base.unusedPaths f b := by
    refine List.filter_congr fun key _ => ?_
    rw [Bool.eq_iff_iff]
    simp only [keysOf, layout, List.append_nil, List.contains_eq_mem]
    simp [mem_readDir]
    refine forall₃_congr fun _ r _ => ?_
    rw [or_iff_not_imp_left, eq_comm (b := r.kernelPath), eq_comm (b := r.rootFSPath)]
  have hgone : ((readDir f.refs).filter fun r => r.2.digest == b.digest).length ≤ f.refs.length :=
    (List.length_filter_le _ _).trans (List.length_insertionSort _ _).le
  have hunused : (Base.unusedPaths f b).length ≤ 2 := List.length_filter_le _ _
  dsimp only
  rw [purge, Program.runOn_perform_bind]
  dsimp only [answer]
  have hscan : Program.runOn _ (scan layout (layout.digest b) _ _) _ = _ :=
    @runOn_scan K f n b.digest (readDir f.refs) [] hsorted
      fun r hr => lookup_of_mem hnames (mem_readDir.1 hr)
  rw [Program.runOn_bind, hscan]
  dsimp only
  rw [runOn_sweep, hpaths, List.take_of_length_le (by simp; omega), List.take_of_length_le (by simp; omega),
    if_pos (by simp; omega)]
  rfl

end uninterrupted

namespace Sample
open PrefixCode (string int)

def configCode : PrefixCode Base.Config :=
  (int.pair (string.pair (string.pair (int.pair (string.pair (string.pair (int.pair
    (string.list.pair (Catalog.Sample.descriptorCode.pair
      Catalog.Sample.descriptorCode))))))))).map
    (fun x => ⟨x.1, x.2.1, x.2.2.1, x.2.2.2.1, x.2.2.2.2.1, x.2.2.2.2.2.1, x.2.2.2.2.2.2.1,
      x.2.2.2.2.2.2.2.1, x.2.2.2.2.2.2.2.2.1, x.2.2.2.2.2.2.2.2.2⟩)
    (fun c => (c.schemaVersion, c.os, c.architecture, c.agentProtocol, c.initPath, c.runtime,
      c.guestReserveMiB, c.firecrackerVersions, c.kernel, c.rootFS))
    fun _ => rfl

def signedCode : PrefixCode Signed :=
  (configCode.pair (string.pair string)).map (fun x => ⟨x.1, x.2.1, x.2.2⟩)
    (fun v => (v.config, v.keyID, v.signature)) fun _ => rfl

def bundleCode : PrefixCode Bundle :=
  (string.pair (string.pair (signedCode.pair (string.pair string)))).map
    (fun x => ⟨x.1, x.2.1, x.2.2.1, x.2.2.2.1, x.2.2.2.2⟩)
    (fun b => (b.ref, b.digest, b.signed, b.kernelPath, b.rootFSPath)) fun _ => rfl

end Sample
end Niflhel.BaseStore
