import Niflhel.Results
import Niflhel.Store

/-!
# Finding the result of a removed sandbox

`findResult` looks at the retained results in the order of their file names and returns the first
one whose ID or name is asked for. So an ID is found unless a result of that name comes first, and
a name finds the last run of that name only if its file comes first.
-/

namespace Niflhel.Results
open GoText

def ambiguous : String := "ambiguous removed container ID"

section
variable (F : Faults) (now : ℤ)

def readable (p : String × File) : Option Result :=
  if hasSuffix p.1 ".json" then
    if F.stat p.1 || !p.2.regular || decide (now - p.2.modTime ≥ resultRetention) then none
    else if F.read p.1 then none else p.2.record
  else none

def settle (found : Option Result) (matched : ℕ) : Except String Result :=
  match found, matched with
  | some v, 1 => .ok v
  | _, n => if n > 1 then .error ambiguous else .error notFound

def findLoop (id : String) : List (String × File) → Option Result → ℕ → Except String Result
  | [], found, matched => settle found matched
  | p :: rest, found, matched =>
    match readable F now p with
    | none => findLoop id rest found matched
    | some v =>
      if v.id == id || v.name == id then .ok v
      else if hasPrefix v.id id then findLoop id rest (some v) (matched + 1)
      else findLoop id rest found matched

def findResult (S : Sorter) (dir : Dir) (id : String) : Except String Result × Dir :=
  if !validName id then (.error notFound, dir)
  else
    let dir := pruneResultsLocked F S now dir
    (findLoop F now id (Directory.readDir dir) none 0, dir)

structure Entry where
  file : String
  at_ : ℤ
  result : Result
  deriving DecidableEq

def entries (files : List (String × File)) : List Entry :=
  files.filterMap fun p => (readable F now p).map fun v => ⟨p.1, p.2.modTime, v⟩

/-- The retained results that have not expired and can be read, in the order of the directory. -/
def retained (dir : Dir) : List Entry := entries F now (Directory.readDir dir)

end

/-- What an answer has to be: the result of that ID; otherwise the last saved one of that name;
otherwise the only one whose ID begins so. -/
structure Located (R : List Entry) (q : String) (answer : Except String Result) : Prop where
  byID : ∀ e ∈ R, e.result.id = q → answer = .ok e.result
  byName : (∀ e ∈ R, e.result.id ≠ q) → (∃ e ∈ R, e.result.name = q) →
    ∃ e ∈ R, e.result.name = q ∧ answer = .ok e.result ∧
      ∀ e' ∈ R, e'.result.name = q → e'.at_ ≤ e.at_
  byPrefix : (∀ e ∈ R, e.result.id ≠ q ∧ e.result.name ≠ q) →
    answer = match R.filter fun e => hasPrefix e.result.id q with
      | [] => .error notFound
      | [e] => .ok e.result
      | _ :: _ :: _ => .error ambiguous

/-- No result named `q` is listed before the one with the ID `q`, and if there is none with that
ID, the first one listed of the name `q` is the last one saved. -/
structure ListedFirst (R : List Entry) (q : String) : Prop where
  byID : ∀ e ∈ R, ∀ e' ∈ R, e.result.id = q → e'.result.name = q → e.file ≤ e'.file
  byName : (∀ e ∈ R, e.result.id ≠ q) → ∀ e ∈ R, e.result.name = q →
    (∀ e' ∈ R, e'.result.name = q → e.file ≤ e'.file) →
    ∀ e' ∈ R, e'.result.name = q → e'.at_ ≤ e.at_

section
variable {F : Faults} {S : Sorter} {now : ℤ} {dir : Dir} {q : String}

def Entry.exact (q : String) (e : Entry) : Bool := e.result.id == q || e.result.name == q

variable {files : List (String × File)}

theorem entries_cons_none {p : String × File}
    (h : readable F now p = none) : entries F now (p :: files) = entries F now files := by
  simp [entries, h]

theorem entries_cons_some {p : String × File} {v : Result} (h : readable F now p = some v) :
    entries F now (p :: files) = ⟨p.1, p.2.modTime, v⟩ :: entries F now files := by
  simp [entries, h]

theorem findLoop_eq (files : List (String × File)) (found : Option Result) (matched : ℕ) :
    findLoop F now q files found matched =
      match (entries F now files).find? (Entry.exact q) with
      | some e => .ok e.result
      | none =>
        let matching := (entries F now files).filter fun e => hasPrefix e.result.id q
        settle ((matching.getLast?.map Entry.result).or found) (matched + matching.length) := by
  induction files generalizing found matched with
  | nil => rfl
  | cons p files ih =>
    rw [findLoop]
    cases hread : readable F now p with
    | none => rw [entries_cons_none hread, ih]
    | some v =>
      rw [entries_cons_some hread]
      by_cases hexact : (v.id == q || v.name == q) = true
      · simp [hexact, Entry.exact]
      · rw [Bool.not_eq_true] at hexact
        simp only [hexact, Bool.false_eq_true, if_false, List.find?_cons, Entry.exact]
        by_cases hpre : hasPrefix v.id q = true
        · rw [if_pos hpre, ih]
          simp only [List.filter_cons, hpre, if_true, List.length_cons]
          rw [List.getLast?_cons, Nat.add_assoc, Nat.add_comm 1]
          cases ((entries F now files).filter fun e => hasPrefix e.result.id q).getLast? <;> rfl
        · rw [if_neg hpre, ih]
          simp only [List.filter_cons, hpre]
          rfl

/-- The answer of the loop in terms of the retained results. -/
theorem findLoop_retained (hfind : (retained F now dir).find? (Entry.exact q) = none) :
    findLoop F now q (Directory.readDir dir) none 0 =
      match (retained F now dir).filter fun e => hasPrefix e.result.id q with
      | [] => .error notFound
      | [e] => .ok e.result
      | _ :: _ :: _ => .error ambiguous := by
  have hfind' : (entries F now (Directory.readDir dir)).find? (Entry.exact q) = none := hfind
  rw [findLoop_eq, hfind', retained]
  cases (entries F now (Directory.readDir dir)).filter fun e => hasPrefix e.result.id q with
  | nil => rfl
  | cons e rest =>
    cases rest with
    | nil => rfl
    | cons e' rest =>
      simp [settle]

variable {e : Entry}

theorem findLoop_exact (hfind : (retained F now dir).find? (Entry.exact q) = some e) :
    findLoop F now q (Directory.readDir dir) none 0 = .ok e.result := by
  have hfind' : (entries F now (Directory.readDir dir)).find? (Entry.exact q) = some e := hfind
  rw [findLoop_eq, hfind']

theorem retained_sorted (hdir : (dir.map Prod.fst).Nodup) :
    (retained F now dir).Pairwise fun a b => a.file < b.file := by
  have hperm := List.perm_insertionSort (fun a b : String × File => a.1 ≤ b.1) dir
  have hle : (Directory.readDir dir).Pairwise fun a b => a.1 ≤ b.1 :=
    List.pairwise_insertionSort (fun a b : String × File => a.1 ≤ b.1) dir
  have hne : (Directory.readDir dir).Pairwise fun a b => a.1 ≠ b.1 :=
    List.pairwise_map.1 ((hperm.map Prod.fst).nodup_iff.2 hdir)
  refine List.pairwise_filterMap.2 ((hle.and hne).imp fun {p p'} h e he e' he' => ?_)
  obtain ⟨v, -, rfl⟩ := Option.map_eq_some_iff.1 he
  obtain ⟨v', -, rfl⟩ := Option.map_eq_some_iff.1 he'
  exact lt_of_le_of_ne h.1 h.2

variable {R : List Entry}

theorem find?_least (hR : R.Pairwise fun a b => a.file < b.file)
    {p : Entry → Bool} (hfind : R.find? p = some e) {e' : Entry} (he' : e' ∈ R)
    (hp : p e' = true) : e.file ≤ e'.file := by
  obtain ⟨-, before, after, rfl, hbefore⟩ := List.find?_eq_some_iff_append.1 hfind
  rcases List.mem_append.1 he' with h | h
  · exact absurd hp (by simpa using hbefore e' h)
  · rcases List.mem_cons.1 h with rfl | h
    · exact le_refl _
    · exact le_of_lt ((List.pairwise_cons.1 (List.pairwise_append.1 hR).2.1).1 e' h)

theorem eq_of_file (hR : R.Pairwise fun a b => a.file < b.file) {e' : Entry}
    (he : e ∈ R) (he' : e' ∈ R) (h : e.file = e'.file) : e = e' := by
  have hnodup : (R.map Entry.file).Nodup := List.pairwise_map.2 (hR.imp fun h => ne_of_lt h)
  exact List.inj_on_of_nodup_map hnodup he he' h

theorem eq_of_result (hids : (R.map fun e => e.result.id).Nodup) {e' : Entry}
    (he : e ∈ R) (he' : e' ∈ R) (h : (.ok e.result : Except String Result) = .ok e'.result) :
    e = e' :=
  List.inj_on_of_nodup_map hids he he' (congrArg Result.id (Except.ok.inj h))

theorem exact_of_id (h : e.result.id = q) : e.exact q = true := by simp [Entry.exact, h]

theorem exact_of_name (h : e.result.name = q) : e.exact q = true := by
  simp [Entry.exact, h]

theorem id_or_name (h : e.exact q = true) : e.result.id = q ∨ e.result.name = q := by
  simpa [Entry.exact] using h

theorem exists_first (he : e ∈ R) (h : e.exact q = true) :
    ∃ first, R.find? (Entry.exact q) = some first ∧ first ∈ R ∧
      (first.result.id = q ∨ first.result.name = q) := by
  cases hfind : R.find? (Entry.exact q) with
  | some first =>
    exact ⟨first, rfl, List.mem_of_find?_eq_some hfind, id_or_name (List.find?_some hfind)⟩
  | none => exact absurd h (List.find?_eq_none.1 hfind e he)

theorem located_of_listedFirst (hdir : (dir.map Prod.fst).Nodup)
    (hids : ((retained F now dir).map fun e => e.result.id).Nodup)
    (h : ListedFirst (retained F now dir) q) :
    Located (retained F now dir) q (findLoop F now q (Directory.readDir dir) none 0) := by
  have hR := @retained_sorted F now dir hdir
  constructor
  · intro e he hid
    obtain ⟨first, hfirst, hmem, hexact⟩ := exists_first he (exact_of_id hid)
    have hsame : first = e := by
      rcases hexact with hid' | hname
      · exact List.inj_on_of_nodup_map hids hmem he (hid'.trans hid.symm)
      · have hle := h.byID e he first hmem hid hname
        exact eq_of_file hR hmem he (le_antisymm (find?_least hR hfirst he (exact_of_id hid)) hle)
    rw [findLoop_exact hfirst, hsame]
  · rintro hnone ⟨e, he, hname⟩
    obtain ⟨first, hfirst, hmem, hexact⟩ := exists_first he (exact_of_name hname)
    have hname' := hexact.resolve_left (hnone first hmem)
    refine ⟨first, hmem, hname', findLoop_exact hfirst, h.byName hnone first hmem hname' ?_⟩
    exact fun e' he' hq => find?_least hR hfirst he' (exact_of_name hq)
  · intro hnone
    refine findLoop_retained (List.find?_eq_none.2 fun e he hexact => ?_)
    rcases id_or_name hexact with hid | hname
    · exact (hnone e he).1 hid
    · exact (hnone e he).2 hname

theorem listedFirst_of_located (hdir : (dir.map Prod.fst).Nodup)
    (hids : ((retained F now dir).map fun e => e.result.id).Nodup)
    (h : Located (retained F now dir) q (findLoop F now q (Directory.readDir dir) none 0)) :
    ListedFirst (retained F now dir) q := by
  have hR := @retained_sorted F now dir hdir
  constructor
  · intro e he e' he' hid hname
    obtain ⟨first, hfirst, hmem, -⟩ := exists_first he (exact_of_id hid)
    have hanswer := (findLoop_exact hfirst).symm.trans (h.byID e he hid)
    obtain rfl := eq_of_result hids hmem he hanswer
    exact find?_least hR hfirst he' (exact_of_name hname)
  · intro hnone e he hname hleast
    obtain ⟨first, hfirst, hmem, hexact⟩ := exists_first he (exact_of_name hname)
    have hname' := hexact.resolve_left (hnone first hmem)
    have hsame : first = e := eq_of_file hR hmem he
      (le_antisymm (find?_least hR hfirst he (exact_of_name hname)) (hleast first hmem hname'))
    obtain ⟨last, hlast, -, hanswer, hnewest⟩ := h.byName hnone ⟨e, he, hname⟩
    have hfound := (findLoop_exact hfirst).symm.trans hanswer
    obtain rfl := eq_of_result hids hmem hlast hfound
    exact hsame ▸ hnewest

theorem removeFile_sublist (dir : Dir) (name : String) : (removeFile F dir name).Sublist dir := by
  unfold removeFile
  split
  · exact List.Sublist.refl dir
  · exact List.filter_sublist

theorem pruneLoop_sublist (total : ℤ) (l : List Saved) (dir : Dir) :
    (pruneLoop F now total l dir).Sublist dir := by
  induction l generalizing total dir with
  | nil => exact List.Sublist.refl dir
  | cons v rest ih =>
    rw [pruneLoop]
    split
    · exact List.Sublist.refl dir
    · refine (ih _ _).trans ?_
      exact (removeFile_sublist _ _).trans
        ((removeFile_sublist _ _).trans (removeFile_sublist _ _))

structure WithinBounds (F : Faults) (dir : Dir) : Prop where
  few : (listing F dir).length ≤ 128
  small : ((listing F dir).map fun v => bytes F dir v.id).sum ≤ 256 * 2 ^ 20

/-- Of a directory within the bounds the pruning deletes expired results alone. -/
theorem pruned_expired (S : Sorter) (hdir : (dir.map Prod.fst).Nodup) (hbounds : WithinBounds F dir) :
    ∃ gone : List Saved, pruneResultsLocked F S now dir = gone.foldl (removeResult F) dir ∧
      ∀ v ∈ gone, v ∈ listing F dir ∧ resultRetention ≤ now - v.at_ := by
  have hsmall := hbounds.small
  obtain ⟨gone, kept, hsplit, hpruned, -, hlongest⟩ := @pruned_foldl F now dir S hdir (by omega)
  have hperm := S.perm (listing F dir)
  have hsorted := S.sorted (listing F dir)
  rw [hsplit] at hperm hsorted hlongest
  refine ⟨gone, hpruned, fun v hv => ⟨hperm.mem_iff.1 (List.mem_append_left kept hv), ?_⟩⟩
  by_contra hyoung
  obtain ⟨before, after, rfl⟩ := List.append_of_mem hv
  -- The results from `v` on are younger still, so they could all have been kept.
  have hlater : ∀ w ∈ after ++ kept, v.at_ ≤ w.at_ := by
    rw [List.append_assoc, List.cons_append] at hsorted
    exact (List.pairwise_cons.1 (List.pairwise_append.1 hsorted).2.1).1
  have hsuffix : v :: (after ++ kept) <:+ before ++ v :: after ++ kept := by
    rw [List.append_assoc, List.cons_append]
    exact List.suffix_append _ _
  have hsub := hsuffix.sublist
  have hadm : Admissible F dir now (v :: (after ++ kept)) := by
    refine ⟨fun w hw => ?_, ?_, ?_⟩
    · rcases List.mem_cons.1 hw with rfl | hw
      · omega
      · have := hlater w hw
        omega
    · have hle := (hsub.map fun v => bytes F dir v.id).sum_le_sum fun n _ => Nat.zero_le n
      rw [(hperm.map fun v => bytes F dir v.id).sum_eq] at hle
      omega
    · exact (hsub.length_le.trans_eq hperm.length_eq).trans hbounds.few
  have := hlongest _ hsuffix hadm
  simp only [List.length_cons, List.length_append] at this
  omega

theorem mem_removeFile {p : String × File} {name : String} (hp : p ∈ dir) (hname : p.1 ≠ name) :
    p ∈ removeFile F dir name := by
  unfold removeFile
  split
  · exact hp
  · exact List.mem_filter.2 ⟨hp, by simpa using hname⟩

theorem mem_foldl_removeResult {p : String × File} {gone : List Saved} (hp : p ∈ dir)
    (hgone : p.1 ∉ filesOf gone) : p ∈ gone.foldl (removeResult F) dir := by
  induction gone generalizing dir with
  | nil => exact hp
  | cons v gone ih =>
    have hfiles : filesOf (v :: gone) = exts.map (fun ext => v.id ++ ext) ++ filesOf gone := rfl
    rw [hfiles, List.mem_append, not_or] at hgone
    simp only [exts, List.map_cons, List.map_nil, List.mem_cons, List.not_mem_nil, or_false,
      not_or] at hgone
    obtain ⟨⟨hjson, hlog, hold⟩, hgone⟩ := hgone
    exact ih (mem_removeFile (mem_removeFile (mem_removeFile hp hjson) hlog) hold) hgone

theorem filterMap_eq_of_sublist {α β : Type} {f : α → Option β} {l l' : List α} (hl : l.Nodup)
    (hsub : l'.Sublist l) (hnone : ∀ a ∈ l, a ∉ l' → f a = none) :
    l'.filterMap f = l.filterMap f := by
  induction hsub with
  | slnil => rfl
  | @cons l' l a hsub ih =>
    obtain ⟨ha, hl⟩ := List.nodup_cons.1 hl
    have hdropped := hnone a List.mem_cons_self fun hmem => ha (hsub.subset hmem)
    rw [List.filterMap_cons_none hdropped]
    exact ih hl fun b hb => hnone b (List.mem_cons_of_mem a hb)
  | @cons_cons l' l a hsub ih =>
    obtain ⟨ha, hl⟩ := List.nodup_cons.1 hl
    have hrest := ih hl fun b hb hb' => hnone b (List.mem_cons_of_mem a hb) fun hmem => by
      rcases List.mem_cons.1 hmem with rfl | hmem
      · exact ha hb
      · exact hb' hmem
    rw [List.filterMap_cons, List.filterMap_cons, hrest]

/-- Files without a readable result do not matter. -/
theorem retained_of_sublist {dir' : Dir} (hdir : (dir.map Prod.fst).Nodup) (hsub : dir'.Sublist dir)
    (hnone : ∀ p ∈ dir, p ∉ dir' → readable F now p = none) :
    retained F now dir' = retained F now dir := by
  have hsorted := @retained_sorted F now dir hdir
  have hsorted' := @retained_sorted F now dir' (hdir.sublist (hsub.map Prod.fst))
  have hperm : ∀ files : Dir, (retained F now files).Perm (entries F now files) := fun files =>
    (List.perm_insertionSort _ files).filterMap _
  have hsame : entries F now dir' = entries F now dir :=
    filterMap_eq_of_sublist hdir.of_map hsub fun p hp hgone => by simp [hnone p hp hgone]
  refine List.Perm.eq_of_pairwise (fun a b _ _ hab hba => absurd hab (lt_asymm hba)) hsorted' hsorted ?_
  exact (hperm dir').trans (hsame ▸ (hperm dir).symm)

theorem pruned_sublist (S : Sorter) : (pruneResultsLocked F S now dir).Sublist dir :=
  pruneLoop_sublist _ _ dir

/-- Within the bounds the pruning keeps every result that has not expired. -/
theorem retained_pruned (S : Sorter) (hdir : (dir.map Prod.fst).Nodup)
    (hbounds : WithinBounds F dir) :
    retained F now (pruneResultsLocked F S now dir) = retained F now dir := by
  refine retained_of_sublist hdir (pruned_sublist S) fun p hp hdropped => ?_
  obtain ⟨gone, hpruned, hexpired⟩ := @pruned_expired F now dir S hdir hbounds
  by_cases hjson : hasSuffix p.1 ".json" = true
  · obtain ⟨id, hid⟩ := hasSuffix_iff.1 hjson
    have hmem : p.1 ∈ filesOf gone := by
      by_contra hkept
      exact hdropped (hpruned ▸ mem_foldl_removeResult hp hkept)
    rw [hid] at hmem
    obtain ⟨v, hv, rfl⟩ := List.mem_map.1 ((mem_filesOf (by decide)).1 hmem)
    obtain ⟨hlisted, hold⟩ := hexpired v hv
    obtain ⟨file, hfile, -, hat, -⟩ := mem_listing hlisted
    have hsame : p = (v.id ++ ".json", file) := List.inj_on_of_nodup_map hdir hp hfile hid
    subst hsame
    rw [hat] at hold
    simp [readable, hold]
  · simp [readable, hjson]

theorem readable_eq_some {p : String × File} {v : Result} (h : readable F now p = some v) :
    p.2.record = some v ∧ now - p.2.modTime < resultRetention := by
  unfold readable at h
  split at h
  · split at h
    · cases h
    · rename_i hskip
      split at h
      · cases h
      · simp only [Bool.or_eq_true, decide_eq_true_eq, not_or] at hskip
        exact ⟨h, by omega⟩
  · cases h

theorem settle_eq_ok {found : Option Result} {matched : ℕ} {r : Result}
    (h : settle found matched = .ok r) : found = some r := by
  unfold settle at h
  split at h
  · exact congrArg some (Except.ok.inj h)
  · split_ifs at h

/-- An answer is the record of a file that has not expired, whether or not files are deleted. -/
theorem findLoop_unexpired {found : Option Result} {matched : ℕ}
    {r : Result} (hfound : ∀ v ∈ found, ∃ p ∈ dir, p.2.record = some v ∧
      now - p.2.modTime < resultRetention) (hfiles : files ⊆ dir)
    (h : findLoop F now q files found matched = .ok r) :
    ∃ p ∈ dir, p.2.record = some r ∧ now - p.2.modTime < resultRetention := by
  induction files generalizing found matched with
  | nil =>
    exact hfound r (settle_eq_ok h)
  | cons p files ih =>
    have hrest : files ⊆ dir := fun x hx => hfiles (List.mem_cons_of_mem p hx)
    rw [findLoop] at h
    cases hread : readable F now p with
    | none =>
      rw [hread] at h
      exact ih hfound hrest h
    | some v =>
      have hv : ∃ p ∈ dir, p.2.record = some v ∧ now - p.2.modTime < resultRetention :=
        ⟨p, hfiles (List.mem_cons_self ..), readable_eq_some hread⟩
      rw [hread] at h
      dsimp only at h
      split at h
      · cases h
        exact hv
      · split at h
        · exact ih (fun w hw => Option.some.inj hw ▸ hv) hrest h
        · exact ih hfound hrest h

/-- In a directory within the bounds, a query is answered rightly exactly if the right one of its
unexpired results is listed first, and an expired one is never returned, whatever calls fail. -/
theorem located_iff_listedFirst (S : Sorter) (hdir : (dir.map Prod.fst).Nodup)
    (hbounds : WithinBounds F dir)
    (hids : ((retained F now dir).map fun e => e.result.id).Nodup) (hq : validName q = true) :
    (Located (retained F now dir) q (findResult F now S dir q).1 ∧
        ∀ r, (findResult F now S dir q).1 = .ok r →
          ∃ p ∈ dir, p.2.record = some r ∧ now - p.2.modTime < resultRetention) ↔
      ListedFirst (retained F now dir) q := by
  have hanswer : (findResult F now S dir q).1 = findLoop F now q
      (Directory.readDir (pruneResultsLocked F S now dir)) none 0 := by
    simp [findResult, hq]
  have hpruned : ((pruneResultsLocked F S now dir).map Prod.fst).Nodup :=
    hdir.sublist ((pruned_sublist S).map Prod.fst)
  rw [hanswer]
  rw [← retained_pruned S hdir hbounds] at hids ⊢
  constructor
  · rintro ⟨h, -⟩
    exact listedFirst_of_located hpruned hids h
  · refine fun h => ⟨located_of_listedFirst hpruned hids h, fun r hr => ?_⟩
    refine @findLoop_unexpired F now dir q _ none 0 r nofun (fun p hp => ?_) hr
    exact (pruned_sublist S).subset (Directory.mem_readDir.1 hp)

end

/-- Two runs of one name, and an older result that has expired at time 30. -/
def rerunDir : Dir :=
  [sampleRecord "00000000000000000000000000000001" "job" 10,
   sampleRecord "00000000000000000000000000000002" "job" 20,
   sampleRecord "00000000000000000000000000000003" "old" (30 - resultRetention)]

theorem located_iff_listedFirst_sample :
    validName "00000000000000000000000000000002" = true ∧ WithinBounds noFaults rerunDir ∧
      (retained noFaults 30 rerunDir).length = 2 ∧
      ListedFirst (retained noFaults 30 rerunDir) "00000000000000000000000000000002" ∧
      Located (retained noFaults 30 rerunDir) "00000000000000000000000000000002"
        (findResult noFaults 30 byTime rerunDir "00000000000000000000000000000002").1 := by
  have hlisted : ListedFirst (retained noFaults 30 rerunDir) "00000000000000000000000000000002" :=
    ⟨by decide +kernel, by decide +kernel⟩
  have hbounds : WithinBounds noFaults rerunDir := ⟨by decide +kernel, by decide +kernel⟩
  exact ⟨by decide, hbounds, by decide +kernel, hlisted, ((@located_iff_listedFirst noFaults 30
    rerunDir _ byTime (by decide) hbounds (by decide +kernel) (by decide)).2 hlisted).1⟩

/-- The name of both runs finds the first one. -/
theorem rerun_finds_first : (findResult noFaults 30 byTime rerunDir "job").1 =
        .ok (sampleResult "00000000000000000000000000000001" "job") ∧
      ¬ Located (retained noFaults 30 rerunDir) "job"
        (findResult noFaults 30 byTime rerunDir "job").1 := by
  have hfirst : (findResult noFaults 30 byTime rerunDir "job").1 =
      .ok (sampleResult "00000000000000000000000000000001" "job") := by decide +kernel
  refine ⟨hfirst, fun h => ?_⟩
  have hlast : ∃ e ∈ retained noFaults 30 rerunDir, e.result.name = "job" ∧ e.at_ = 20 := by
    decide +kernel
  have hearly : ∀ e ∈ retained noFaults 30 rerunDir,
      e.result = sampleResult "00000000000000000000000000000001" "job" → e.at_ = 10 := by
    decide +kernel
  obtain ⟨second, hmem, hname, hat⟩ := hlast
  obtain ⟨e, he, -, hanswer, hnewest⟩ := h.byName (by decide +kernel) ⟨second, hmem, hname⟩
  have hten := hearly e he (Except.ok.inj (hanswer.symm.trans hfirst))
  have := hnewest second hmem hname
  omega

end Niflhel.Results
