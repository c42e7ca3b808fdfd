import Mathlib.Algebra.BigOperators.Group.List.Basic
import Mathlib.Algebra.Order.BigOperators.Group.List
import Niflhel.Api
import Niflhel.Directory

/-!
# Results of removed sandboxes

When a sandbox is removed automatically, `saveResult` of `internal/daemon/results.go` keeps its
exit status and its logs in one directory: `ID.json`, `ID.log` and `ID.log.1`. `findResult` looks
a result up, and `pruneResultsLocked` deletes the oldest ones. Times are in nanoseconds.
A directory that does not exist has no files.
-/

namespace Niflhel.Results
open GoText

structure Result where
  exit : Exit
  id : String
  name : String
  deriving DecidableEq, Repr

structure File where
  regular : Bool
  modTime : ℤ
  size : ℕ
  /-- What `ReadJSON` decodes from it. -/
  record : Option Result
  deriving DecidableEq

abbrev Dir := List (String × File)

structure Faults where
  stat : String → Bool
  remove : String → Bool
  read : String → Bool

def noFaults : Faults := ⟨fun _ => false, fun _ => false, fun _ => false⟩

def resultRetention : ℤ := 24 * 60 * 60 * 10 ^ 9

structure Saved where
  id : String
  at_ : ℤ
  size : ℤ
  deriving DecidableEq, Repr

/-- A function `sort.Slice` may be for the order by time, which is not a stable one. -/
structure Sorter where
  sort : List Saved → List Saved
  perm : ∀ l, (sort l).Perm l
  sorted : ∀ l, (sort l).Pairwise fun v w => v.at_ ≤ w.at_

def byTime : Sorter where
  sort l := l.insertionSort fun v w => v.at_ ≤ w.at_
  perm l := List.perm_insertionSort _ l
  sorted l := List.pairwise_insertionSort (fun v w : Saved => v.at_ ≤ w.at_) l

def exts : List String := [".json", ".log", ".log.1"]

def logExts : List String := [".log", ".log.1"]

section
variable (F : Faults)

def statFile (dir : Dir) (name : String) : Option File :=
  if F.stat name then none else dir.lookup name

def removeFile (dir : Dir) (name : String) : Dir :=
  if F.remove name then dir else Directory.keep (fun n => n != name) dir

def savedSize (dir : Dir) (id : String) (size : ℤ) : ℤ :=
  logExts.foldl (fun n ext =>
    match statFile F dir (id ++ ext) with
    | some st => wrap64 (n + st.size)
    | none => n) size

def saved (dir : Dir) (p : String × File) : Option Saved :=
  if hasSuffix p.1 ".json" && !F.stat p.1 then
    let id := trimSuffix p.1 ".json"
    some ⟨id, p.2.modTime, savedSize F dir id p.2.size⟩
  else none

def listing (dir : Dir) : List Saved := (Directory.readDir dir).filterMap (saved F dir)

def removeResult (dir : Dir) (v : Saved) : Dir :=
  exts.foldl (fun dir ext => removeFile F dir (v.id ++ ext)) dir

/-- The loop over the sorted slice: the rest of it has `len(all)-i` results. -/
def pruneLoop (now : ℤ) : ℤ → List Saved → Dir → Dir
  | _, [], dir => dir
  | total, v :: rest, dir =>
    if now - v.at_ < resultRetention ∧ total ≤ 256 * 2 ^ 20 ∧ (v :: rest).length ≤ 128 then dir
    else pruneLoop now (wrap64 (total - v.size)) rest (removeResult F dir v)

def pruneResultsLocked (S : Sorter) (now : ℤ) (dir : Dir) : Dir :=
  let all := listing F dir
  let total := all.foldl (fun total v => wrap64 (total + v.size)) 0
  pruneLoop F now total (S.sort all) dir

def bytes (dir : Dir) (id : String) : ℕ :=
  (exts.map fun ext => ((statFile F dir (id ++ ext)).map File.size).getD 0).sum

/-- Results that may be kept: young, small and few enough. -/
structure Admissible (dir : Dir) (now : ℤ) (kept : List Saved) : Prop where
  young : ∀ v ∈ kept, now - v.at_ < resultRetention
  small : (kept.map fun v => bytes F dir v.id).sum ≤ 256 * 2 ^ 20
  few : kept.length ≤ 128

def filesOf (l : List Saved) : List String := l.flatMap fun v => exts.map fun ext => v.id ++ ext

end

section
variable {F : Faults} {S : Sorter} {now : ℤ} {dir : Dir}

/-- The name of a file tells its result and its kind: the extensions end in different letters. -/
theorem ext_append_inj {a b x y : String} (hx : x ∈ exts) (hy : y ∈ exts)
    (h : a ++ x = b ++ y) : a = b ∧ x = y := by
  have hl : a.toList ++ x.toList = b.toList ++ y.toList := by
    rw [← String.toList_append, h, String.toList_append]
  have hlast := congrArg List.getLast? hl
  have hsame : x = y := by
    simp only [exts, List.mem_cons, List.not_mem_nil, or_false] at hx hy
    rcases hx with rfl | rfl | rfl <;> rcases hy with rfl | rfl | rfl <;>
      first | rfl | simp [List.getLast?_append] at hlast
  subst hsame
  exact ⟨String.toList_inj.1 (List.append_cancel_right hl), rfl⟩

theorem mem_filesOf {l : List Saved} {id ext : String} (hext : ext ∈ exts) :
    id ++ ext ∈ filesOf l ↔ id ∈ l.map Saved.id := by
  simp only [filesOf, List.mem_flatMap, List.mem_map]
  constructor
  · rintro ⟨v, hv, x, hx, hname⟩
    exact ⟨v, hv, (ext_append_inj hx hext hname).1⟩
  · rintro ⟨v, hv, rfl⟩
    exact ⟨v, hv, ext, hext, rfl⟩

theorem listing_perm (F : Faults) (dir : Dir) :
    (listing F dir).Perm (dir.filterMap (saved F dir)) :=
  (List.perm_insertionSort _ dir).filterMap _

theorem saved_eq_some {p : String × File} {v : Saved} (h : saved F dir p = some v) :
    p.1 = v.id ++ ".json" ∧ F.stat p.1 = false ∧ v.at_ = p.2.modTime ∧
      v.size = savedSize F dir v.id p.2.size := by
  unfold saved at h
  split at h
  · rename_i hp
    rw [Bool.and_eq_true, Bool.not_eq_true'] at hp
    obtain ⟨id, hid⟩ := hasSuffix_iff.1 hp.1
    cases h
    refine ⟨?_, hp.2, rfl, rfl⟩
    rw [hid, trimSuffix_append]
  · cases h

theorem mem_listing {v : Saved} (h : v ∈ listing F dir) :
    ∃ file, (v.id ++ ".json", file) ∈ dir ∧ F.stat (v.id ++ ".json") = false ∧
      v.at_ = file.modTime ∧ v.size = savedSize F dir v.id file.size := by
  obtain ⟨⟨name, file⟩, hmem, hsaved⟩ := List.mem_filterMap.1 ((listing_perm F dir).mem_iff.1 h)
  obtain ⟨rfl, hstat, hat, hsize⟩ := saved_eq_some hsaved
  exact ⟨file, hmem, hstat, hat, hsize⟩

theorem listing_ids_nodup (hdir : (dir.map Prod.fst).Nodup) :
    ((listing F dir).map Saved.id).Nodup := by
  refine ((listing_perm F dir).map Saved.id).nodup_iff.2 ?_
  refine List.pairwise_map.2 (List.pairwise_filterMap.2 ?_)
  refine (List.pairwise_map.1 hdir).imp fun {p q} hpq v hv w hw hid => hpq ?_
  rw [(saved_eq_some hv).1, (saved_eq_some hw).1, hid]

def extBytes (F : Faults) (dir : Dir) (id ext : String) : ℕ :=
  ((statFile F dir (id ++ ext)).map File.size).getD 0

theorem bytes_eq (F : Faults) (dir : Dir) (id : String) :
    bytes F dir id = extBytes F dir id ".json" + (extBytes F dir id ".log" +
      extBytes F dir id ".log.1") := rfl

theorem add_stat (id ext : String) (n : ℤ) (hn : 0 ≤ n) (hlt : n + extBytes F dir id ext < 2 ^ 63) :
    (match statFile F dir (id ++ ext) with
      | some st => wrap64 (n + st.size)
      | none => n) = n + extBytes F dir id ext := by
  unfold extBytes at hlt ⊢
  cases hst : statFile F dir (id ++ ext) with
  | none => simp
  | some st =>
    simp only [hst, Option.map_some, Option.getD_some] at hlt ⊢
    exact wrap64_of_lt (by omega) hlt

/-- Without overflow the size of a saved result is the one of its files. -/
theorem size_eq_bytes (hdir : (dir.map Prod.fst).Nodup) {v : Saved} (hv : v ∈ listing F dir)
    (hlt : bytes F dir v.id < 2 ^ 63) : v.size = bytes F dir v.id := by
  obtain ⟨file, hmem, hstat, -, hsize⟩ := mem_listing hv
  have hjson : extBytes F dir v.id ".json" = file.size := by
    simp [extBytes, statFile, hstat, Directory.lookup_of_mem hdir hmem]
  rw [bytes_eq, hjson] at hlt ⊢
  rw [hsize, savedSize]
  simp only [logExts, List.foldl_cons, List.foldl_nil]
  rw [add_stat v.id ".log" (file.size : ℤ) (by omega) (by omega),
    add_stat v.id ".log.1" _ (by omega) (by omega)]
  omega

theorem foldl_total {l : List Saved} {f : Saved → ℕ} (hsize : ∀ v ∈ l, v.size = f v) {total : ℤ}
    (h0 : 0 ≤ total) (hlt : total + (l.map f).sum < 2 ^ 63) :
    l.foldl (fun total v => wrap64 (total + v.size)) total = total + (l.map f).sum := by
  induction l generalizing total with
  | nil => simp
  | cons v l ih =>
    simp only [List.map_cons, List.sum_cons] at hlt ⊢
    have hv := hsize v (List.mem_cons_self ..)
    rw [List.foldl_cons, hv, wrap64_of_lt (by omega) (by omega),
      ih (fun w hw => hsize w (List.mem_cons_of_mem _ hw)) (by omega) (by omega)]
    omega

/-- The loop deletes until the rest is admissible: it looks at the age of the first result only,
and the rest is younger. -/
theorem pruneLoop_suffix {dir₀ : Dir} {l : List Saved}
    (hsorted : l.Pairwise fun v w => v.at_ ≤ w.at_)
    (hsize : ∀ v ∈ l, v.size = bytes F dir₀ v.id)
    (hlt : (l.map fun v => bytes F dir₀ v.id).sum < 2 ^ 63) {total : ℤ}
    (htotal : total = (l.map fun v => bytes F dir₀ v.id).sum) (dir : Dir) :
    ∃ gone kept, l = gone ++ kept ∧
      pruneLoop F now total l dir = gone.foldl (removeResult F) dir ∧
      Admissible F dir₀ now kept ∧
      ∀ longer, longer <:+ l → Admissible F dir₀ now longer → longer.length ≤ kept.length := by
  induction l generalizing total dir with
  | nil =>
    refine ⟨[], [], rfl, rfl, ⟨nofun, by simp, by simp⟩, fun longer hsuffix _ => ?_⟩
    rw [List.eq_nil_of_suffix_nil hsuffix]
  | cons v rest ih =>
    obtain ⟨hfirst, hrest⟩ := List.pairwise_cons.1 hsorted
    have hv := hsize v (List.mem_cons_self ..)
    have htail := fun w hw => hsize w (List.mem_cons_of_mem v hw)
    have hsum : ((v :: rest).map fun v => bytes F dir₀ v.id).sum =
        bytes F dir₀ v.id + (rest.map fun v => bytes F dir₀ v.id).sum := by simp
    rw [pruneLoop]
    split
    · rename_i hstop
      refine ⟨[], v :: rest, rfl, rfl, ⟨fun w hw => ?_, ?_, hstop.2.2⟩, fun longer hsuffix _ =>
        hsuffix.length_le⟩
      · rcases List.mem_cons.1 hw with rfl | hw
        · exact hstop.1
        · have := hfirst w hw
          omega
      · rw [hsum]
        omega
    · rename_i hgo
      have hnext : wrap64 (total - v.size) = (rest.map fun v => bytes F dir₀ v.id).sum := by
        rw [wrap64_of_lt] <;> omega
      obtain ⟨gone, kept, rfl, hloop, hkept, hlongest⟩ :=
        ih hrest htail (by omega) hnext (removeResult F dir v)
      refine ⟨v :: gone, kept, rfl, hloop, hkept, fun longer hsuffix hadm => ?_⟩
      rcases List.suffix_cons_iff.1 hsuffix with rfl | hin
      · -- The whole slice was refused, so it is not admissible.
        refine absurd ⟨hadm.young v (List.mem_cons_self ..), ?_, hadm.few⟩ hgo
        have := hadm.small
        omega
      · exact hlongest longer hin hadm

theorem removeResult_eq (hremove : ∀ name, F.remove name = false) (v : Saved) (dir : Dir) :
    removeResult F dir v = Directory.keep (fun n => decide (n ∉ filesOf [v])) dir := by
  simp only [removeResult, exts, List.foldl_cons, List.foldl_nil, removeFile, hremove,
    Bool.false_eq_true, if_false, Directory.keep, List.filter_filter]
  refine List.filter_congr fun f _ => ?_
  simp only [filesOf, exts, List.flatMap_cons, List.flatMap_nil, List.map_cons, List.map_nil,
    List.append_nil, List.mem_cons, List.not_mem_nil, or_false, not_or]
  rw [Bool.eq_iff_iff]
  simp only [Bool.and_eq_true, bne_iff_ne, decide_eq_true_eq]
  tauto

theorem foldl_removeResult (hremove : ∀ name, F.remove name = false) (gone : List Saved)
    (dir : Dir) : gone.foldl (removeResult F) dir =
      Directory.keep (fun n => decide (n ∉ filesOf gone)) dir := by
  induction gone generalizing dir with
  | nil => simp [Directory.keep, filesOf]
  | cons v gone ih =>
    have hfiles : filesOf (v :: gone) = filesOf [v] ++ filesOf gone := by simp [filesOf]
    rw [List.foldl_cons, ih, removeResult_eq hremove, hfiles]
    simp only [Directory.keep, List.filter_filter]
    refine List.filter_congr fun f _ => ?_
    rw [← Bool.decide_and]
    simp only [List.mem_append, not_or, and_comm]

theorem statFile_keep {gone : List Saved} {id ext : String} (hext : ext ∈ exts)
    (hid : id ∉ gone.map Saved.id) :
    statFile F (Directory.keep (fun n => decide (n ∉ filesOf gone)) dir) (id ++ ext) =
      statFile F dir (id ++ ext) := by
  have hname : id ++ ext ∉ filesOf gone := fun h => hid ((mem_filesOf hext).1 h)
  unfold statFile
  rw [Directory.lookup_keep _ dir (by simpa using hname)]

theorem saved_keep (gone : List Saved) (p : String × File) :
    (saved F dir p).filter (fun v => decide (v.id ∉ gone.map Saved.id)) =
      if decide (p.1 ∉ filesOf gone) then
        saved F (Directory.keep (fun n => decide (n ∉ filesOf gone)) dir) p
      else none := by
  unfold saved
  split
  · rename_i hp
    rw [Bool.and_eq_true] at hp
    obtain ⟨id, hid⟩ := hasSuffix_iff.1 hp.1
    have hmem : p.1 ∈ filesOf gone ↔ id ∈ gone.map Saved.id := by
      rw [hid]
      exact mem_filesOf (by decide)
    rw [hid, trimSuffix_append]
    by_cases hgone : id ∈ gone.map Saved.id
    · rw [← hid, if_neg (by simpa using hmem.2 hgone), Option.filter_some,
        if_neg (by simpa only [decide_not, Bool.not_eq_true', decide_eq_false_iff_not, not_not])]
    · have hlog := @statFile_keep F dir gone id ".log" (by decide) hgone
      have hold := @statFile_keep F dir gone id ".log.1" (by decide) hgone
      have hsize : savedSize F (Directory.keep (fun n => decide (n ∉ filesOf gone)) dir) id
          p.2.size = savedSize F dir id p.2.size := by
        simp only [savedSize, logExts, List.foldl_cons, List.foldl_nil, hlog, hold]
      have hkept : p.1 ∉ filesOf gone := fun h => hgone (hmem.1 h)
      rw [← hid, if_pos (decide_eq_true hkept), Option.filter_some,
        if_pos (decide_eq_true hgone)]
      dsimp only
      rw [hsize]
  · simp

theorem listing_kept (hdir : (dir.map Prod.fst).Nodup) {gone kept : List Saved}
    (hsplit : (gone ++ kept).Perm (listing F dir)) :
    (listing F (Directory.keep (fun n => decide (n ∉ filesOf gone)) dir)).Perm kept := by
  have hnodup : ((gone ++ kept).map Saved.id).Nodup :=
    (hsplit.map Saved.id).nodup_iff.2 (listing_ids_nodup hdir)
  rw [List.map_append] at hnodup
  have hdisjoint := (List.nodup_append'.1 hnodup).2.2
  have hfilter : (gone ++ kept).filter (fun v => decide (v.id ∉ gone.map Saved.id)) = kept := by
    rw [List.filter_append, List.filter_eq_nil_iff.2, List.filter_eq_self.2, List.nil_append]
    · intro v hv
      have hkept : v.id ∈ kept.map Saved.id := List.mem_map_of_mem hv
      simpa using fun h => hdisjoint h hkept
    · intro v hv
      have hgone : v.id ∈ gone.map Saved.id := List.mem_map_of_mem hv
      simpa using hgone
  have hsame : (Directory.keep (fun n => decide (n ∉ filesOf gone)) dir).filterMap
        (saved F (Directory.keep (fun n => decide (n ∉ filesOf gone)) dir)) =
      (dir.filterMap (saved F dir)).filter fun v => decide (v.id ∉ gone.map Saved.id) := by
    rw [List.filter_filterMap]
    conv_lhs => rw [Directory.keep, List.filterMap_filter]
    refine List.filterMap_congr fun p _ => ?_
    rw [saved_keep]
    rfl
  have hrest := ((listing_perm F dir).symm.trans hsplit.symm).filter
    fun v => decide (v.id ∉ gone.map Saved.id)
  rw [hfilter, ← hsame] at hrest
  exact (listing_perm F _).trans hrest

/-- The pruning deletes results from the front of a listing by time, as far as deletions succeed. -/
theorem pruned_foldl (S : Sorter) (hdir : (dir.map Prod.fst).Nodup)
    (hlt : ((listing F dir).map fun v => bytes F dir v.id).sum < 2 ^ 63) :
    ∃ gone kept, S.sort (listing F dir) = gone ++ kept ∧
      pruneResultsLocked F S now dir = gone.foldl (removeResult F) dir ∧
      Admissible F dir now kept ∧
      ∀ longer, longer <:+ S.sort (listing F dir) → Admissible F dir now longer →
        longer.length ≤ kept.length := by
  have hperm := S.perm (listing F dir)
  have hsum : ((S.sort (listing F dir)).map fun v => bytes F dir v.id).sum =
      ((listing F dir).map fun v => bytes F dir v.id).sum := (hperm.map _).sum_eq
  have hsize : ∀ v ∈ listing F dir, v.size = bytes F dir v.id := fun v hv => by
    have hmem : bytes F dir v.id ∈ (listing F dir).map fun v => bytes F dir v.id :=
      List.mem_map.2 ⟨v, hv, rfl⟩
    have hle := List.single_le_sum (fun n _ => Nat.zero_le n) _ hmem
    exact size_eq_bytes hdir hv (Nat.lt_of_le_of_lt hle hlt)
  have htotal : (listing F dir).foldl (fun total v => wrap64 (total + v.size)) 0 =
      ((S.sort (listing F dir)).map fun v => bytes F dir v.id).sum := by
    rw [hsum, foldl_total hsize (Int.le_refl 0) (by omega), Int.zero_add]
  exact @pruneLoop_suffix F now dir _ (S.sorted (listing F dir))
    (fun v hv => hsize v (hperm.mem_iff.1 hv)) (by omega) _ htotal dir

theorem pruned_suffix (S : Sorter) (hremove : ∀ name, F.remove name = false)
    (hdir : (dir.map Prod.fst).Nodup)
    (hlt : ((listing F dir).map fun v => bytes F dir v.id).sum < 2 ^ 63) :
    ∃ gone kept, S.sort (listing F dir) = gone ++ kept ∧
      pruneResultsLocked F S now dir =
        Directory.keep (fun name => decide (name ∉ filesOf gone)) dir ∧
      Admissible F dir now kept ∧
      ∀ longer, longer <:+ S.sort (listing F dir) → Admissible F dir now longer →
        longer.length ≤ kept.length := by
  obtain ⟨gone, kept, hsplit, hloop, hkept, hlongest⟩ := @pruned_foldl F now dir S hdir hlt
  exact ⟨gone, kept, hsplit, hloop.trans (foldl_removeResult hremove gone dir), hkept, hlongest⟩

/-- If deletions succeed and the sizes do not overflow, pruning deletes a prefix of a listing by
time, and what it keeps is the longest admissible suffix. -/
theorem prune_keeps_suffix (S : Sorter) (hremove : ∀ name, F.remove name = false)
    (hdir : (dir.map Prod.fst).Nodup)
    (hlt : ((listing F dir).map fun v => bytes F dir v.id).sum < 2 ^ 63) :
    ∃ gone kept, S.sort (listing F dir) = gone ++ kept ∧
      pruneResultsLocked F S now dir =
        Directory.keep (fun name => decide (name ∉ filesOf gone)) dir ∧
      (listing F (pruneResultsLocked F S now dir)).Perm kept ∧
      Admissible F dir now kept ∧
      (∀ longer, longer <:+ S.sort (listing F dir) → Admissible F dir now longer →
        longer.length ≤ kept.length) ∧
      ∀ v ∈ gone, ∀ w ∈ kept, v.at_ ≤ w.at_ := by
  obtain ⟨gone, kept, hsplit, hpruned, hkept, hlongest⟩ :=
    @pruned_suffix F now dir S hremove hdir hlt
  refine ⟨gone, kept, hsplit, hpruned, ?_, hkept, hlongest, ?_⟩
  · rw [hpruned]
    exact listing_kept hdir (hsplit ▸ S.perm (listing F dir))
  · intro v hv w hw
    have hsorted := S.sorted (listing F dir)
    rw [hsplit] at hsorted
    exact (List.pairwise_append.1 hsorted).2.2 v hv w hw

end

def sampleResult (id name : String) : Result := ⟨⟨some 0, "", false, 0⟩, id, name⟩

def sampleRecord (id name : String) (modTime : ℤ) : String × File :=
  (id ++ ".json", ⟨true, modTime, 100, some (sampleResult id name)⟩)

def sampleLog (id : String) (size : ℕ) : String × File := (id ++ ".log", ⟨true, 0, size, none⟩)

def sampleDir : Dir :=
  [sampleRecord "1a" "job" 5, sampleLog "1a" 10, sampleRecord "2b" "job" resultRetention,
   sampleRecord "3c" "other" (resultRetention + 1), sampleLog "3c" 20]

theorem prune_keeps_suffix_sample :
    ((listing noFaults sampleDir).map fun v => bytes noFaults sampleDir v.id).sum < 2 ^ 63 ∧
      pruneResultsLocked noFaults byTime (resultRetention + 5) sampleDir = sampleDir.drop 2 ∧
      ∃ gone kept, byTime.sort (listing noFaults sampleDir) = gone ++ kept ∧
        Admissible noFaults sampleDir (resultRetention + 5) kept := by
  have hlt : ((listing noFaults sampleDir).map fun v => bytes noFaults sampleDir v.id).sum
      < 2 ^ 63 := by decide +kernel
  have hpruned : pruneResultsLocked noFaults byTime (resultRetention + 5) sampleDir =
      sampleDir.drop 2 := by decide +kernel
  obtain ⟨gone, kept, hsplit, -, -, hkept, -⟩ :=
    @prune_keeps_suffix noFaults (resultRetention + 5) sampleDir byTime (fun _ => rfl)
      (by decide) hlt
  exact ⟨hlt, hpruned, gone, kept, hsplit, hkept⟩

/-- Two results whose logs have `2 ^ 62` bytes each. -/
def hugeDir : Dir :=
  [sampleRecord "1a" "job" 0, sampleLog "1a" (2 ^ 62), sampleRecord "2b" "job" 0,
   sampleLog "2b" (2 ^ 62)]

/-- The total wraps around to a negative number, and nothing is deleted. -/
theorem huge_results_kept : pruneResultsLocked noFaults byTime 1 hugeDir = hugeDir ∧
      ¬ Admissible noFaults hugeDir 1 (byTime.sort (listing noFaults hugeDir)) := by
  refine ⟨by decide +kernel, fun h => ?_⟩
  have hbig : 256 * 2 ^ 20 <
      ((byTime.sort (listing noFaults hugeDir)).map fun v => bytes noFaults hugeDir v.id).sum := by
    decide +kernel
  have := h.small
  omega

end Niflhel.Results
