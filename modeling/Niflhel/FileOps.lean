import Niflhel.Session
import Niflhel.Directory

/-!
# Programs of file operations

File operations on a few flat directories, as the calls of a sequential machine. Any
operation may fail, a failing write may leave a part of its data, and a temporary file gets
any new name with the given start. Deleting reports whether there was a file.
-/

namespace FileOps
open Concurrent Directory

inductive Removal where
  | done
  | missing
  | failed (e : String)
  deriving DecidableEq, Repr

inductive Op (Dir : Type) where
  | mkdirAll (d : Dir)
  | createTemp (d : Dir) (pattern : String)
  | chmod (d : Dir) (name : String)
  | write (d : Dir) (name : String) (data : List UInt8)
  | sync (d : Dir) (name : String)
  | close (d : Dir) (name : String)
  | rename (d : Dir) (source target : String)
  | remove (d : Dir) (name : String)
  | readFile (d : Dir) (name : String)
  | readDir (d : Dir)
  | syncDir (d : Dir)

/-- Answers of the operations: the name of a temporary file, the number of bytes written
with an error, what was read, or only an error. -/
abbrev Op.Reply {Dir : Type} : Op Dir → Type
  | .createTemp _ _ => Except String String
  | .write _ _ _ => ℕ × Option String
  | .remove _ _ => Removal
  | .readFile _ _ => Except String (List UInt8)
  | .readDir _ => Except String (List String)
  | _ => Option String

abbrev Disk (Dir : Type) := Dir → List (String × List UInt8)

abbrev Files (Dir : Type) := Program (Op Dir) (@Op.Reply Dir)

abbrev file {Dir : Type} (o : Op Dir) : Files Dir o.Reply := Program.perform o

variable {Dir : Type} [DecidableEq Dir]

namespace Disk

def put (s : Disk Dir) (d : Dir) (name : String) (c : List UInt8) : Disk Dir :=
  Function.update s d (Directory.put (s d) name c)

def erase (s : Disk Dir) (d : Dir) (name : String) : Disk Dir :=
  Function.update s d (keep (fun n => n != name) (s d))

end Disk

def exec (s : Disk Dir) : (o : Op Dir) → o.Reply → Option (Disk Dir)
  | .createTemp d pattern, .ok name =>
      if pattern.toList.isPrefixOf name.toList && ((s d).lookup name).isNone then
        some (s.put d name []) else none
  | .write d name data, (n, e) =>
      if n ≤ data.length ∧ (e = none → n = data.length) then
        match (s d).lookup name with
        | some c => some (s.put d name (c ++ data.take n))
        | none => some s
      else none
  | .rename d source target, none =>
      ((s d).lookup source).map fun c => (s.erase d source).put d target c
  | .remove d name, .done => if ((s d).lookup name).isSome then some (s.erase d name) else none
  | .remove d name, .missing => if ((s d).lookup name).isNone then some s else none
  | .readFile d name, .ok c => if (s d).lookup name = some c then some s else none
  | .readDir d, .ok names => if names = (readDir (s d)).map Prod.fst then some s else none
  | _, _ => some s

section
variable {s s' : Disk Dir} {d : Dir} {name : String} {c data : List UInt8}

@[simp] theorem put_same : (s.put d name c) d = Directory.put (s d) name c := by
  simp [Disk.put]

theorem put_other {d' : Dir} (h : d' ≠ d) : (s.put d name c) d' = s d' := by
  simp [Disk.put, h]

@[simp] theorem erase_same : (s.erase d name) d = keep (fun n => n != name) (s d) := by
  simp [Disk.erase]

theorem erase_other {d' : Dir} (h : d' ≠ d) : (s.erase d name) d' = s d' := by
  simp [Disk.erase, h]

@[simp] theorem put_put (c' : List UInt8) : (s.put d name c).put d name c' = s.put d name c' := by
  unfold Disk.put
  rw [Function.update_idem]
  congr 1
  simp [Directory.put]

/-- Deleting a file that was not there before restores the disk. -/
theorem erase_put (h : (s d).lookup name = none) : (s.put d name c).erase d name = s := by
  unfold Disk.put Disk.erase
  rw [Function.update_idem, Function.update_self, Function.update_eq_self_iff]
  have hfilter : keep (fun n => n != name) (Directory.put (s d) name c) =
      (s d).filter fun f => f.1 != name := by
    simp [keep, Directory.put]
  rw [hfilter, List.filter_eq_self]
  intro f hf
  simp only [bne_iff_ne, ne_eq]
  rintro rfl
  rw [List.lookup_eq_none_iff] at h
  simpa using h f hf

def Named (s : Disk Dir) : Prop := ∀ d, ((s d).map Prod.fst).Nodup

theorem Named.put (h : Named s) (d : Dir) (name : String) (c : List UInt8) :
    Named (s.put d name c) := by
  intro d'
  by_cases hd : d' = d
  · subst hd
    rw [put_same]
    exact nodup_put _ _ (h d')
  · rw [put_other hd]
    exact h d'

theorem Named.erase (h : Named s) (d : Dir) (name : String) : Named (s.erase d name) := by
  intro d'
  by_cases hd : d' = d
  · subst hd
    rw [erase_same]
    exact nodup_keep _ (h d')
  · rw [erase_other hd]
    exact h d'

variable {Job Loss α : Type} {code : Job → Files Dir Unit} {crash : Loss → Disk Dir → Disk Dir}
  {ok : Disk Dir → Event (Op Dir) Op.Reply Job Loss → Bool} {inv : Disk Dir → Prop}
  {post : α → Disk Dir → Prop}

def Op.quiet : Op Dir → Bool
  | .mkdirAll _ | .chmod _ _ | .sync _ _ | .close _ _ | .readFile _ _ | .readDir _ | .syncDir _ =>
      true
  | _ => false

theorem exec_quiet {o : Op Dir} {r : o.Reply} (ho : o.quiet = true) (hx : exec s o r = some s') :
    s' = s := by
  cases o with
  | mkdirAll | chmod | sync | close | syncDir => exact (Option.some.inj hx).symm
  | readFile d name =>
    cases r with
    | error e => exact (Option.some.inj hx).symm
    | ok c =>
      simp only [exec] at hx
      split_ifs at hx
      exact (Option.some.inj hx).symm
  | readDir d =>
    cases r with
    | error e => exact (Option.some.inj hx).symm
    | ok names =>
      simp only [exec] at hx
      split_ifs at hx
      exact (Option.some.inj hx).symm
  | _ => cases ho

theorem safe_file {o : Op Dir} {f : o.Reply → Files Dir α}
    (h : ∀ r s', ok s (.run o r) = true → exec s o r = some s' →
      inv s' ∧ Machine.Safe ⟨exec, code, crash⟩ ok inv post (f r) s') :
    Machine.Safe ⟨exec, code, crash⟩ ok inv post (file o >>= f) s := h

theorem safe_quiet {o : Op Dir} {f : o.Reply → Files Dir α} (ho : o.quiet = true) (hs : inv s)
    (h : ∀ r, Machine.Safe ⟨exec, code, crash⟩ ok inv post (f r) s) :
    Machine.Safe ⟨exec, code, crash⟩ ok inv post (file o >>= f) s := by
  refine safe_file fun r s' _ hx => ?_
  rw [exec_quiet ho hx]
  exact ⟨hs, h r⟩

theorem exec_createTemp {pattern tmp : String}
    (hx : exec s (.createTemp d pattern) (.ok tmp) = some s') :
    pattern.toList <+: tmp.toList ∧ (s d).lookup tmp = none ∧ s' = s.put d tmp [] := by
  simp only [exec] at hx
  split_ifs at hx with h
  obtain ⟨hpattern, hnew⟩ := (Bool.and_eq_true _ _).mp h
  exact ⟨List.isPrefixOf_iff_prefix.1 hpattern, Option.isNone_iff_eq_none.1 hnew,
    (Option.some.inj hx).symm⟩

theorem exec_write {n : ℕ} {e : Option String} (h : (s d).lookup name = some c)
    (hx : exec s (.write d name data) (n, e) = some s') :
    (e = none → n = data.length) ∧ s' = s.put d name (c ++ data.take n) := by
  simp only [exec, h] at hx
  split_ifs at hx with hn
  exact ⟨hn.2, (Option.some.inj hx).symm⟩

theorem exec_rename {target : String} (h : (s d).lookup name = some c)
    (hx : exec s (.rename d name target) none = some s') :
    s' = (s.erase d name).put d target c := by
  simp only [exec, h, Option.map_some] at hx
  exact (Option.some.inj hx).symm

theorem exec_readFile (hx : exec s (.readFile d name) (.ok c) = some s') :
    (s d).lookup name = some c := by
  simp only [exec] at hx
  split_ifs at hx with h
  exact h

theorem exec_readDir {names : List String} (hx : exec s (.readDir d) (.ok names) = some s') :
    names = (readDir (s d)).map Prod.fst := by
  simp only [exec] at hx
  split_ifs at hx with h
  exact h

theorem exec_remove {r : Removal} (hx : exec s (.remove d name) r = some s') :
    (r = .done ∧ s' = s.erase d name) ∨ (r ≠ .done ∧ s' = s) := by
  cases r with
  | done =>
    simp only [exec] at hx
    split_ifs at hx
    exact Or.inl ⟨rfl, (Option.some.inj hx).symm⟩
  | missing =>
    simp only [exec] at hx
    split_ifs at hx
    exact Or.inr ⟨by simp, (Option.some.inj hx).symm⟩
  | failed e => exact Or.inr ⟨by simp, (Option.some.inj hx).symm⟩

theorem Named.exec {o : Op Dir} {r : o.Reply} (h : Named s) (hx : exec s o r = some s') :
    Named s' := by
  cases hq : o.quiet with
  | true => rwa [exec_quiet hq hx]
  | false =>
    cases o with
    | createTemp d pattern =>
      cases r with
      | error e => rwa [← Option.some.inj hx]
      | ok tmp =>
        rw [(exec_createTemp hx).2.2]
        exact h.put d tmp []
    | write d name data =>
      obtain ⟨n, e⟩ := r
      cases hlook : (s d).lookup name with
      | some c =>
        rw [(exec_write hlook hx).2]
        exact h.put d name _
      | none =>
        simp only [FileOps.exec, hlook] at hx
        split_ifs at hx
        rwa [← Option.some.inj hx]
    | rename d source target =>
      cases r with
      | some e => rwa [← Option.some.inj hx]
      | none =>
        obtain ⟨c, _, rfl⟩ := Option.map_eq_some_iff.1 hx
        exact (h.erase d source).put d target c
    | remove d name =>
      rcases exec_remove hx with ⟨_, rfl⟩ | ⟨_, rfl⟩
      · exact h.erase d name
      · exact h
    | _ => cases hq

end
end FileOps
