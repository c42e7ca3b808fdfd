import Niflhel.BuildSnapshot
import Niflhel.Directory
import Mathlib.Data.List.Nodup

/-!
# The signing key is not exported

What a successful `prepareBaseBuild` has put into the stage, whatever happened to the sources
in the meantime. Each function of the copy appends to the stage a list of entries; `Added`
says what these are and how the counters of the snapshot account for them. If the source
of the copy does not change, the entries are its own.
-/

namespace Niflhel.BuildSnapshot
open Concurrent GoText

namespace Tree

def links (S : Tree) : List Path := (S.filter fun x => x.2.isLink).map Prod.fst

variable {S T : Tree} {p : Path} {f : Entry → Entry} {e : Entry} {root : Path}

theorem modify_append : (S ++ T : Tree).modify p f = S.modify p f ++ T.modify p f :=
  List.map_append

theorem modify_of_notMem (h : p ∉ S.paths) : S.modify p f = S := by
  have hsame : ∀ x ∈ S, (if x.1 = p then (x.1, f x.2) else x) = x := by
    intro x hx
    rw [if_neg]
    intro he
    exact h (List.mem_map.2 ⟨x, hx, he⟩)
  exact (List.map_congr_left hsame).trans (List.map_id _)

theorem modify_last (h : p ∉ S.paths) : (S ++ [(p, e)] : Tree).modify p f = S ++ [(p, f e)] := by
  rw [modify_append, modify_of_notMem h]
  simp [modify]

theorem paths_modify : (S.modify p f).paths = S.paths := by
  unfold paths modify
  rw [List.map_map]
  apply List.map_congr_left
  intro x _
  simp only [Function.comp]
  split <;> rfl

theorem below_append : (S ++ T : Tree).below root = S.below root ++ T.below root :=
  List.filterMap_append

theorem below_of_under (h : ∀ x ∈ S, root <+: x.1) :
    S.below root = S.map fun x => (x.1.drop root.length, x.2) := by
  rw [← List.filterMap_eq_map]
  apply List.filterMap_congr
  intro x hx
  rw [if_pos (h x hx)]
  rfl

theorem below_of_apart (h : ∀ x ∈ S, ¬ root <+: x.1) : S.below root = [] := by
  apply List.filterMap_eq_nil_iff.2
  intro x hx
  rw [if_neg (h x hx)]

theorem mem_below : (p, e) ∈ S.below root ↔ (root ++ p, e) ∈ S := by
  simp only [below, List.mem_filterMap, Option.ite_none_right_eq_some, Option.some.injEq,
    Prod.mk.injEq]
  constructor
  · rintro ⟨⟨q, e'⟩, hx, ⟨rest, rfl⟩, hp, rfl⟩
    rw [List.drop_left] at hp
    exact hp ▸ hx
  · intro h
    exact ⟨_, h, List.prefix_append _ _, List.drop_left, rfl⟩

theorem nodup_below (h : S.paths.Nodup) : (S.below root).paths.Nodup := by
  have hpaths : (S.below root).paths =
      S.paths.filterMap fun p => if root <+: p then some (p.drop root.length) else none := by
    unfold paths below
    rw [List.filterMap_map, List.map_filterMap]
    apply List.filterMap_congr
    intro x _
    simp only [Function.comp]
    split <;> rfl
  rw [hpaths]
  refine h.filterMap ?_
  intro p p' q hq hq'
  simp only [Option.mem_def, Option.ite_none_right_eq_some, Option.some.injEq] at hq hq'
  obtain ⟨⟨rest, rfl⟩, rfl⟩ := hq
  obtain ⟨⟨rest', rfl⟩, hrest⟩ := hq'
  rw [List.drop_left, List.drop_left] at hrest
  rw [hrest]

end Tree

@[simp] theorem staged_append (past : List (Answer Op Op.Value)) (c : Answer Op Op.Value) :
    staged (past ++ [c]) = (staged past).apply c := by
  unfold staged
  rw [List.foldl_append]
  rfl

def Op.quiet : Op → Bool
  | .mkdir _ | .symlink _ _ | .create _ | .copy _ _ _ | .chmod _ _ => false
  | _ => true

theorem Tree.apply_quiet {o : Op} (ho : o.quiet = true) (S : Tree) (r : Except String o.Value) :
    S.apply ⟨o, r⟩ = S := by
  cases o <;> first | rfl | cases ho

/-- The rule for a quiet call: its place in the history does not matter. -/
theorem delivers_quiet_bind {Ws : ℕ → World} {past : List (Answer Op Op.Value)} {α : Type} {o : Op}
    {f : o.Value → Prog α} {Q : List (Answer Op Op.Value) → α → Prop} (ho : o.quiet = true)
    (h : ∀ v n past', staged past' = staged past → Answers (Ws n) (staged past) o v →
      Delivers (law Ws) past' (f v) Q) : Delivers (law Ws) past (sys o >>= f) Q := by
  apply delivers_call_bind
  intro v hv
  apply h v past.length _ _ hv
  rw [staged_append, Tree.apply_quiet ho]

variable {calls : List (Answer Op Op.Value)}

/-- The paths of the stage are distinct: everything in it was created anew. -/
theorem nodup_staged {Ws : ℕ → World} {past : List (Answer Op Op.Value)}
    (hpast : (staged past).paths.Nodup) (h : Answered (law Ws) past calls) :
    (staged (past ++ calls)).paths.Nodup := by
  induction calls generalizing past with
  | nil => rwa [List.append_nil]
  | cons c calls ih =>
    have hnext : (staged (past ++ [c])).paths.Nodup := by
      rw [staged_append]
      have hnew : ∀ p e, p ∉ (staged past).paths →
          ((staged past ++ [(p, e)] : Tree)).paths.Nodup := by
        intro p e hp
        simp only [Tree.paths, List.map_append, List.map_cons, List.map_nil]
        rw [← List.concat_eq_append]
        exact hpast.concat hp
      have hkeep : ∀ p f, ((staged past).modify p f).paths.Nodup := by
        intro p f
        rwa [Tree.paths_modify]
      obtain ⟨o, r⟩ := c
      cases r with
      | error e => cases o <;> exact hpast
      | ok v =>
        cases o with
        | mkdir p => exact hnew p _ h.1
        | symlink target p => exact hnew p _ h.1
        | create p => exact hnew p _ h.1
        | copy i limit p => exact hkeep p _
        | chmod p perm => exact hkeep p _
        | _ => exact hpast
    have hrest := ih hnext h.2
    rwa [List.append_assoc, List.singleton_append] at hrest

variable {name : String}

namespace World

def entry (W : World) (i : Inode) : Entry :=
  match W.node i with
  | .file data => .file [(i, data)] (W.perm i)
  | .dir _ => .dir (W.perm i)
  | .symlink target => .symlink target
  | .other => .other

theorem at_cons {W : World} {i : Inode} {p : Path} {k : Inode} : W.at_ i (name :: p) = some k ↔
      ∃ j, (W.entries i).lookup name = some j ∧ W.at_ j p = some k :=
  Option.bind_eq_some_iff

theorem at_of_leaf {W : World} {i j : Inode} {p : Path} (h : W.entries i = []) :
    W.at_ i p = some j ↔ p = [] ∧ i = j := by
  cases p with
  | nil => simp [at_]
  | cons name p => simp [at_, h]

end World

/-- What is reachable from the inode `i` of `W` is the same in all of the worlds. -/
def Constant (Ws : ℕ → World) (W : World) (i : Inode) : Prop :=
  ∀ n p j, W.at_ i p = some j → (Ws n).node j = W.node j ∧ (Ws n).perm j = W.perm j

variable {names : List String}

section
variable {Ws : ℕ → World} {W : World} {i j : Inode}

theorem Constant.node (h : Constant Ws W i) (n : ℕ) : (Ws n).node i = W.node i :=
  (h n [] i rfl).1

theorem Constant.entries (h : Constant Ws W i) (n : ℕ) : (Ws n).entries i = W.entries i := by
  unfold World.entries
  rw [h.node n]

theorem Constant.child (h : Constant Ws W i)
    (hj : (W.entries i).lookup name = some j) : Constant Ws W j := fun n p k hk =>
  h n (name :: p) k (World.at_cons.2 ⟨j, hj, hk⟩)

def Mirrors (W : World) (i : Inode) (dest : Path) (S : Tree) : Prop :=
  ∀ p e, (dest ++ p, e) ∈ S ↔ ∃ j, W.at_ i p = some j ∧ W.entry j = e

def MirrorsNames (W : World) (i : Inode) (dest : Path) (names : List String) (S : Tree) : Prop :=
  ∀ name p e, (dest ++ name :: p, e) ∈ S ↔
    name ∈ names ∧ ∃ j, W.at_ i (name :: p) = some j ∧ W.entry j = e

theorem mirrors_leaf {dest : Path} (h : W.entries i = []) :
    Mirrors W i dest [(dest, W.entry i)] := by
  intro p e
  simp only [List.mem_singleton, Prod.mk.injEq, List.append_right_eq_self, World.at_of_leaf h]
  constructor
  · rintro ⟨rfl, rfl⟩
    exact ⟨i, ⟨rfl, rfl⟩, rfl⟩
  · rintro ⟨j, ⟨rfl, rfl⟩, rfl⟩
    exact ⟨rfl, rfl⟩

theorem mirrors_dir {dest : Path} {S : Tree} (hunder : ∀ x ∈ S, ∃ name p, x.1 = dest ++ name :: p)
    (h : MirrorsNames W i dest (W.names i) S) : Mirrors W i dest ((dest, W.entry i) :: S) := by
  intro p e
  cases p with
  | nil =>
    have hnot : ∀ e', (dest, e') ∉ S := by
      intro e' hmem
      obtain ⟨name, p, hp⟩ := hunder _ hmem
      simp at hp
    simp only [List.append_nil, List.mem_cons, Prod.mk.injEq, true_and, hnot, or_false]
    constructor
    · rintro rfl
      exact ⟨i, rfl, rfl⟩
    · rintro ⟨j, hj, rfl⟩
      rw [Option.some.inj hj]
  | cons name p =>
    have hne : dest ++ name :: p ≠ dest := by simp
    simp only [List.mem_cons, Prod.mk.injEq, hne, false_and, false_or, h name p e]
    constructor
    · exact And.right
    · rintro ⟨j, hj, rfl⟩
      obtain ⟨k, hk, -⟩ := World.at_cons.1 hj
      exact ⟨List.mem_map.2 ⟨(name, k), Directory.lookup_mem hk, rfl⟩, j, hj, rfl⟩

theorem mirrorsNames_nil {dest : Path} : MirrorsNames W i dest [] [] := by
  simp [MirrorsNames]

theorem MirrorsNames.append {dest : Path} {names' : List String} {S S' : Tree}
    (h : MirrorsNames W i dest names S) (h' : MirrorsNames W i dest names' S') :
    MirrorsNames W i dest (names ++ names') (S ++ S') := by
  intro name p e
  rw [List.mem_append, List.mem_append, h name p e, h' name p e]
  exact or_and_right.symm

theorem Mirrors.named {dest : Path} {S : Tree}
    (hunder : ∀ x ∈ S, dest ++ [name] <+: x.1) (hj : (W.entries i).lookup name = some j)
    (h : Mirrors W j (dest ++ [name]) S) : MirrorsNames W i dest [name] S := by
  intro name' p e
  constructor
  · intro hmem
    obtain ⟨rest, hrest⟩ := hunder _ hmem
    rw [List.append_assoc, List.append_cancel_left_eq, List.singleton_append] at hrest
    cases hrest
    rw [List.append_cons, h] at hmem
    obtain ⟨k, hk, rfl⟩ := hmem
    exact ⟨List.mem_singleton_self _, k, World.at_cons.2 ⟨j, hj, hk⟩, rfl⟩
  · rintro ⟨hname, k, hk, rfl⟩
    obtain rfl := List.mem_singleton.1 hname
    obtain ⟨j', hj', hk⟩ := World.at_cons.1 hk
    cases hj.symm.trans hj'
    rw [List.append_cons, h]
    exact ⟨k, hk, rfl⟩

end

structure Snapshot.Within (s : Snapshot) : Prop where
  entries : s.entries ≤ 10000
  bytes : s.bytes ≤ maxBytes

/-- A copy that took the snapshot from `s` to `s'` has put the entries `S` into the stage, no
directory among them with a path longer than `top`. -/
structure Added (top : ℕ) (s s' : Snapshot) (S : Tree) : Prop where
  key : s'.key = s.key
  within : s.Within → s'.Within
  entries : s'.entries = s.entries + S.length
  bytes : s'.bytes = s.bytes + S.size
  links : s'.links = s.links ++ S.links
  keyless : ∀ x ∈ S, s.key.inode ∉ x.2.origins
  relative : ∀ x ∈ S, ∀ target, x.2 = .symlink target → isAbs target = false
  shallow : ∀ x ∈ S, x.2.isDir = true → x.1.length ≤ top

theorem added_nil {top : ℕ} {s : Snapshot} : Added top s s [] where
  key := rfl
  within := id
  entries := rfl
  bytes := rfl
  links := (List.append_nil _).symm
  keyless := by simp
  relative := by simp
  shallow := by simp

theorem Added.append {top : ℕ} {s s' s'' : Snapshot} {S T : Tree} (h : Added top s s' S)
    (h' : Added top s' s'' T) : Added top s s'' (S ++ T) where
  key := h'.key.trans h.key
  within hs := h'.within (h.within hs)
  entries := by rw [h'.entries, h.entries, List.length_append, Nat.add_assoc]
  bytes := by
    rw [h'.bytes, h.bytes, Nat.add_assoc]
    simp [Tree.size]
  links := by
    rw [h'.links, h.links, List.append_assoc]
    simp [Tree.links]
  keyless x hx := by
    rcases List.mem_append.1 hx with hx | hx
    · exact h.keyless x hx
    · exact h.key ▸ h'.keyless x hx
  relative x hx := by
    rcases List.mem_append.1 hx with hx | hx
    · exact h.relative x hx
    · exact h'.relative x hx
  shallow x hx := by
    rcases List.mem_append.1 hx with hx | hx
    · exact h.shallow x hx
    · exact h'.shallow x hx

section
variable {Ws : ℕ → World} {past : List (Answer Op Op.Value)} {s : Snapshot} {fd : Inode}
  {dest : Path} {top : ℕ}

theorem delivers_copyLink : Delivers (law Ws) past (copyLink s fd dest) fun past' s' =>
    ∃ n target, staged past' = staged past ++ [(dest, .symlink target)] ∧
      isAbs target = false ∧ (Ws n).node fd = .symlink target ∧
      s' = { s with links := s.links ++ [dest] } := by
  apply delivers_quiet_bind rfl
  rintro target n past₁ hpast ⟨whole, hnode, hwhole⟩
  apply delivers_refuse_bind
  intro hgood
  obtain ⟨hlong, habs⟩ := not_or.1 hgood
  apply delivers_call_bind
  intro _ _
  apply delivers_pure
  -- a target that fills the buffer is refused, so that the target is whole
  split at hwhole
  · subst hwhole
    refine ⟨n, target, ?_, by simpa using habs, hnode, rfl⟩
    rw [staged_append, hpast]
    rfl
  · exact absurd hwhole hlong

theorem delivers_copyFile {st : Info} :
    Delivers (law Ws) past (copyFile s fd st dest) fun past' s' =>
      ∃ n, staged past' = staged past ++ [(dest, .file [(fd, (Ws n).data fd)] st.perm)] ∧
        ((Ws n).data fd).length ≤ maxBytes - s.bytes ∧
        s' = { s with bytes := s.bytes + ((Ws n).data fd).length } := by
  apply delivers_refuse_bind
  intro _
  apply delivers_call_bind
  intro _ hnew
  apply delivers_andFinally
  apply delivers_call_bind
  intro data hdata
  obtain ⟨n, hdata⟩ : ∃ n, data = ((Ws n).data fd).take (maxBytes - s.bytes + 1) := ⟨_, hdata⟩
  apply delivers_refuse_bind
  intro hfit
  -- the limit is one byte above what is accepted, so that the file was read to its end
  have hall : data = (Ws n).data fd := by
    rw [hdata, List.take_eq_self_iff]
    have hlen := congrArg List.length hdata
    rw [List.length_take] at hlen
    omega
  subst hall
  apply delivers_call_bind
  intro _ _
  apply delivers_pure
  apply delivers_call
  intro _ _
  refine ⟨n, ?_, not_lt.1 hfit, rfl⟩
  simp only [staged_append]
  change ((staged past ++ [(dest, .file [] 0o600)] : Tree).modify dest _).modify dest _ = _
  rw [Tree.modify_last hnew, Tree.modify_last hnew]
  rfl

def CopiesDir (Ws : ℕ → World) (top : ℕ)
    (copyDir : Snapshot → Inode → Path → Prog Snapshot) (dest : Path) : Prop :=
  ∀ past s source (S : Tree) perm, staged past = S ++ [(dest, .dir perm)] → dest ∉ S.paths →
    Delivers (law Ws) past (copyDir s source dest) fun past' s' => ∃ n T,
      staged past' = S ++ (dest, .dir ((Ws n).perm source)) :: T ∧ dest.length ≤ top ∧
      Added top s s' T ∧ (∀ x ∈ T, ∃ name p, x.1 = dest ++ name :: p) ∧
      ∀ W, Constant Ws W source → MirrorsNames W source dest (W.names source) T

end

variable {perm : ℕ}

section
variable {s : Snapshot} {dest : Path} {top : ℕ} (hs : s.entries + 1 ≤ 10000)
include hs

theorem added_link {target : String} (habs : isAbs target = false) :
    Added top s { s with entries := s.entries + 1, links := s.links ++ [dest] }
      [(dest, .symlink target)] where
  key := rfl
  within h := ⟨hs, h.bytes⟩
  entries := rfl
  bytes := rfl
  links := rfl
  keyless := by simp [Entry.origins]
  relative := by simpa using habs
  shallow := by simp [Entry.isDir]

theorem added_dir (hdest : dest.length ≤ top) :
    Added top s { s with entries := s.entries + 1 } [(dest, .dir perm)] where
  key := rfl
  within h := ⟨hs, h.bytes⟩
  entries := rfl
  bytes := rfl
  links := (List.append_nil _).symm
  keyless := by simp [Entry.origins]
  relative := by simp
  shallow := by simpa using fun _ => hdest

theorem added_file {fd : Inode} {data : List UInt8} (hkey : fd ≠ s.key.inode)
    (hdata : data.length ≤ maxBytes - s.bytes) :
    Added top s { s with entries := s.entries + 1, bytes := s.bytes + data.length }
      [(dest, .file [(fd, data)] perm)] where
  key := rfl
  within h := by
    refine ⟨hs, ?_⟩
    have hbytes := h.bytes
    change s.bytes + data.length ≤ maxBytes
    omega
  entries := rfl
  bytes := by simp [Tree.size, Entry.data]
  links := (List.append_nil _).symm
  keyless := by simpa [Entry.origins] using hkey.symm
  relative := by simp
  shallow := by simp [Entry.isDir]

end

variable {pos : ℕ}

section
variable {Ws : ℕ → World} {past : List (Answer Op Op.Value)} {s : Snapshot} {dest : Path} {top : ℕ}
  {copyDir : Snapshot → Inode → Path → Prog Snapshot} {source : Inode}

theorem delivers_copyEntry (hdir : CopiesDir Ws top copyDir dest) (hs : s.entries + 1 ≤ 10000) :
    Delivers (law Ws) past
      (copyEntry copyDir { s with entries := s.entries + 1 } source name dest) fun past' s' =>
        ∃ n fd T, ((Ws n).entries source).lookup name = some fd ∧
          staged past' = staged past ++ T ∧ Added top s s' T ∧ (∀ x ∈ T, dest <+: x.1) ∧
          ∀ W, Constant Ws W fd → Mirrors W fd dest T := by
  apply delivers_quiet_bind rfl
  intro fd n past₁ hpast₁ hfd
  apply delivers_quiet_bind rfl
  intro st m past₂ hpast₂ hst
  have hpast₂ : staged past₂ = staged past := hpast₂.trans hpast₁
  obtain rfl : st = (Ws m).info fd := hst
  apply delivers_refuse_bind
  intro hkey
  cases hnode : (Ws m).node fd with
  | symlink target =>
    simp only [World.info, hnode, Node.kind]
    apply delivers_copyLink.mono
    rintro past' s' ⟨l, target', hstaged, habs, hlink, rfl⟩
    refine ⟨n, fd, _, hfd, hpast₂ ▸ hstaged, added_link hs habs, by simp, ?_⟩
    intro W hW
    have hW : W.node fd = .symlink target' := (hW.node l).symm.trans hlink
    have h := @mirrors_leaf W fd dest (by simp [World.entries, hW])
    rwa [World.entry, hW] at h
  | other =>
    simp only [World.info, hnode, Node.kind]
    exact delivers_throw
  | dir entries =>
    simp only [World.info, hnode, Node.kind]
    apply delivers_quiet_bind rfl
    intro _ _ past₃ hpast₃ _
    have hpast₃ : staged past₃ = staged past := hpast₃.trans hpast₂
    apply delivers_call_bind
    intro _ hnew
    have hnew : dest ∉ (staged past).paths := hpast₃ ▸ hnew
    have hpast₄ : staged (past₃ ++ [⟨.mkdir dest, .ok ()⟩]) =
        staged past ++ [(dest, .dir 0o700)] := by
      rw [staged_append, hpast₃]
      rfl
    apply (hdir _ _ fd _ _ hpast₄ hnew).mono
    rintro past' s' ⟨l, T, hstaged, hlen, hadded, hunder, hT⟩
    refine ⟨n, fd, _, hfd, hstaged, (added_dir hs hlen).append hadded, ?_, ?_⟩
    · intro x hx
      rcases List.mem_cons.1 hx with rfl | hx
      · exact List.prefix_rfl
      · obtain ⟨name', p, hp⟩ := hunder x hx
        exact hp ▸ List.prefix_append _ _
    · intro W hW
      have h := mirrors_dir hunder (hT W hW)
      have hentry : W.entry fd = .dir ((Ws l).perm fd) := by
        rw [World.entry, ← hW.node m, hnode, (hW l [] fd rfl).2]
      rwa [hentry] at h
  | file data =>
    simp only [World.info, hnode, Node.kind]
    apply delivers_quiet_bind rfl
    intro _ _ past₃ hpast₃ _
    have hpast₃ : staged past₃ = staged past := hpast₃.trans hpast₂
    apply delivers_copyFile.mono
    rintro past' s' ⟨l, hstaged, hdata, rfl⟩
    refine ⟨n, fd, _, hfd, hpast₃ ▸ hstaged, added_file hs hkey hdata, by simp, ?_⟩
    intro W hW
    have hfile : W.node fd = .file data := (hW.node m).symm.trans hnode
    have hentry : W.entry fd = .file [(fd, (Ws l).data fd)] ((Ws m).perm fd) := by
      rw [World.entry, hfile, World.data, hW.node l, hfile, (hW m [] fd rfl).2]
    have h := @mirrors_leaf W fd dest (by simp [World.entries, hfile])
    rwa [hentry] at h

theorem delivers_copyBatch (hdir : ∀ name, CopiesDir Ws top copyDir (dest ++ [name])) :
    Delivers (law Ws) past (copyBatch copyDir source dest names s) fun past' s' =>
      ∃ T, staged past' = staged past ++ T ∧ Added top s s' T ∧
        (∀ x ∈ T, ∃ name p, x.1 = dest ++ name :: p) ∧
        ∀ W, Constant Ws W source → MirrorsNames W source dest names T := by
  induction names generalizing past s with
  | nil =>
    apply delivers_pure
    exact ⟨[], (List.append_nil _).symm, added_nil, by simp, fun W _ => mirrorsNames_nil⟩
  | cons name rest ih =>
    apply delivers_refuse_bind
    intro hs
    apply delivers_bind
    apply (delivers_copyEntry (hdir name) (not_lt.1 hs)).mono
    rintro past₁ s₁ ⟨n, fd, T, hfd, hstaged, hadded, hunder, hT⟩
    apply ih.mono
    rintro past₂ s₂ ⟨T', hstaged', hadded', hunder', hT'⟩
    refine ⟨T ++ T', ?_, hadded.append hadded', ?_, ?_⟩
    · rw [hstaged', hstaged, List.append_assoc]
    · intro x hx
      rcases List.mem_append.1 hx with hx | hx
      · obtain ⟨p, hp⟩ := hunder x hx
        exact ⟨name, p, by rw [← hp, List.append_assoc, List.singleton_append]⟩
      · exact hunder' x hx
    · intro W hW
      rw [hW.entries n] at hfd
      exact ((hT W (hW.child hfd)).named hunder hfd).append (hT' W hW)

theorem delivers_copyLoop {rounds : ℕ} (hdir : ∀ name, CopiesDir Ws top copyDir (dest ++ [name])) :
    Delivers (law Ws) past (copyLoop copyDir source dest perm rounds pos s) fun past' s' =>
      ∃ T, staged past' = (staged past ++ T : Tree).modify dest (Entry.chmod perm) ∧
        Added top s s' T ∧ (∀ x ∈ T, ∃ name p, x.1 = dest ++ name :: p) ∧
        ∀ W, Constant Ws W source →
          MirrorsNames W source dest ((W.names source).drop pos) T := by
  induction rounds generalizing past pos s with
  | zero => exact delivers_throw
  | succ rounds ih =>
    apply delivers_quiet_bind rfl
    rintro names n past₁ hpast₁ ⟨hbatch, heof⟩
    have hnames : ∀ W, Constant Ws W source → (Ws n).names source = W.names source := by
      intro W hW
      rw [World.names, hW.entries n]
      rfl
    by_cases hnil : names = []
    · rw [if_pos hnil]
      apply delivers_call_bind
      intro _ _
      apply delivers_pure
      refine ⟨[], ?_, added_nil, by simp, ?_⟩
      · rw [staged_append, hpast₁, List.append_nil]
        rfl
      · intro W hW
        have hend := heof hnil
        rw [hnames W hW] at hend
        rw [List.drop_eq_nil_of_le hend]
        exact mirrorsNames_nil
    · rw [if_neg hnil]
      apply delivers_bind
      apply (delivers_copyBatch hdir).mono
      rintro past₂ s₂ ⟨T, hstaged, hadded, hunder, hT⟩
      apply ih.mono
      rintro past₃ s₃ ⟨T', hstaged', hadded', hunder', hT'⟩
      refine ⟨T ++ T', ?_, hadded.append hadded', ?_, ?_⟩
      · rw [hstaged', hstaged, hpast₁, List.append_assoc]
      · intro x hx
        rcases List.mem_append.1 hx with hx | hx
        · exact hunder x hx
        · exact hunder' x hx
      · intro W hW
        obtain ⟨later, hlater⟩ := hbatch
        rw [hnames W hW] at hlater
        have hdrop : (W.names source).drop (pos + names.length) = later := by
          rw [← List.drop_drop, ← hlater, List.drop_left]
        rw [← hlater, ← hdrop]
        exact (hT W hW).append (hT' W hW)

end

theorem copiesDir_copyDir {Ws : ℕ → World} {top levels : ℕ} {dest : Path}
    (hlevels : dest.length + levels = top + 1) : CopiesDir Ws top (copyDir levels) dest := by
  induction levels generalizing dest with
  | zero =>
    intro past s source S perm _ _
    exact delivers_throw
  | succ levels ih =>
    intro past s source S perm hpast hdest
    have hdir : ∀ name, CopiesDir Ws top (copyDir levels) (dest ++ [name]) := by
      intro name
      apply ih
      rw [List.length_append, List.length_singleton]
      omega
    apply delivers_quiet_bind rfl
    intro st n past₁ hpast₁ hst
    obtain rfl : st = (Ws n).info source := hst
    apply delivers_refuse_bind
    intro _
    apply (delivers_copyLoop hdir).mono
    rintro past₂ s₂ ⟨T, hstaged, hadded, hunder, hT⟩
    have hnot : dest ∉ T.paths := by
      intro hmem
      obtain ⟨x, hx, hxd⟩ := List.mem_map.1 hmem
      obtain ⟨name, p, hp⟩ := hunder x hx
      simp [hp] at hxd
    refine ⟨n, T, ?_, by omega, hadded, hunder, hT⟩
    rw [hstaged, hpast₁, hpast, Tree.modify_append, Tree.modify_last hdest,
      Tree.modify_of_notMem hnot, List.append_assoc]
    rfl

/-- The entry counter does not decrease, and stays within its limit. -/
def Counts (Ws : ℕ → World) (copyDir : Snapshot → Inode → Path → Prog Snapshot) : Prop :=
  ∀ past s source dest, s.entries ≤ 10000 →
    Delivers (law Ws) past (copyDir s source dest) fun _ s' =>
      s.entries ≤ s'.entries ∧ s'.entries ≤ 10000

section
variable {Ws : ℕ → World} {past : List (Answer Op Op.Value)} {s : Snapshot} {dest : Path}
  {copyDir : Snapshot → Inode → Path → Prog Snapshot} {source : Inode}

theorem Counts.copyEntry (hdir : Counts Ws copyDir) (hs : s.entries ≤ 10000) :
    Delivers (law Ws) past (copyEntry copyDir s source name dest) fun _ s' =>
      s.entries ≤ s'.entries ∧ s'.entries ≤ 10000 := by
  apply delivers_call_bind
  intro fd _
  apply delivers_call_bind
  intro st _
  apply delivers_refuse_bind
  intro _
  cases hkind : Info.kind st with
  | symlink =>
    apply delivers_copyLink.mono
    rintro past' s' ⟨_, _, _, _, _, rfl⟩
    exact ⟨le_rfl, hs⟩
  | other => exact delivers_throw
  | dir =>
    apply delivers_call_bind
    intro _ _
    apply delivers_call_bind
    intro _ _
    exact hdir _ _ _ _ hs
  | file =>
    apply delivers_call_bind
    intro _ _
    apply delivers_copyFile.mono
    rintro past' s' ⟨_, _, _, rfl⟩
    exact ⟨le_rfl, hs⟩

theorem Counts.copyBatch (hdir : Counts Ws copyDir) (hs : s.entries ≤ 10000) :
    Delivers (law Ws) past (copyBatch copyDir source dest names s) fun _ s' =>
      s.entries + names.length ≤ s'.entries ∧ s'.entries ≤ 10000 := by
  induction names generalizing past s with
  | nil => exact delivers_pure ⟨le_rfl, hs⟩
  | cons name rest ih =>
    apply delivers_refuse_bind
    intro hnext
    apply delivers_bind
    apply (hdir.copyEntry (not_lt.1 hnext)).mono
    rintro past₁ s₁ ⟨hle₁, hs₁⟩
    apply (ih hs₁).mono
    rintro past₂ s₂ ⟨hle₂, hs₂⟩
    refine ⟨?_, hs₂⟩
    simp only [List.length_cons] at hle₁ ⊢
    omega

theorem Counts.copyLoop {rounds : ℕ} (hdir : Counts Ws copyDir) (hs : s.entries ≤ 10000) :
    Delivers (law Ws) past (copyLoop copyDir source dest perm rounds pos s) fun _ s' =>
      s.entries ≤ s'.entries ∧ s'.entries ≤ 10000 := by
  induction rounds generalizing past pos s with
  | zero => exact delivers_throw
  | succ rounds ih =>
    apply delivers_call_bind
    intro names _
    by_cases hnil : names = []
    · rw [if_pos hnil]
      apply delivers_call_bind
      intro _ _
      exact delivers_pure ⟨le_rfl, hs⟩
    · rw [if_neg hnil]
      apply delivers_bind
      apply (hdir.copyBatch hs).mono
      rintro past₁ s₁ ⟨hle₁, hs₁⟩
      apply (ih hs₁).mono
      rintro past₂ s₂ ⟨hle₂, hs₂⟩
      exact ⟨by omega, hs₂⟩

/-- Every round but the last one counts an entry, so that a loop with rounds for all the
entries that are left does not run out of them: more rounds change nothing. -/
theorem copyLoop_rounds {rounds more : ℕ} (hdir : Counts Ws copyDir)
    (hs : s.entries ≤ 10000) (hrounds : 10001 ≤ s.entries + rounds) :
    Alike (law Ws) past (copyLoop copyDir source dest perm rounds pos s).run
      (copyLoop copyDir source dest perm (rounds + more) pos s).run := by
  induction rounds generalizing past pos s with
  | zero => omega
  | succ rounds ih =>
    rw [Nat.succ_add]
    apply alike_delivers_bind (Q := fun _ _ => True) (delivers_call fun _ _ => trivial)
    intro past₁ names _
    by_cases hnil : names = []
    · rw [if_pos hnil, if_pos hnil]
      exact Alike.refl _
    · rw [if_neg hnil, if_neg hnil]
      apply alike_delivers_bind (hdir.copyBatch hs)
      rintro past₂ s₂ ⟨hle, hs₂⟩
      have hpos : 0 < names.length := List.length_pos_of_ne_nil hnil
      exact ih hs₂ (by omega)

end

theorem counts_copyDir {Ws : ℕ → World} {levels : ℕ} : Counts Ws (copyDir levels) := by
  induction levels with
  | zero =>
    intro past s source dest _
    exact delivers_throw
  | succ levels ih =>
    intro past s source dest hs
    apply delivers_call_bind
    intro st _
    apply delivers_refuse_bind
    intro _
    exact ih.copyLoop hs

/-- Whatever happens between the calls of a copy, it ends: at no depth does the loop over the
batches of a directory need more rounds. -/
theorem copyDir_ends {Ws : ℕ → World} {past : List (Answer Op Op.Value)} {s : Snapshot}
    {source : Inode} {dest : Path} {levels more : ℕ} (hs : s.entries ≤ 10000) :
    Alike (law Ws) past (copyLoop (copyDir levels) source dest perm 10001 pos s).run
      (copyLoop (copyDir levels) source dest perm (10001 + more) pos s).run :=
  copyLoop_rounds counts_copyDir hs (Nat.le_add_left ..)

theorem delivers_validateLinks {Ws : ℕ → World} {past : List (Answer Op Op.Value)} {root : Path}
    {links : List Path} :
    Delivers (law Ws) past (validateLinks root links) fun past' _ => staged past' = staged past ∧
      ∀ link ∈ links, root <+: link ∧
        ∃ q, ((staged past).below root).Resolves [] (link.drop root.length) q := by
  apply delivers_quiet_bind rfl
  intro _ _ past₁ hpast₁ _
  rw [← hpast₁]
  clear hpast₁
  induction links generalizing past₁ with
  | nil => exact delivers_pure ⟨rfl, by simp⟩
  | cons link links ih =>
    apply delivers_bind
    apply delivers_refuse_bind
    intro hunder
    apply delivers_wrap
    apply delivers_call
    rintro _ ⟨q, hq⟩
    have hsame : staged (past₁ ++ [⟨.openat2 root (link.drop root.length), .ok ()⟩]) =
        staged past₁ := staged_append _ _
    apply (ih _).mono
    rintro past₂ _ ⟨hstaged, hlinks⟩
    rw [hsame] at hstaged hlinks
    refine ⟨hstaged, ?_⟩
    intro link' hmem
    rcases List.mem_cons.1 hmem with rfl | hmem
    · exact ⟨not_not.1 hunder, q, hq⟩
    · exact hlinks link' hmem

/-- A staged root, by the paths relative to it, keeps to what may be exported when the key is
the inode `k`. -/
structure Confined (k : Inode) (S : Tree) : Prop where
  keyless : ∀ p chunks perm, (p, Entry.file chunks perm) ∈ S → ∀ c ∈ chunks, c.1 ≠ k
  links : ∀ p target, (p, Entry.symlink target) ∈ S →
    isAbs target = false ∧ ∃ q, S.Resolves [] p q
  bytes : S.size ≤ maxBytes
  entries : (S.filter fun x => x.1 ≠ []).length ≤ 10000
  levels : ∀ p perm, (p, Entry.dir perm) ∈ S → p.length ≤ 128

variable {a : String}

theorem Added.confined {key stage : Info} {s : Snapshot} {T : Tree}
    (h : Added 129 { key, stage } s T) (hunder : ∀ x ∈ T, ∃ name p, x.1 = [a] ++ name :: p)
    (hlinks : ∀ link ∈ s.links, ∃ q,
      (Tree.below [a] (([a], .dir perm) :: T)).Resolves [] (link.drop 1) q) :
    Confined key.inode (Tree.below [a] (([a], .dir perm) :: T)) := by
  have hwithin : s.Within := h.within ⟨Nat.zero_le _, Nat.zero_le _⟩
  have hbelow : Tree.below [a] (([a], .dir perm) :: T) =
      ([], .dir perm) :: T.map fun x => (x.1.drop 1, x.2) := by
    apply Tree.below_of_under
    intro x hx
    rcases List.mem_cons.1 hx with rfl | hx
    · exact List.prefix_rfl
    · obtain ⟨name, p, hp⟩ := hunder x hx
      exact hp ▸ List.prefix_append _ _
  have hmem : ∀ {p e}, (p, e) ∈ Tree.below [a] (([a], .dir perm) :: T) →
      e = .dir perm ∧ p = [] ∨ (a :: p, e) ∈ T := by
    intro p e hp
    rcases List.mem_cons.1 (Tree.mem_below.1 hp) with heq | hT
    · obtain ⟨hp, he⟩ := Prod.mk.inj heq
      exact .inl ⟨he, by simpa using hp⟩
    · exact .inr hT
  constructor
  case keyless =>
    intro p chunks perm' hp c hc
    rcases hmem hp with ⟨he, -⟩ | hT
    · cases he
    · intro hk
      exact h.keyless _ hT (List.mem_map.2 ⟨c, hc, hk⟩)
  case links =>
    intro p target hp
    rcases hmem hp with ⟨he, -⟩ | hT
    · cases he
    · have hlink : a :: p ∈ s.links := by
        rw [h.links]
        exact List.mem_map.2 ⟨_, List.mem_filter.2 ⟨hT, rfl⟩, rfl⟩
      exact ⟨h.relative _ hT target rfl, hlinks _ hlink⟩
  case bytes =>
    have hsize : Tree.size (([], .dir perm) :: T.map fun x => (x.1.drop 1, x.2)) = s.bytes := by
      rw [h.bytes]
      simp [Tree.size, Entry.data, Function.comp_def]
    rw [hbelow, hsize]
    exact hwithin.bytes
  case entries =>
    rw [hbelow, List.filter_cons_of_neg (by simp)]
    refine (List.length_filter_le _ _).trans ?_
    have hentries := h.entries
    have hmax := hwithin.entries
    simp only [List.length_map]
    omega
  case levels =>
    intro p perm' hp
    rcases hmem hp with ⟨-, rfl⟩ | hT
    · exact Nat.zero_le _
    · have hlen := h.shallow _ hT rfl
      simp only [List.length_cons] at hlen
      omega

def Rooted (S : Tree) : Prop := ∀ x ∈ S, ∃ a, [a] ∈ S.paths ∧ [a] <+: x.1

theorem Rooted.append {S C : Tree} (h : Rooted S) (ha : [a] ∈ C.paths)
    (hC : ∀ x ∈ C, [a] <+: x.1) : Rooted (S ++ C) := by
  intro x hx
  simp only [Tree.paths, List.map_append, List.mem_append]
  rcases List.mem_append.1 hx with hx | hx
  · obtain ⟨b, hb, hbx⟩ := h x hx
    exact ⟨b, .inl hb, hbx⟩
  · exact ⟨a, .inr ha, hC x hx⟩

theorem eq_of_head {b : String} {p : Path} (ha : [a] <+: p) (hb : [b] <+: p) : [a] = [b] :=
  (List.prefix_of_prefix_length_le ha hb le_rfl).eq_of_length rfl

theorem Rooted.apart {S : Tree} (h : Rooted S) (ha : [a] ∉ S.paths) : ∀ x ∈ S, ¬ [a] <+: x.1 := by
  intro x hx hax
  obtain ⟨b, hb, hbx⟩ := h x hx
  exact ha (eq_of_head hax hbx ▸ hb)

variable {keyPath : String} {roots : List String} {decode : List UInt8 → Option (List UInt8)}

section
variable {Ws : ℕ → World} {past : List (Answer Op Op.Value)}

theorem delivers_stageRoot {key stage : Info} {source : Inode} (hroot : Rooted (staged past)) :
    Delivers (law Ws) past (stageRoot { key, stage } source [a]) fun past' _ => ∃ C,
      staged past' = staged past ++ C ∧ [a] ∉ (staged past).paths ∧ [a] ∈ C.paths ∧
      (∀ x ∈ C, [a] <+: x.1) ∧ Confined key.inode (C.below [a]) ∧
      ∀ W, Constant Ws W source → (W.node source).kind = .dir → Mirrors W source [a] C := by
  apply delivers_call_bind
  intro _ hnew
  have hdir : CopiesDir Ws 129 (copyDir 129) [a] := copiesDir_copyDir rfl
  apply delivers_bind
  apply (hdir _ _ source (staged past) 0o700 (staged_append _ _) hnew).mono
  rintro past₁ s ⟨n, T, hstaged, -, hadded, hunder, hT⟩
  apply delivers_validateLinks.mono
  rintro past₂ _ ⟨hsame, hlinks⟩
  have hbelow : (staged past₁).below [a] =
      Tree.below [a] (([a], .dir ((Ws n).perm source)) :: T) := by
    rw [hstaged, Tree.below_append, Tree.below_of_apart (hroot.apart hnew), List.nil_append]
  rw [hbelow] at hlinks
  refine ⟨_, hsame.trans hstaged, hnew, List.mem_cons_self, ?_,
    hadded.confined hunder fun link hlink => (hlinks link hlink).2, ?_⟩
  · intro x hx
    rcases List.mem_cons.1 hx with rfl | hx
    · exact List.prefix_rfl
    · obtain ⟨name, p, hp⟩ := hunder x hx
      exact hp ▸ List.prefix_append _ _
  · intro W hW hkind
    have h := mirrors_dir hunder (hT W hW)
    have hentry : W.entry source = .dir ((Ws n).perm source) := by
      rw [World.entry, (hW n [] source rfl).2]
      revert hkind
      cases W.node source <;> simp [Node.kind]
    rwa [hentry] at h

/-- The copies of the local roots. A root staged before is left alone. -/
theorem delivers_stageRoots {resolvedKey : String} {key stage : Info} {i : ℕ}
    {W : World} (hroot : Rooted (staged past)) :
    Delivers (law Ws) past (stageRoots keyPath resolvedKey key stage i roots) fun past' dests =>
      (∀ a, [a] ∈ (staged past).paths → (staged past').below [a] = (staged past).below [a]) ∧
      List.Forall₂ (fun root dest => Confined key.inode ((staged past').below dest) ∧
        ∃ path r, ⟨.abs root, .ok path⟩ ∈ past' ∧ ⟨.openDirectory path, .ok r⟩ ∈ past' ∧
          (Constant Ws W r → Mirrors W r [] ((staged past').below dest))) roots dests := by
  induction roots generalizing past i with
  | nil => exact delivers_pure ⟨fun _ _ => rfl, .nil⟩
  | cons root roots ih =>
    apply delivers_call_bind
    intro path _
    apply delivers_call_bind
    intro resolvedRoot _
    apply delivers_refuse_bind
    intro _
    apply delivers_call_bind
    intro r hkind
    obtain ⟨n, hkind⟩ : ∃ n, ((Ws n).node r).kind = .dir := ⟨_, hkind⟩
    obtain ⟨past₁, hpast₁⟩ : ∃ past₁, past₁ = past ++ [⟨.abs root, .ok path⟩] ++
      [⟨.evalSymlinks path, .ok resolvedRoot⟩] ++ [⟨.openDirectory path, .ok r⟩] := ⟨_, rfl⟩
    have hsame : staged past₁ = staged past := by
      rw [hpast₁]
      simp only [staged_append]
      rfl
    have hcalls : ⟨.abs root, .ok path⟩ ∈ past₁ ∧ ⟨.openDirectory path, .ok r⟩ ∈ past₁ := by
      simp [hpast₁]
    rw [← hpast₁]
    generalize "local-" ++ toString i = name
    apply delivers_bind
    apply delivers_wrap
    have hroot₁ : Rooted (staged past₁) := hsame ▸ hroot
    apply (delivers_stageRoot hroot₁).extends.mono
    rintro past₂ _ ⟨hpast₂, C, hstaged, hnew, hhead, hunder, hconf, hC⟩
    have hroot₂ : Rooted (staged past₂) := hstaged ▸ hroot₁.append hhead hunder
    apply delivers_bind
    apply (ih hroot₂).extends.mono
    rintro past₃ dests ⟨hpast₃, hkeep, hrest⟩
    apply delivers_pure
    have hpaths : ∀ p, p ∈ (staged past₂).paths ↔ p ∈ (staged past).paths ∨ p ∈ C.paths := by
      intro p
      rw [hstaged, hsame]
      simp [Tree.paths]
    have hbelow : (staged past₃).below [name] = C.below [name] := by
      rw [hkeep name ((hpaths _).2 (.inr hhead)), hstaged, Tree.below_append,
        Tree.below_of_apart (hroot₁.apart hnew), List.nil_append]
    refine ⟨?_, .cons ⟨hbelow ▸ hconf, path, r, ?_, ?_, ?_⟩ hrest⟩
    · intro a ha
      have hapart : ∀ x ∈ C, ¬ [a] <+: x.1 := by
        intro x hx hax
        rw [← eq_of_head hax (hunder x hx), hsame] at hnew
        exact hnew ha
      rw [hkeep a ((hpaths _).2 (.inl ha)), hstaged, hsame, Tree.below_append,
        Tree.below_of_apart hapart, List.append_nil]
    · exact hpast₃.subset (hpast₂.subset hcalls.1)
    · exact hpast₃.subset (hpast₂.subset hcalls.2)
    · intro hW p e
      rw [hbelow, List.nil_append, Tree.mem_below]
      exact hC W hW (hW.node n ▸ hkind) p e

theorem delivers_readKey {k : Inode} :
    Delivers (law Ws) past (readKey decode k) fun past' key => staged past' = staged past ∧
      ∃ raw, ⟨.readAll k 4097, .ok raw⟩ ∈ past' ∧ decode raw = some key := by
  apply delivers_call_bind
  intro _ _
  apply delivers_call_bind
  intro raw _
  cases hdecode : decode raw with
  | none => exact delivers_throw
  | some key =>
    apply delivers_refuse_bind
    intro _
    apply delivers_pure
    refine ⟨?_, raw, by simp, hdecode⟩
    simp only [staged_append]
    rfl

theorem delivers_prepareBaseBuild {stage : String} {W : World} (hstart : staged past = []) :
    Delivers (law Ws) past (prepareBaseBuild decode keyPath stage roots) fun past' result =>
      ∃ path k raw, ⟨.openPath path, .ok k⟩ ∈ past' ∧ ⟨.readAll k 4097, .ok raw⟩ ∈ past' ∧
        decode raw = some result.1 ∧
        List.Forall₂ (fun root dest => Confined k ((staged past').below dest) ∧
          ∃ path r, ⟨.abs root, .ok path⟩ ∈ past' ∧ ⟨.openDirectory path, .ok r⟩ ∈ past' ∧
            (Constant Ws W r → Mirrors W r [] ((staged past').below dest))) roots result.2 := by
  apply delivers_call_bind
  intro keyPath _
  apply delivers_call_bind
  intro resolvedKey _
  apply delivers_call_bind
  intro k _
  apply delivers_call_bind
  intro keyInfo hinfo
  obtain ⟨n, rfl⟩ : ∃ n, keyInfo = (Ws n).info k := ⟨_, hinfo⟩
  apply delivers_refuse_bind
  intro _
  apply delivers_call_bind
  intro stageInfo _
  obtain ⟨past₁, hpast₁⟩ : ∃ past₁, past₁ = past ++ [⟨.abs _, .ok keyPath⟩] ++
    [⟨.evalSymlinks keyPath, .ok resolvedKey⟩] ++ [⟨.openPath resolvedKey, .ok k⟩] ++
    [⟨.fstat k, .ok ((Ws n).info k)⟩] ++ [⟨.stat stage, .ok stageInfo⟩] := ⟨_, rfl⟩
  rw [← hpast₁]
  have hroot : Rooted (staged past₁) := by
    have hempty : staged past₁ = [] := by
      rw [hpast₁, ← hstart]
      simp only [staged_append]
      rfl
    rw [hempty]
    exact fun x hx => absurd hx List.not_mem_nil
  have hopen : ⟨.openPath resolvedKey, .ok k⟩ ∈ past₁ := by simp [hpast₁]
  apply delivers_bind
  apply (delivers_stageRoots hroot).extends.mono
  rintro past₂ dests ⟨hpast₂, -, hdests⟩
  apply delivers_bind
  apply delivers_readKey.extends.mono
  rintro past₃ key ⟨hpast₃, hstaged, raw, hraw, hdecode⟩
  apply delivers_pure
  refine ⟨resolvedKey, k, raw, hpast₃.subset (hpast₂.subset hopen), hraw, hdecode, ?_⟩
  apply hdests.imp
  rintro root dest ⟨hconf, path, r, habs, hdir, hW⟩
  rw [hstaged]
  exact ⟨hconf, path, r, hpast₃.subset habs, hpast₃.subset hdir, hW⟩

end

/-- Whether a world is met depends on the calls alone. -/
theorem answered_congr {Ws Ws' : ℕ → World} {past : List (Answer Op Op.Value)}
    (h : Answered (law Ws) past calls)
    (hsame : ∀ n < past.length + calls.length, Ws' n = Ws n) :
    Answered (law Ws') past calls := by
  induction calls generalizing past with
  | nil => trivial
  | cons c calls ih =>
    have hlen : past.length < past.length + (c :: calls).length := by simp
    refine ⟨?_, ih h.2 fun n hn => hsame n ?_⟩
    · have hnow := h.1
      obtain ⟨o, r⟩ := c
      cases r with
      | error e => trivial
      | ok v =>
        change Answers (Ws' past.length) (staged past) o v
        rw [hsame _ hlen]
        exact hnow
    · simp only [List.length_append, List.length_cons, List.length_nil] at hn ⊢
      omega

/-- Between the calls of a preparation the sources may change in any way: call number `n`
meets the world `Ws n`. If the preparation succeeds, the returned key was read from a pinned
inode `k`, and no byte of a staged file was read from `k`; the staged symlinks are relative
and resolve within their root, and the roots keep to their budgets. A source directory that
is in `W` what it is in every world of the preparation has been staged as it is. -/
theorem signing_key_not_exported {Ws : ℕ → World} {stage : String}
    {key : List UInt8} {dests : List Path}
    (hrun : (prepareBaseBuild decode keyPath stage roots).run.Makes calls
      (.pure (.ok (key, dests)))) (hans : Answered (law Ws) [] calls) (W : World) :
    ∃ path k raw, ⟨.openPath path, .ok k⟩ ∈ calls ∧ ⟨.readAll k 4097, .ok raw⟩ ∈ calls ∧
      decode raw = some key ∧
      List.Forall₂ (fun root dest =>
        Confined k ((staged calls).below dest) ∧ ((staged calls).below dest).paths.Nodup ∧
        ∃ path r, ⟨.abs root, .ok path⟩ ∈ calls ∧ ⟨.openDirectory path, .ok r⟩ ∈ calls ∧
          ((∀ n < calls.length, ∀ p i, W.at_ r p = some i →
              (Ws n).node i = W.node i ∧ (Ws n).perm i = W.perm i) →
            ∀ p e, (p, e) ∈ (staged calls).below dest ↔
              ∃ i, W.at_ r p = some i ∧ W.entry i = e)) roots dests := by
  -- after the last call the world may as well be `W`
  let Ws' : ℕ → World := fun n => if n < calls.length then Ws n else W
  have hans' : Answered (law Ws') [] calls :=
    answered_congr hans fun n hn => if_pos (by simpa using hn)
  have hspec := @delivers_prepareBaseBuild keyPath roots decode Ws' [] stage W rfl
  obtain ⟨path, k, raw, hopen, hraw, hdecode, hdests⟩ := hspec.of_makes hrun hans'
  refine ⟨path, k, raw, hopen, hraw, hdecode, hdests.imp ?_⟩
  rintro root dest ⟨hconf, path, r, habs, hdir, hW⟩
  have hnodup : (staged ([] ++ calls)).paths.Nodup := nodup_staged List.nodup_nil hans
  refine ⟨hconf, Tree.nodup_below hnodup, path, r, habs, hdir, ?_⟩
  intro hconstant
  apply hW
  intro n p i hi
  by_cases hn : n < calls.length
  · rw [show Ws' n = Ws n from if_pos hn]
    exact hconstant n hn p i hi
  · rw [show Ws' n = W from if_neg hn]
    exact ⟨rfl, rfl⟩

def sampleWorld : World where
  node
    | 1 => .file (List.replicate 64 7)
    | 2 => .dir [("a", 3), ("b", 4)]
    | 3 => .file [5, 6]
    | 4 => .symlink "a"
    | _ => .other
  perm _ := 0o644

theorem copyDir_ends_sample : Alike (law fun _ => sampleWorld) []
      (copyLoop (copyDir 128) 2 [] 0o644 10001 0 ⟨sampleWorld.info 1, sampleWorld.info 2, 0, 0, []⟩).run
      (copyLoop (copyDir 128) 2 [] 0o644 10002 0 ⟨sampleWorld.info 1, sampleWorld.info 2, 0, 0, []⟩).run :=
  @copyDir_ends _ _ _ _ _ _ _ _ 1 (Nat.zero_le _)

def sampleCalls : List (Answer Op Op.Value) :=
  [⟨.abs "key", .ok "/key"⟩, ⟨.evalSymlinks "/key", .ok "/key"⟩, ⟨.openPath "/key", .ok 1⟩,
    ⟨.fstat 1, .ok (sampleWorld.info 1)⟩, ⟨.stat "/tmp", .ok ⟨9, .dir, 0, 0o700⟩⟩,
    ⟨.abs "src", .ok "/src"⟩, ⟨.evalSymlinks "/src", .ok "/src"⟩, ⟨.openDirectory "/src", .ok 2⟩,
    ⟨.mkdir ["local-0"], .ok ()⟩, ⟨.fstat 2, .ok (sampleWorld.info 2)⟩,
    ⟨.readDir 2 0, .ok ["a", "b"]⟩,
    ⟨.openat 2 "a", .ok 3⟩, ⟨.fstat 3, .ok (sampleWorld.info 3)⟩, ⟨.reopen 3, .ok ()⟩,
    ⟨.create ["local-0", "a"], .ok ()⟩, ⟨.copy 3 (maxBytes + 1) ["local-0", "a"], .ok [5, 6]⟩,
    ⟨.chmod ["local-0", "a"] 0o644, .ok ()⟩, ⟨.close ["local-0", "a"], .ok ()⟩,
    ⟨.openat 2 "b", .ok 4⟩, ⟨.fstat 4, .ok (sampleWorld.info 4)⟩, ⟨.readlinkat 4, .ok "a"⟩,
    ⟨.symlink "a" ["local-0", "b"], .ok ()⟩,
    ⟨.readDir 2 2, .ok []⟩, ⟨.chmod ["local-0"] 0o644, .ok ()⟩,
    ⟨.openRoot ["local-0"], .ok ()⟩, ⟨.openat2 ["local-0"] ["b"], .ok ()⟩,
    ⟨.reopen 1, .ok ()⟩, ⟨.readAll 1 4097, .ok (List.replicate 64 7)⟩]

theorem sampleCalls_made : (prepareBaseBuild some "key" "/tmp" ["src"]).run.Makes sampleCalls
    (.pure (.ok (List.replicate 64 7, [["local-0"]]))) :=
  Program.makes_of_follow (by decide +kernel)

theorem sampleCalls_answered : Answered (law fun _ => sampleWorld) [] sampleCalls := by
  refine ⟨trivial, trivial, trivial, rfl, trivial, trivial, trivial, rfl, ?_, rfl,
    ⟨by decide, by decide⟩, rfl, rfl, trivial, ?_, rfl, trivial, trivial, rfl, rfl,
    ⟨"a", rfl, rfl⟩, ?_, ⟨by decide, fun _ => by decide⟩, trivial, trivial, ?_, trivial, trivial,
    trivial⟩
  · change ["local-0"] ∉ Tree.paths (staged (sampleCalls.take 8))
    decide
  · change ["local-0", "a"] ∉ Tree.paths (staged (sampleCalls.take 14))
    decide
  · change ["local-0", "b"] ∉ Tree.paths (staged (sampleCalls.take 21))
    decide
  · have hlink : (["b"], Entry.symlink "a") ∈
        Tree.below ["local-0"] (staged (sampleCalls.take 25)) := by decide
    have hfile : (["a"], Entry.file [(3, [5, 6])] 0o644) ∈
        Tree.below ["local-0"] (staged (sampleCalls.take 25)) := by decide
    exact ⟨["a"], .follow hlink rfl (.file hfile)⟩

theorem signing_key_not_exported_sample : ∃ k, Confined k ((staged sampleCalls).below ["local-0"]) ∧
      (["a"], .file [(3, [5, 6])] 0o644) ∈ (staged sampleCalls).below ["local-0"] := by
  obtain ⟨_, k, _, -, -, -, hdests⟩ :=
    signing_key_not_exported sampleCalls_made sampleCalls_answered sampleWorld
  obtain ⟨⟨hconf, -, path, r, -, hopen, hsame⟩, -⟩ := List.forall₂_cons.1 hdests
  have hr : r = 2 := by
    simp [sampleCalls] at hopen
    exact hopen.2
  subst hr
  exact ⟨k, hconf, (hsame (fun _ _ _ _ _ => ⟨rfl, rfl⟩) _ _).2 ⟨3, rfl, rfl⟩⟩

end Niflhel.BuildSnapshot
