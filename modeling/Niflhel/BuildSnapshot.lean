import Niflhel.Fallible
import Niflhel.GoText
import Mathlib.Data.List.Infix

/-!
# Staging of the build context

`nifl build` copies the local roots of a base build into a private stage before BuildKit
sees them (`internal/cli/build_snapshot.go`). Inodes are numbers; what they hold may change
between any two system calls, so that the source of a call is a world of its own. The stage
is written by the copy alone, and its contents are those its calls have put there. Closing a
source descriptor, whose error is ignored, changes nothing and is left out.
-/

namespace Niflhel.BuildSnapshot
open Concurrent GoText

abbrev Inode := ℕ

abbrev Path := List String

inductive Kind where
  | file | dir | symlink | other
  deriving DecidableEq, Repr

structure Info where
  inode : Inode
  kind : Kind
  size : ℕ
  perm : ℕ
  deriving DecidableEq, Repr

def sameFile (a b : Info) : Prop := a.inode = b.inode

instance (a b : Info) : Decidable (sameFile a b) := inferInstanceAs (Decidable (_ = _))

inductive Node where
  | file (data : List UInt8)
  | dir (entries : List (String × Inode))
  | symlink (target : String)
  | other

def Node.kind : Node → Kind
  | .file _ => .file
  | .dir _ => .dir
  | .symlink _ => .symlink
  | .other => .other

structure World where
  node : Inode → Node
  perm : Inode → ℕ

namespace World

def data (W : World) (i : Inode) : List UInt8 :=
  match W.node i with
  | .file data => data
  | _ => []

def entries (W : World) (i : Inode) : List (String × Inode) :=
  match W.node i with
  | .dir entries => entries
  | _ => []

def names (W : World) (i : Inode) : List String := (W.entries i).map Prod.fst

def info (W : World) (i : Inode) : Info :=
  { inode := i, kind := (W.node i).kind, size := (W.data i).length, perm := W.perm i }

def at_ (W : World) : Inode → Path → Option Inode
  | i, [] => some i
  | i, name :: rest => ((W.entries i).lookup name).bind fun j => W.at_ j rest

end World

/-- What a path of the stage holds. A file remembers from which inodes its bytes were read. -/
inductive Entry where
  | file (chunks : List (Inode × List UInt8)) (perm : ℕ)
  | dir (perm : ℕ)
  | symlink (target : String)
  | other
  deriving DecidableEq, Repr

namespace Entry

def data : Entry → List UInt8
  | .file chunks _ => chunks.flatMap Prod.snd
  | _ => []

def origins : Entry → List Inode
  | .file chunks _ => chunks.map Prod.fst
  | _ => []

def isLink : Entry → Bool
  | .symlink _ => true
  | _ => false

def isDir : Entry → Bool
  | .dir _ => true
  | _ => false

def append (i : Inode) (data : List UInt8) : Entry → Entry
  | .file chunks perm => .file (chunks ++ [(i, data)]) perm
  | e => e

def chmod (perm : ℕ) : Entry → Entry
  | .file chunks _ => .file chunks perm
  | .dir _ => .dir perm
  | e => e

end Entry

abbrev Tree := List (Path × Entry)

namespace Tree

def paths (S : Tree) : List Path := S.map Prod.fst

def modify (S : Tree) (p : Path) (f : Entry → Entry) : Tree :=
  S.map fun x => if x.1 = p then (x.1, f x.2) else x

def below (root : Path) (S : Tree) : Tree :=
  S.filterMap fun x => if root <+: x.1 then some (x.1.drop root.length, x.2) else none

def size (S : Tree) : ℕ := (S.map fun x => x.2.data.length).sum

/-- Resolution of the names `todo` from the directory `cur` of a tree, following symlinks,
ends at `q`. No step leads above the root of the tree or to an absolute path. -/
inductive Resolves (S : Tree) : Path → List String → Path → Prop where
  | done {cur : Path} : Resolves S cur [] cur
  | stay {cur q : Path} {name : String} {todo : List String} (hname : name = "" ∨ name = ".")
      (h : Resolves S cur todo q) : Resolves S cur (name :: todo) q
  | up {cur q : Path} {name : String} {todo : List String} (h : Resolves S cur todo q) :
      Resolves S (cur ++ [name]) (".." :: todo) q
  | enter {cur q : Path} {name : String} {todo : List String} {perm : ℕ}
      (hdir : (cur ++ [name], Entry.dir perm) ∈ S) (h : Resolves S (cur ++ [name]) todo q) :
      Resolves S cur (name :: todo) q
  | file {cur : Path} {name : String} {chunks : List (Inode × List UInt8)} {perm : ℕ}
      (hfile : (cur ++ [name], Entry.file chunks perm) ∈ S) :
      Resolves S cur [name] (cur ++ [name])
  | follow {cur q : Path} {name target : String} {todo : List String}
      (hlink : (cur ++ [name], Entry.symlink target) ∈ S) (habs : isAbs target = false)
      (h : Resolves S cur (split target '/' ++ todo) q) : Resolves S cur (name :: todo) q

end Tree

inductive Op where
  | abs (path : String)
  | evalSymlinks (path : String)
  /-- `unix.Open` with `O_PATH`. -/
  | openPath (path : String)
  /-- `unix.Open` with `O_DIRECTORY`. -/
  | openDirectory (path : String)
  | stat (path : String)
  | fstat (i : Inode)
  /-- `unix.Openat` with `O_PATH|O_NOFOLLOW`. -/
  | openat (dir : Inode) (name : String)
  /-- `ReadDir(128)` on a descriptor that has given `pos` entries so far. No entry is
  `io.EOF`. -/
  | readDir (dir : Inode) (pos : ℕ)
  | readlinkat (i : Inode)
  /-- `os.Open` of `/proc/self/fd/N`. -/
  | reopen (i : Inode)
  | mkdir (p : Path)
  | symlink (target : String) (p : Path)
  /-- `os.OpenFile` with `O_CREATE|O_EXCL`. -/
  | create (p : Path)
  /-- `io.Copy` from `io.LimitReader` of the inode. -/
  | copy (i : Inode) (limit : ℕ) (p : Path)
  | chmod (p : Path) (perm : ℕ)
  | close (p : Path)
  | openRoot (p : Path)
  /-- `unix.Openat2` with `RESOLVE_BENEATH|RESOLVE_NO_MAGICLINKS`. -/
  | openat2 (root rel : Path)
  /-- `io.ReadAll` from `io.LimitReader` of the inode. -/
  | readAll (i : Inode) (limit : ℕ)
  deriving DecidableEq, Repr

abbrev Op.Value : Op → Type
  | .abs _ | .evalSymlinks _ | .readlinkat _ => String
  | .openPath _ | .openDirectory _ | .openat _ _ => Inode
  | .stat _ | .fstat _ => Info
  | .readDir _ _ => List String
  | .copy _ _ _ | .readAll _ _ => List UInt8
  | .reopen _ | .mkdir _ | .symlink _ _ | .create _ | .chmod _ _ | .close _ | .openRoot _
  | .openat2 _ _ => Unit

abbrev Prog := Fallible Op Op.Value

abbrev sys (o : Op) : Prog o.Value := Fallible.call o

/-- The effect of a call on the stage. A call that fails ends the whole preparation, so that
what it leaves in the stage is never exported and not recorded. -/
def Tree.apply (S : Tree) : Answer Op Op.Value → Tree
  | ⟨.mkdir p, .ok _⟩ => S ++ [(p, .dir 0o700)]
  | ⟨.symlink target p, .ok _⟩ => S ++ [(p, .symlink target)]
  | ⟨.create p, .ok _⟩ => S ++ [(p, .file [] 0o600)]
  | ⟨.copy i _ p, .ok data⟩ => S.modify p (Entry.append i data)
  | ⟨.chmod p perm, .ok _⟩ => S.modify p (Entry.chmod perm)
  | _ => S

def staged (calls : List (Answer Op Op.Value)) : Tree := calls.foldl Tree.apply []

def Answers (W : World) (S : Tree) : (o : Op) → o.Value → Prop
  | .openDirectory _, i => (W.node i).kind = .dir
  | .fstat i, info => info = W.info i
  | .openat dir name, i => (W.entries dir).lookup name = some i
  | .readDir dir pos, names =>
      names <+: (W.names dir).drop pos ∧ (names = [] → (W.names dir).length ≤ pos)
  | .readlinkat i, target => ∃ whole, W.node i = .symlink whole ∧
      (if whole.utf8ByteSize < 4096 then target = whole else target.utf8ByteSize = 4096)
  | .copy i limit _, data => data = (W.data i).take limit
  | .mkdir p, _ => p ∉ S.paths
  | .symlink _ p, _ => p ∉ S.paths
  | .create p, _ => p ∉ S.paths
  | .openat2 root rel, _ => ∃ q, (S.below root).Resolves [] rel q
  | _, _ => True

/-- The law of the system calls, when the call number `n` meets the world `Ws n`. -/
def law (Ws : ℕ → World) (past : List (Answer Op Op.Value)) (o : Op) (v : o.Value) : Prop :=
  Answers (Ws past.length) (staged past) o v

def maxBytes : ℕ := 512 * 2 ^ 20

structure Snapshot where
  key : Info
  stage : Info
  bytes : ℕ := 0
  entries : ℕ := 0
  links : List Path := []
  deriving DecidableEq, Repr

def components (p : String) : List String :=
  ((split p '/').foldl (cleanStep (isAbs p)) []).reverse

def dropCommon : List String → List String → List String × List String
  | a :: as, b :: bs => if a = b then dropCommon as bs else (a :: as, b :: bs)
  | as, bs => (as, bs)

def rel (base targ : String) : String :=
  let (up, down) := dropCommon (components base) (components targ)
  if up = [] ∧ down = [] then "." else joinSlash (up.map (fun _ => "..") ++ down)

def withinExportedRoot (root name : String) : Bool :=
  rel root name ≠ ".." && !hasPrefix (rel root name) "../"

example : withinExportedRoot "/src" "/src/keys/release" = true ∧
    withinExportedRoot "/src" "/srckeys" = false ∧ withinExportedRoot "/src" "/src/" = true := by
  decide

def copyLink (s : Snapshot) (fd : Inode) (dest : Path) : Prog Snapshot := do
  let target ← sys (.readlinkat fd)
  Fallible.refuse (target.utf8ByteSize = 4096 ∨ isAbs target = true)
    "base build symlinks must be relative and confined to their local root"
  sys (.symlink target dest)
  return { s with links := s.links ++ [dest] }

def copyFile (s : Snapshot) (fd : Inode) (st : Info) (dest : Path) : Prog Snapshot := do
  let remaining := maxBytes - s.bytes
  Fallible.refuse (st.size > remaining) "base build local exceeds 512 MiB"
  sys (.create dest)
  Fallible.andFinally (do
    let data ← sys (.copy fd (remaining + 1) dest)
    Fallible.refuse (data.length > remaining) "base build local exceeds 512 MiB"
    sys (.chmod dest st.perm)
    return { s with bytes := s.bytes + data.length }) (sys (.close dest))

/-- The method `copyEntry`, with the method `copyDir` one level down. -/
def copyEntry (copyDir : Snapshot → Inode → Path → Prog Snapshot) (s : Snapshot)
    (parent : Inode) (name : String) (dest : Path) : Prog Snapshot := do
  let fd ← sys (.openat parent name)
  let st ← sys (.fstat fd)
  Fallible.refuse (sameFile st s.key)
    "publisher signing key has an alias in a BuildKit local root"
  match st.kind with
  | .symlink => copyLink s fd dest
  | .other =>
    throw "base build locals support only regular files, directories and confined relative symlinks"
  | .dir => do
    sys (.reopen fd)
    sys (.mkdir dest)
    copyDir s fd dest
  | .file => do
    sys (.reopen fd)
    copyFile s fd st dest

def copyBatch (copyDir : Snapshot → Inode → Path → Prog Snapshot) (source : Inode) (dest : Path) :
    List String → Snapshot → Prog Snapshot
  | [], s => return s
  | name :: rest, s => do
    let s := { s with entries := s.entries + 1 }
    Fallible.refuse (s.entries > 10000) "base build local exceeds 10,000 entries"
    let s ← copyEntry copyDir s source name (dest ++ [name])
    copyBatch copyDir source dest rest s

/-- The loop of `copyDir`. Every batch but the last holds an entry, so that the limit on the
entries ends it: `copyLoop_rounds` says that it never runs out of rounds. -/
def copyLoop (copyDir : Snapshot → Inode → Path → Prog Snapshot) (source : Inode) (dest : Path)
    (perm : ℕ) : (rounds pos : ℕ) → Snapshot → Prog Snapshot
  | 0, _, _ => throw "base build local exceeds 10,000 entries"
  | rounds + 1, pos, s => do
    let names ← sys (.readDir source pos)
    if names = [] then do
      sys (.chmod dest perm)
      return s
    else do
      let s ← copyBatch copyDir source dest names s
      copyLoop copyDir source dest perm rounds (pos + names.length) s

/-- The method `copyDir`; at depth `d` there are `129 - d` levels left. -/
def copyDir : (levels : ℕ) → Snapshot → Inode → Path → Prog Snapshot
  | 0, _, _, _ => throw "base build local exceeds 128 directory levels"
  | levels + 1, s, source, dest => do
    let st ← sys (.fstat source)
    Fallible.refuse (sameFile st s.stage) "base build staging directory must be outside local roots"
    copyLoop (copyDir levels) source dest (st.perm) 10001 0 s

def validateLink (root link : Path) : Prog Unit := do
  Fallible.refuse (¬ root <+: link) "Rel: can't make the link relative to its root"
  Fallible.wrap "base build symlink must resolve within its local root: "
    (sys (.openat2 root (link.drop root.length)))

def validateLinks (root : Path) (links : List Path) : Prog Unit := do
  sys (.openRoot root)
  links.forM (validateLink root)

def stageRoot (s : Snapshot) (source : Inode) (dest : Path) : Prog Unit := do
  sys (.mkdir dest)
  let s ← copyDir 129 s source dest
  validateLinks dest s.links

def stageRoots (keyPath resolvedKey : String) (key stage : Info) :
    (i : ℕ) → List String → Prog (List Path)
  | _, [] => return []
  | i, root :: roots => do
    let root ← sys (.abs root)
    let resolvedRoot ← sys (.evalSymlinks root)
    Fallible.refuse (withinExportedRoot root keyPath || withinExportedRoot resolvedRoot resolvedKey)
      "publisher signing key must be outside BuildKit local roots"
    let source ← sys (.openDirectory root)
    let dest := ["local-" ++ toString i]
    Fallible.wrap "stage BuildKit local root: " (stageRoot { key, stage } source dest)
    let snapshots ← stageRoots keyPath resolvedKey key stage (i + 1) roots
    return dest :: snapshots

/-- The reading of the key at the end of `prepareBaseBuild`; `decode` is the base64 decoding
of the trimmed text. -/
def readKey (decode : List UInt8 → Option (List UInt8)) (k : Inode) : Prog (List UInt8) := do
  sys (.reopen k)
  let raw ← sys (.readAll k 4097)
  match decode raw with
  | some key => do
    Fallible.refuse (raw.length > 4096 ∨ key.length ≠ 64)
      "invalid Ed25519 publisher signing key"
    return key
  | none => throw "invalid Ed25519 publisher signing key"

def prepareBaseBuild (decode : List UInt8 → Option (List UInt8)) (keyPath stage : String)
    (roots : List String) : Prog (List UInt8 × List Path) := do
  let keyPath ← sys (.abs keyPath)
  let resolvedKey ← sys (.evalSymlinks keyPath)
  let k ← sys (.openPath resolvedKey)
  let keyInfo ← sys (.fstat k)
  Fallible.refuse (keyInfo.kind ≠ .file ∨ keyInfo.size > 4096)
    "publisher signing key must be a regular file of at most 4096 bytes"
  let stageInfo ← sys (.stat stage)
  let snapshots ← stageRoots keyPath resolvedKey keyInfo stageInfo 0 roots
  let key ← readKey decode k
  return (key, snapshots)

end Niflhel.BuildSnapshot
