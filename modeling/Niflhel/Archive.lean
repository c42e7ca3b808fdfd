import Niflhel.Extraction
import Niflhel.Journal

/-!
# Archiving a tree

`archiveFile` walks a file or directory and writes a tar stream. The walk stops at the first
object it cannot archive; the deferred `Close` then still ends the stream with a trailer,
unless the content of the last entry is incomplete. What the walk finds on the disk is given
as a tree, and the encoding of a header is a parameter.
-/

namespace Niflhel
namespace Filecopy
open GoText

mutual

/-- An open file. Reading a regular file yields `content` and then `readErr` or its end. -/
inductive Node (τ : Type) where
  | unknown (statErr : String)
  | other
  | file (info : τ) (size : ℕ) (content : Bytes) (readErr : Option String)
  | dir (info : τ) (listErr : Option String) (entries : Entries τ)

inductive Entries (τ : Type) where
  | nil
  | unopened (name openErr : String) (rest : Entries τ)
  | cons (name : String) (child : Node τ) (closeErr : Option String) (rest : Entries τ)

end

/-- The tar writer and the counters of the walk. `left` is the part of the current content
that is still to come, and `pad` its padding. -/
structure Walk where
  writes : List Bytes := []
  count : ℕ := 0
  total : ℤ := 0
  left : ℕ := 0
  pad : ℕ := 0

def Walk.put (w : Walk) (b : Bytes) : Walk := { w with writes := w.writes ++ [b] }

def Walk.flush (w : Walk) : Walk := { w.put (List.replicate w.pad 0) with pad := 0 }

/-- `WriteHeader`, which first completes the padding of the entry before. A header can take
several writes. -/
def Walk.header (w : Walk) (encoded : Except String (List Bytes)) (size : ℕ) :
    Walk × Option String :=
  match encoded with
  | .error m => (w.flush, some m)
  | .ok blocks => ({ blocks.foldl Walk.put w.flush with left := size, pad := Tar.padding size }, none)

def Walk.copy (w : Walk) (size : ℕ) (content : Bytes) (readErr : Option String) :
    Walk × Option String :=
  let b := content.take size
  ({ w.put b with left := size - b.length },
    if b.length < size then some (readErr.getD "EOF") else none)

/-- `Close`. With an incomplete content it fails and writes nothing. -/
def Walk.close (w : Walk) : Walk :=
  if w.left = 0 then (w.flush.put Tar.zeroBlock).put Tar.zeroBlock else w

def maxFiles : ℕ := 10000

variable {τ : Type} (encode : String → τ → Except String (List Bytes))

mutual

def walk (w : Walk) (name : String) (node : Node τ) : Walk × Option String :=
  if w.count + 1 > maxFiles then (w, some "copy file count limit")
  else
    match node with
    | .unknown statErr => (w, some statErr)
    | .other => (w, some "copy supports regular files/directories only")
    | .file info size content readErr =>
      match { w with count := w.count + 1 }.header (encode name info) size with
      | (w, some m) => (w, some m)
      | (w, none) =>
        if (size : ℤ) > maxBytes - w.total then (w, some "copy size limit")
        else { w with total := w.total + size }.copy size content readErr
    | .dir info listErr entries =>
      match { w with count := w.count + 1 }.header (encode name info) 0 with
      | (w, some m) => (w, some m)
      | (w, none) =>
        match listErr with
        | some m => (w, some m)
        | none => walkAll w name entries

def walkAll (w : Walk) (parent : String) : Entries τ → Walk × Option String
  | .nil => (w, none)
  | .unopened _ openErr _ => (w, some openErr)
  | .cons name child closeErr rest =>
    match walk w (pathJoin parent name) child with
    | (w, some m) => (w, some m)
    | (w, none) =>
      match closeErr with
      | some m => (w, some m)
      | none => walkAll w parent rest

end

def archiveFile (name : String) (source : Node τ) : List Bytes × Option String :=
  let (w, e) := walk encode {} name source
  (w.close.writes, e)

mutual

def Node.sound (name : String) : Node τ → Bool
  | .unknown _ => false
  | .other => false
  | .file info size content _ => (encode name info).toBool && size ≤ content.length
  | .dir info listErr entries =>
    (encode name info).toBool && listErr.isNone && entries.sound name

def Entries.sound (parent : String) : Entries τ → Bool
  | .nil => true
  | .unopened .. => false
  | .cons name child closeErr rest =>
    child.sound (pathJoin parent name) && closeErr.isNone && rest.sound parent

end

mutual

def Node.objects : Node τ → ℕ
  | .dir _ _ entries => 1 + entries.objects
  | _ => 1

def Entries.objects : Entries τ → ℕ
  | .nil => 0
  | .unopened _ _ rest => rest.objects
  | .cons _ child _ rest => child.objects + rest.objects

end

mutual

def Node.bytes : Node τ → ℕ
  | .file _ size _ _ => size
  | .dir _ _ entries => entries.bytes
  | _ => 0

def Entries.bytes : Entries τ → ℕ
  | .nil => 0
  | .unopened _ _ rest => rest.bytes
  | .cons _ child _ rest => child.bytes + rest.bytes

end

def Node.archivable (name : String) (node : Node τ) : Bool :=
  node.sound encode name && node.objects ≤ maxFiles && (node.bytes : ℤ) ≤ maxBytes

def Walk.Room (w : Walk) (objects bytes : ℕ) : Prop :=
  w.count + objects ≤ maxFiles ∧ w.total + bytes ≤ maxBytes

section
variable {encode} {w w' : Walk} {name : String} {size : ℕ} {content : Bytes} {readErr m : Option String}

theorem foldl_put_counts (blocks : List Bytes) :
    (blocks.foldl Walk.put w).count = w.count ∧ (blocks.foldl Walk.put w).total = w.total := by
  induction blocks generalizing w with
  | nil => exact ⟨rfl, rfl⟩
  | cons b rest ih => exact @ih (w.put b)

theorem header_counts {encoded : Except String (List Bytes)} (h : w.header encoded size = (w', m)) :
    w'.count = w.count ∧ w'.total = w.total := by
  cases encoded with
  | error e =>
    cases h
    exact ⟨rfl, rfl⟩
  | ok blocks =>
    cases h
    exact @foldl_put_counts w.flush blocks

theorem header_none {encoded : Except String (List Bytes)} :
    (w.header encoded size).2 = none ↔ encoded.toBool = true := by
  cases encoded with
  | error | ok => simp [Walk.header, Except.toBool]

theorem copy_none : (w.copy size content readErr).2 = none ↔ size ≤ content.length := by
  simp [Walk.copy]

theorem Node.objects_pos (node : Node τ) : 1 ≤ node.objects := by
  cases node with
  | dir info listErr entries => exact Nat.le_add_right 1 _
  | _ => exact Nat.le_refl 1

mutual

theorem walk_counts {w : Walk} {name : String} (node : Node τ) (h : (walk encode w name node).2 = none) :
    (walk encode w name node).1.count = w.count + node.objects ∧
      (walk encode w name node).1.total = w.total + node.bytes := by
  unfold walk at h ⊢
  by_cases hlimit : w.count + 1 > maxFiles
  · rw [if_pos hlimit] at h
    cases h
  rw [if_neg hlimit] at h ⊢
  cases node with
  | unknown | other => cases h
  | file info size content readErr =>
    dsimp only at h ⊢
    cases hheader : Walk.header { w with count := w.count + 1 } (encode name info) size with
    | mk w₁ m =>
    obtain ⟨hcount, htotal⟩ := header_counts hheader
    rw [hheader] at h
    cases m with
    | some m => cases h
    | none =>
      dsimp only at h ⊢
      by_cases hsize : (size : ℤ) > maxBytes - w₁.total
      · rw [if_pos hsize] at h
        cases h
      · rw [if_neg hsize]
        simp [Walk.copy, Walk.put, hcount, htotal, Node.objects, Node.bytes]
  | dir info listErr entries =>
    dsimp only at h ⊢
    cases hheader : Walk.header { w with count := w.count + 1 } (encode name info) 0 with
    | mk w₁ m =>
    obtain ⟨hcount, htotal⟩ := header_counts hheader
    rw [hheader] at h
    cases m with
    | some m => cases h
    | none =>
      cases listErr with
      | some m => cases h
      | none =>
        obtain ⟨hcount', htotal'⟩ := walkAll_counts entries h
        rw [hcount', htotal', hcount, htotal, Node.objects, Node.bytes]
        exact ⟨Nat.add_assoc .., rfl⟩

theorem walkAll_counts {w : Walk} {name : String} (entries : Entries τ)
    (h : (walkAll encode w name entries).2 = none) :
    (walkAll encode w name entries).1.count = w.count + entries.objects ∧
      (walkAll encode w name entries).1.total = w.total + entries.bytes := by
  cases entries with
  | nil => simp [walkAll, Entries.objects, Entries.bytes]
  | unopened n e rest => cases h
  | cons n child closeErr rest => ?_
  unfold walkAll at h ⊢
  cases hchild : walk encode w (pathJoin name n) child with
  | mk w₁ m =>
  rw [hchild] at h
  cases m with
  | some m => cases h
  | none => ?_
  have hwalk := @walk_counts w (pathJoin name n) child
  rw [hchild] at hwalk
  obtain ⟨hcount, htotal⟩ := hwalk rfl
  cases closeErr with
  | some m => cases h
  | none =>
    obtain ⟨hcount', htotal'⟩ := walkAll_counts rest h
    rw [hcount', htotal', hcount, htotal, Entries.objects, Entries.bytes]
    exact ⟨Nat.add_assoc .., by push_cast; omega⟩

end

mutual

/-- The walk succeeds exactly when the tree is sound and there is room for it. -/
theorem walk_eq_none_iff {w : Walk} {name : String} (node : Node τ) (hw : w.total ≤ maxBytes) :
    (walk encode w name node).2 = none ↔
      node.sound encode name = true ∧ w.Room node.objects node.bytes := by
  unfold walk
  by_cases hlimit : w.count + 1 > maxFiles
  · rw [if_pos hlimit]
    refine ⟨nofun, fun ⟨_, hroom, _⟩ => ?_⟩
    have hone : 1 ≤ node.objects := node.objects_pos
    omega
  rw [if_neg hlimit]
  cases node with
  | unknown | other => simp [Node.sound]
  | file info size content readErr =>
    have hencoded := @header_none { w with count := w.count + 1 } size (encode name info)
    dsimp only
    cases hheader : Walk.header { w with count := w.count + 1 } (encode name info) size with
    | mk w₁ m =>
    obtain ⟨hcount, htotal⟩ := header_counts hheader
    rw [hheader] at hencoded
    simp only [Node.sound, Node.objects, Node.bytes, Bool.and_eq_true, ← hencoded, decide_eq_true_eq]
    cases m with
    | some m => simp
    | none => ?_
    dsimp only at htotal ⊢
    rw [htotal]
    unfold Walk.Room
    split_ifs with hsize
    · simp only [false_iff, not_and]
      omega
    · rw [copy_none]
      simp only [true_and]
      omega
  | dir info listErr entries =>
    have hencoded := @header_none { w with count := w.count + 1 } 0 (encode name info)
    dsimp only
    cases hheader : Walk.header { w with count := w.count + 1 } (encode name info) 0 with
    | mk w₁ m =>
    obtain ⟨hcount, htotal⟩ := header_counts hheader
    rw [hheader] at hencoded
    simp only [Node.sound, Node.objects, Node.bytes, Bool.and_eq_true, ← hencoded]
    cases m with
    | some m => simp
    | none => ?_
    cases listErr with
    | some m => simp
    | none =>
      dsimp only at hcount htotal ⊢
      rw [walkAll_eq_none_iff entries ⟨by omega, by omega⟩]
      unfold Walk.Room
      rw [hcount, htotal]
      simp [Nat.add_assoc]

theorem walkAll_eq_none_iff {w : Walk} {name : String} (entries : Entries τ)
    (hw : w.count ≤ maxFiles ∧ w.total ≤ maxBytes) :
    (walkAll encode w name entries).2 = none ↔
      entries.sound encode name = true ∧ w.Room entries.objects entries.bytes := by
  cases entries with
  | nil => simpa [walkAll, Entries.sound, Entries.objects, Entries.bytes, Walk.Room] using hw
  | unopened n e rest => simp [walkAll, Entries.sound]
  | cons n child closeErr rest => ?_
  unfold walkAll
  have hchild := @walk_eq_none_iff w (pathJoin name n) child hw.2
  have hcounts := @walk_counts τ encode w (pathJoin name n) child
  cases hwalk : walk encode w (pathJoin name n) child with
  | mk w₁ m =>
  rw [hwalk] at hchild hcounts
  simp only [Entries.sound, Entries.objects, Entries.bytes, Bool.and_eq_true]
  cases m with
  | some m =>
    refine ⟨nofun, fun ⟨⟨⟨hsound, _⟩, _⟩, hroom⟩ => ?_⟩
    have hfit : w.Room child.objects child.bytes := by
      unfold Walk.Room at hroom ⊢
      omega
    cases hchild.2 ⟨hsound, hfit⟩
  | none =>
    obtain ⟨hsound, hroom⟩ := hchild.1 rfl
    obtain ⟨hcount, htotal⟩ := hcounts rfl
    cases closeErr with
    | some m => simp
    | none =>
      dsimp only at hcount htotal ⊢
      unfold Walk.Room at hroom
      rw [walkAll_eq_none_iff rest ⟨by omega, by omega⟩]
      unfold Walk.Room
      rw [hcount, htotal, hsound]
      push_cast
      simp only [Option.isNone_none, true_and, Nat.add_assoc, Int.add_assoc]

end

theorem archiveFile_eq_none_iff {node : Node τ} :
    (archiveFile encode name node).2 = none ↔ node.archivable encode name = true := by
  change (walk encode {} name node).2 = none ↔ _
  rw [walk_eq_none_iff node (by decide)]
  simp [Node.archivable, Walk.Room, and_assoc]

end

end Filecopy
end Niflhel
