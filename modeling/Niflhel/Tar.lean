import Mathlib.Algebra.Order.Ring.Int
import Mathlib.Data.Int.Notation
import Mathlib.Data.List.Basic
import Mathlib.Tactic.Common

/-!
# Reading tar streams

The header loop of `archive/tar`: a reader over a stream of bytes that ends cleanly or with
an error of the transport. Decoding one header block is a parameter, and sparse files, whose
headers go on behind the block, are left out. A clean end of the stream is a clean end of the
archive wherever a header block would begin, and also inside the padding before it; `Next` says
which streams yield which header, and `next` decides it.
-/

namespace Tar

inductive Ending where
  | eof
  | error (message : String)
  deriving DecidableEq, Repr

structure Source where
  bytes : List UInt8
  ending : Ending
  deriving DecidableEq, Repr

structure Header where
  name : String
  typeflag : UInt8
  size : ℤ
  mode : ℕ
  deriving DecidableEq, Repr

/-- Contents of the extension headers read so far, with their type. -/
abbrev Extensions := List (UInt8 × List UInt8)

/-- The decoding of a header block, given the extensions before it, and whether the
content of an extension is well formed. -/
structure Format where
  parse : Extensions → List UInt8 → Option Header
  valid : UInt8 → List UInt8 → Bool

def blockSize : ℕ := 512

def zeroBlock : List UInt8 := List.replicate blockSize 0

/-- Links, devices, directories and pipes have no content, whatever their size says. -/
def isHeaderOnly (flag : UInt8) : Bool := 49 ≤ flag && flag ≤ 54

/-- PAX headers and GNU long names and links extend the next header. -/
def isExtension (flag : UInt8) : Bool := flag == 120 || flag == 75 || flag == 76

/-- A global PAX header is read like an extension, but returned like an entry. -/
def globalHeader : UInt8 := 103

def hasRecords (flag : UInt8) : Bool := isExtension flag || flag == globalHeader

def contentSize (h : Header) : ℤ := if isHeaderOnly h.typeflag then 0 else h.size

def padding (size : ℕ) : ℕ := (blockSize - size % blockSize) % blockSize

def maxExtension : ℕ := 2 ^ 20

def errHeader : String := "archive/tar: invalid tar header"
def errFieldTooLong : String := "archive/tar: header field too long"
def unexpectedEOF : String := "unexpected EOF"

inductive Read (α : Type) where
  | ok (a : α) (rest : List UInt8)
  | eof
  | failed (message : String)
  deriving DecidableEq, Repr

def truncated : Ending → String
  | .eof => unexpectedEOF
  | .error m => m

def readFull (e : Ending) (n : ℕ) (b : List UInt8) : Read (List UInt8) :=
  if n ≤ b.length then .ok (b.take n) (b.drop n)
  else match e with
    | .error m => .failed m
    | .eof => if b = [] then .eof else .failed unexpectedEOF

/-- Like `readFull`, but a clean end inside what is read is still a clean end. -/
def tryReadFull (e : Ending) (n : ℕ) (b : List UInt8) : Read (List UInt8) :=
  if n ≤ b.length then .ok (b.take n) (b.drop n)
  else match e with
    | .error m => .failed m
    | .eof => .eof

def readHeader (F : Format) (e : Ending) (ext : Extensions) (b : List UInt8) : Read Header :=
  match readFull e blockSize b with
  | .failed m => .failed m
  | .eof => .eof
  | .ok block rest =>
    if block = zeroBlock then
      match readFull e blockSize rest with
      | .failed m => .failed m
      | .eof => .eof
      | .ok block' _ => if block' = zeroBlock then .eof else .failed errHeader
    else match F.parse ext block with
      | none => .failed errHeader
      | some h => .ok h rest

/-- Reads the content of an extension, of which no more than one byte over the limit is wanted. -/
def readSpecialFile (e : Ending) (size : ℕ) (b : List UInt8) : Except String (List UInt8) :=
  if b.length < min size (maxExtension + 1) then .error (truncated e)
  else if size > maxExtension then .error errFieldTooLong
  else .ok (b.take size)

/-- The method `Reader.next`, after `pad` bytes of padding. Every round reads a block, so
more rounds than bytes are never needed. The content of a global header has been read when it is
returned; it stands before what follows, as that of any entry does. -/
def next (F : Format) (e : Ending) : ℕ → ℕ → Extensions → List UInt8 → Read Header
  | 0, _, _, _ => .failed errHeader
  | rounds + 1, pad, ext, b =>
    match tryReadFull e pad b with
    | .failed m => .failed m
    | .eof => .eof
    | .ok _ b₁ =>
      match readHeader F e ext b₁ with
      | .failed m => .failed m
      | .eof => .eof
      | .ok h b₂ =>
        if contentSize h < 0 then .failed errHeader
        else if !hasRecords h.typeflag then .ok h b₂
        else
          let size := (contentSize h).toNat
          match readSpecialFile e size b₂ with
          | .error m => .failed m
          | .ok data =>
            if !F.valid h.typeflag data then .failed errHeader
            else if h.typeflag = globalHeader then .ok h b₂
            else next F e rounds (padding size) (ext ++ [(h.typeflag, data)]) (b₂.drop size)

inductive Ends : List UInt8 → Prop where
  | empty : Ends []
  | zero : Ends zeroBlock
  | trailer (rest : List UInt8) : Ends (zeroBlock ++ (zeroBlock ++ rest))

/-- The header a cleanly ending stream yields, with what follows it, or its end. -/
inductive Next (F : Format) : ℕ → Extensions → List UInt8 → Option (Header × List UInt8) → Prop
  where
  | short {pad : ℕ} {ext : Extensions} {b : List UInt8} (hb : b.length < pad) :
      Next F pad ext b none
  | ends {pad : ℕ} {ext : Extensions} {p b : List UInt8} (hp : p.length = pad) (hb : Ends b) :
      Next F pad ext (p ++ b) none
  | header {pad : ℕ} {ext : Extensions} {p block b : List UInt8} {h : Header}
      (hp : p.length = pad) (hl : block.length = blockSize) (hz : block ≠ zeroBlock)
      (hparse : F.parse ext block = some h) (hsize : 0 ≤ contentSize h)
      (hext : hasRecords h.typeflag = false) : Next F pad ext (p ++ (block ++ b)) (some (h, b))
  | global {pad : ℕ} {ext : Extensions} {p block data b : List UInt8} {h : Header}
      (hp : p.length = pad) (hl : block.length = blockSize) (hz : block ≠ zeroBlock)
      (hparse : F.parse ext block = some h) (hflag : h.typeflag = globalHeader)
      (hdata : (data.length : ℤ) = contentSize h) (hmax : data.length ≤ maxExtension)
      (hvalid : F.valid h.typeflag data = true) :
      Next F pad ext (p ++ (block ++ (data ++ b))) (some (h, data ++ b))
  | extension {pad : ℕ} {ext : Extensions} {p block data b : List UInt8} {h : Header}
      {o : Option (Header × List UInt8)}
      (hp : p.length = pad) (hl : block.length = blockSize) (hz : block ≠ zeroBlock)
      (hparse : F.parse ext block = some h) (hext : isExtension h.typeflag = true)
      (hdata : (data.length : ℤ) = contentSize h) (hmax : data.length ≤ maxExtension)
      (hvalid : F.valid h.typeflag data = true)
      (hnext : Next F (padding data.length) (ext ++ [(h.typeflag, data)]) b o) :
      Next F pad ext (p ++ (block ++ (data ++ b))) o

section
variable {F : Format} {ext : Extensions} {n pad rounds : ℕ} {a b rest : List UInt8} {h : Header}

theorem readFull_append {e : Ending} (ha : a.length = n) : readFull e n (a ++ b) = .ok a b := by
  subst ha
  simp [readFull]

theorem tryReadFull_append {e : Ending} (ha : a.length = n) : tryReadFull e n (a ++ b) = .ok a b := by
  subst ha
  simp [tryReadFull]

theorem readFull_eq_ok {e : Ending} (h : readFull e n b = .ok a rest) :
    b = a ++ rest ∧ a.length = n := by
  unfold readFull at h
  split at h
  · rename_i hn
    cases h
    exact ⟨(List.take_append_drop n b).symm, List.length_take_of_le hn⟩
  · split at h
    · cases h
    · split at h <;> cases h

theorem readFull_eq_eof (hn : 0 < n) : readFull .eof n b = .eof ↔ b = [] := by
  unfold readFull
  split
  · rename_i hle
    constructor
    · intro h
      cases h
    · rintro rfl
      simp at hle
      omega
  · dsimp only
    split
    · rename_i hb
      exact iff_of_true rfl hb
    · rename_i hb
      exact iff_of_false (fun h => nomatch h) hb

theorem tryReadFull_eq_ok {e : Ending} (h : tryReadFull e n b = .ok a rest) :
    b = a ++ rest ∧ a.length = n := by
  unfold tryReadFull at h
  split at h
  · rename_i hn
    cases h
    exact ⟨(List.take_append_drop n b).symm, List.length_take_of_le hn⟩
  · split at h <;> cases h

theorem tryReadFull_eq_eof : tryReadFull .eof n b = .eof ↔ b.length < n := by
  unfold tryReadFull
  split
  · rename_i hle
    exact iff_of_false (fun h => nomatch h) (Nat.not_lt.2 hle)
  · rename_i hlt
    exact iff_of_true rfl (Nat.not_le.1 hlt)

theorem length_zeroBlock : zeroBlock.length = blockSize := List.length_replicate

theorem readHeader_eof_iff : readHeader F .eof ext b = .eof ↔ Ends b := by
  have hpos : 0 < blockSize := by decide
  constructor
  · intro h
    unfold readHeader at h
    cases hr : readFull .eof blockSize b with
    | failed m => simp [hr] at h
    | eof =>
      rw [(readFull_eq_eof hpos).1 hr]
      exact .empty
    | ok block rest =>
      obtain ⟨rfl, _⟩ := readFull_eq_ok hr
      simp only [hr] at h
      split at h
      · rename_i hz
        subst hz
        cases hr₂ : readFull .eof blockSize rest with
        | failed m => simp [hr₂] at h
        | eof =>
          rw [(readFull_eq_eof hpos).1 hr₂, List.append_nil]
          exact .zero
        | ok block' rest' =>
          obtain ⟨rfl, _⟩ := readFull_eq_ok hr₂
          simp only [hr₂] at h
          split at h
          · rename_i hz'
            subst hz'
            exact .trailer rest'
          · cases h
      · split at h <;> cases h
  · intro h
    cases h with
    | empty => simp [readHeader, readFull, blockSize]
    | zero =>
      have hfirst := readFull_append (e := .eof) (b := []) length_zeroBlock
      rw [List.append_nil] at hfirst
      have hsecond : readFull .eof blockSize [] = .eof := (readFull_eq_eof hpos).2 rfl
      simp only [readHeader, hfirst, hsecond, if_true]
    | trailer rest =>
      simp only [readHeader, readFull_append length_zeroBlock, if_true]

theorem readHeader_eq_ok : readHeader F .eof ext b = .ok h rest ↔ ∃ block,
    b = block ++ rest ∧ block.length = blockSize ∧ block ≠ zeroBlock ∧
      F.parse ext block = some h := by
  constructor
  · intro hh
    unfold readHeader at hh
    cases hr : readFull .eof blockSize b with
    | failed | eof => simp [hr] at hh
    | ok block rest' =>
      obtain ⟨rfl, hl⟩ := readFull_eq_ok hr
      simp only [hr] at hh
      split at hh
      · split at hh
        · cases hh
        · cases hh
        · split at hh <;> cases hh
      · rename_i hz
        cases hp : F.parse ext block with
        | none => simp [hp] at hh
        | some h' =>
          simp only [hp] at hh
          cases hh
          exact ⟨block, rfl, hl, hz, hp⟩
  · rintro ⟨block, rfl, hl, hz, hp⟩
    simp only [readHeader, readFull_append hl, if_neg hz, hp]

theorem readHeader_block {block : List UInt8} (hl : block.length = blockSize)
    (hz : block ≠ zeroBlock) (hp : F.parse ext block = some h) (rest : List UInt8) :
    readHeader F .eof ext (block ++ rest) = .ok h rest :=
  readHeader_eq_ok.2 ⟨block, rfl, hl, hz, hp⟩

def Read.found : Option (Header × List UInt8) → Read Header
  | none => .eof
  | some (h, b) => .ok h b

variable {o : Option (Header × List UInt8)}

theorem Read.found_injective {o' : Option (Header × List UInt8)}
    (h : Read.found o = Read.found o') : o = o' := by
  match o, o' with
  | none, none => rfl
  | none, some (_, _) => cases h
  | some (_, _), none => cases h
  | some (_, _), some (_, _) =>
    cases h
    rfl

theorem readSpecialFile_append {e : Ending} {data : List UInt8} (hdata : data.length = n)
    (hmax : n ≤ maxExtension) : readSpecialFile e n (data ++ b) = .ok data := by
  subst hdata
  unfold readSpecialFile
  rw [if_neg (by simp only [List.length_append]; omega), if_neg (by omega), List.take_left]

theorem readSpecialFile_eq_ok {e : Ending} {data : List UInt8}
    (h : readSpecialFile e n b = .ok data) :
    b = data ++ b.drop n ∧ data.length = n ∧ n ≤ maxExtension := by
  unfold readSpecialFile at h
  split_ifs at h with hshort hlong
  cases h
  refine ⟨(List.take_append_drop n b).symm, ?_, by omega⟩
  rw [List.length_take]
  omega

theorem Next.of_next (hr : b.length < rounds)
    (h : next F .eof rounds pad ext b = Read.found o) : Next F pad ext b o := by
  have hfailed : ∀ m, Read.failed m ≠ Read.found o := by
    intro m hm
    match o with
    | none => cases hm
    | some (_, _) => cases hm
  induction rounds generalizing pad ext b with
  | zero => omega
  | succ rounds ih =>
    unfold next at h
    cases ht : tryReadFull .eof pad b with
    | failed m =>
      simp only [ht] at h
      exact absurd h (hfailed m)
    | eof =>
      simp only [ht] at h
      obtain rfl := Read.found_injective (o := none) h
      exact .short (tryReadFull_eq_eof.1 ht)
    | ok p b₁ =>
      obtain ⟨rfl, hp⟩ := tryReadFull_eq_ok ht
      simp only [ht] at h
      cases hh : readHeader F .eof ext b₁ with
      | failed m =>
        simp only [hh] at h
        exact absurd h (hfailed m)
      | eof =>
        simp only [hh] at h
        obtain rfl := Read.found_injective (o := none) h
        exact .ends hp (readHeader_eof_iff.1 hh)
      | ok hd b₂ =>
        obtain ⟨block, rfl, hl, hz, hparse⟩ := readHeader_eq_ok.1 hh
        simp only [hh] at h
        split at h
        · exact absurd h (hfailed _)
        rename_i hnonneg
        split at h
        · rename_i hext
          obtain rfl := Read.found_injective (o := some (hd, b₂)) h
          exact .header hp hl hz hparse (by omega) (by simpa using hext)
        rename_i hext
        split at h
        · exact absurd h (hfailed _)
        rename_i data hspecial
        obtain ⟨hsplit, hsize, hmax⟩ := readSpecialFile_eq_ok hspecial
        have hdata : (data.length : ℤ) = contentSize hd := by omega
        split at h
        · exact absurd h (hfailed _)
        rename_i hvalid
        have hvalid : F.valid hd.typeflag data = true := by simpa using hvalid
        generalize hrest : b₂.drop (contentSize hd).toNat = rest at h hsplit
        subst hsplit
        split at h
        · rename_i hflag
          obtain rfl := Read.found_injective (o := some (hd, data ++ rest)) h
          exact .global hp hl hz hparse hflag hdata (by omega) hvalid
        · rename_i hflag
          have hbound : rest.length < rounds := by
            simp only [List.length_append, hl, blockSize] at hr
            omega
          refine .extension hp hl hz hparse ?_ hdata (by omega) hvalid (by rw [hsize]; exact ih hbound h)
          simpa [hasRecords, hflag] using hext

theorem Next.next_eq (h : Next F pad ext b o)
    (hr : b.length < rounds) : next F .eof rounds pad ext b = Read.found o := by
  induction h generalizing rounds with
  | short hb =>
    obtain ⟨rounds, rfl⟩ : ∃ n, rounds = n + 1 := ⟨rounds - 1, by omega⟩
    simp only [next, tryReadFull_eq_eof.2 hb, Read.found]
  | ends hp hb =>
    obtain ⟨rounds, rfl⟩ : ∃ n, rounds = n + 1 := ⟨rounds - 1, by omega⟩
    simp only [next, tryReadFull_append hp, readHeader_eof_iff.2 hb, Read.found]
  | header hp hl hz hparse hsize hext =>
    obtain ⟨rounds, rfl⟩ : ∃ n, rounds = n + 1 := ⟨rounds - 1, by omega⟩
    simp only [next, tryReadFull_append hp, readHeader_block hl hz hparse,
      if_neg (Int.not_lt.2 hsize), hext, Read.found]
    simp
  | @global pad ext p block data b hd hp hl hz hparse hflag hdata hmax hvalid =>
    obtain ⟨rounds, rfl⟩ : ∃ n, rounds = n + 1 := ⟨rounds - 1, by omega⟩
    have hsize : data.length = (contentSize hd).toNat := by omega
    have hneg : ¬ contentSize hd < 0 := by omega
    have hrecords : hasRecords hd.typeflag = true := by simp [hasRecords, hflag]
    simp only [next, tryReadFull_append hp, readHeader_block hl hz hparse, if_neg hneg, hrecords,
      readSpecialFile_append hsize (by omega), hvalid, Read.found]
    rw [if_neg (by simp), if_neg (by simp), if_pos hflag]
  | @extension pad ext p block data b hd o hp hl hz hparse hext hdata hmax hvalid _ ih =>
    obtain ⟨rounds, rfl⟩ : ∃ n, rounds = n + 1 := ⟨rounds - 1, by omega⟩
    have hsize : data.length = (contentSize hd).toNat := by omega
    have hbound : b.length < rounds := by
      simp only [List.length_append, hl, blockSize] at hr
      omega
    have hneg : ¬ contentSize hd < 0 := by omega
    have hrecords : hasRecords hd.typeflag = true := by simp [hasRecords, hext]
    have hflag : hd.typeflag ≠ globalHeader := by
      rintro hflag
      rw [hflag] at hext
      cases hext
    simp only [next, tryReadFull_append hp, readHeader_block hl hz hparse, if_neg hneg, hrecords,
      readSpecialFile_append hsize (by omega), hvalid]
    rw [if_neg (by simp), if_neg (by simp), if_neg hflag, ← hsize, List.drop_left]
    exact ih hbound

/-- With enough rounds, `next` decides what a cleanly ending stream yields. -/
theorem next_eq_found (hr : b.length < rounds) :
    next F .eof rounds pad ext b = Read.found o ↔ Next F pad ext b o :=
  ⟨Next.of_next hr, fun h => h.next_eq hr⟩

/-- The entries of a stream that ends between two of them, or in a padding, with their
contents. -/
inductive Archive (F : Format) : ℕ → List UInt8 → List (Header × List UInt8) → Prop where
  | nil {pad : ℕ} {b : List UInt8} (h : Next F pad [] b none) : Archive F pad b []
  | cons {pad : ℕ} {b content rest : List UInt8} {h : Header}
      {entries : List (Header × List UInt8)} (hnext : Next F pad [] b (some (h, content ++ rest)))
      (hsize : (content.length : ℤ) = contentSize h)
      (hrest : Archive F (padding content.length) rest entries) :
      Archive F pad b ((h, content) :: entries)

end

/-- A read that needs more than the bytes at hand: it ends with the error of the transport. -/
def Blocks {α : Type} (r : Ending → Read α) : Prop := ∀ m, r (.error m) = .failed m

def Decides {α : Type} (r : Ending → Read α) : Prop := ∃ x, ∀ e, r e = x

section blocks
variable {F : Format} {n rounds pad : ℕ} {ext : Extensions} {b : List UInt8}

theorem readFull_blocks_or : Blocks (readFull · n b) ∨ Decides (readFull · n b) := by
  by_cases hn : n ≤ b.length
  · exact Or.inr ⟨_, fun e => if_pos hn⟩
  · exact Or.inl fun m => if_neg hn

theorem tryReadFull_blocks_or : Blocks (tryReadFull · n b) ∨ Decides (tryReadFull · n b) := by
  by_cases hn : n ≤ b.length
  · exact Or.inr ⟨_, fun e => if_pos hn⟩
  · exact Or.inl fun m => if_neg hn

theorem readHeader_blocks_or : Blocks (readHeader F · ext b) ∨ Decides (readHeader F · ext b) := by
  unfold readHeader
  rcases readFull_blocks_or (n := blockSize) (b := b) with hblock | ⟨x, hx⟩
  · left
    intro m
    simp only [hblock m]
  simp only [hx]
  cases x with
  | failed | eof => exact Or.inr ⟨_, fun _ => rfl⟩
  | ok block rest => ?_
  by_cases hzero : block = zeroBlock
  · simp only [if_pos hzero]
    rcases readFull_blocks_or (n := blockSize) (b := rest) with hblock | ⟨y, hy⟩
    · left
      intro m
      simp only [hblock m]
    · right
      simp only [hy]
      exact ⟨_, fun _ => rfl⟩
  · simp only [if_neg hzero]
    exact Or.inr ⟨_, fun _ => rfl⟩

theorem next_blocks_or : Blocks (next F · rounds pad ext b) ∨ Decides (next F · rounds pad ext b) := by
  induction rounds generalizing pad ext b with
  | zero => exact Or.inr ⟨_, fun _ => rfl⟩
  | succ rounds ih =>
    unfold next
    rcases tryReadFull_blocks_or (n := pad) (b := b) with hblock | ⟨x, hx⟩
    · left
      intro m
      simp only [hblock m]
    simp only [hx]
    cases x with
    | failed | eof => exact Or.inr ⟨_, fun _ => rfl⟩
    | ok _ b₁ => ?_
    have hor : Blocks (readHeader F · ext b₁) ∨ Decides (readHeader F · ext b₁) :=
      readHeader_blocks_or
    rcases hor with hblock | ⟨y, hy⟩
    · left
      intro m
      simp only [hblock m]
    simp only [hy]
    cases y with
    | failed | eof => exact Or.inr ⟨_, fun _ => rfl⟩
    | ok h b₂ => ?_
    by_cases hneg : contentSize h < 0
    · simp only [if_pos hneg]
      exact Or.inr ⟨_, fun _ => rfl⟩
    simp only [if_neg hneg]
    by_cases hext : (!hasRecords h.typeflag) = true
    · simp only [if_pos hext]
      exact Or.inr ⟨_, fun _ => rfl⟩
    simp only [if_neg hext]
    by_cases hshort : b₂.length < min (contentSize h).toNat (maxExtension + 1)
    · left
      intro m
      simp only [readSpecialFile, if_pos hshort]
      rfl
    simp only [readSpecialFile, if_neg hshort]
    by_cases hlong : (contentSize h).toNat > maxExtension
    · simp only [if_pos hlong]
      exact Or.inr ⟨_, fun _ => rfl⟩
    simp only [if_neg hlong]
    split
    · exact Or.inr ⟨_, fun _ => rfl⟩
    · split
      · exact Or.inr ⟨_, fun _ => rfl⟩
      · exact ih

end blocks

end Tar
