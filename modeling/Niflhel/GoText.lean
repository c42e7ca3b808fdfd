import Mathlib.Algebra.Order.Ring.Int
import Mathlib.Data.Int.Notation
import Mathlib.Data.String.Basic
import Mathlib.Tactic.Common

/-!
# Text functions of the Go standard library and the arithmetic of `int64`

The `strings`, `strconv` and `path` functions used below, on Lean strings. Every
function works on the list of characters, so that concrete texts evaluate.
A sum, difference or product of Go's `int64` is the one of the integers, wrapped around.
-/

namespace GoText

def hasPrefix (s p : String) : Bool := p.toList.isPrefixOf s.toList

def hasSuffix (s p : String) : Bool := p.toList.isSuffixOf s.toList

def containsRune (s : String) (c : Char) : Bool := s.toList.contains c

def contains (s sub : String) : Bool := s.toList.tails.any fun t => sub.toList.isPrefixOf t

def trimPrefix (s p : String) : String :=
  if hasPrefix s p then String.ofList (s.toList.drop p.toList.length) else s

def trimSuffix (s p : String) : String :=
  if hasSuffix s p then String.ofList (s.toList.take (s.toList.length - p.toList.length)) else s

/-- The function `strings.Cut` at a single character: text before, text after, found. -/
def cut (s : String) (sep : Char) : String × String × Bool :=
  match s.toList.dropWhile (· != sep) with
  | [] => (s, "", false)
  | _ :: after => (String.ofList (s.toList.takeWhile (· != sep)), String.ofList after, true)

def split (s : String) (sep : Char) : List String :=
  (s.toList.splitOn sep).map String.ofList

def splitN (s : String) (sep : Char) : ℕ → List String
  | 0 => []
  | 1 => [s]
  | n + 2 =>
    match cut s sep with
    | (before, after, true) => before :: splitN after sep (n + 1)
    | (_, _, false) => [s]

def isSpace (c : Char) : Bool :=
  c == ' ' || (9 ≤ c.toNat && c.toNat ≤ 13) || c.toNat == 0x85 || c.toNat == 0xA0 ||
    c.toNat == 0x1680 || (0x2000 ≤ c.toNat && c.toNat ≤ 0x200A) || c.toNat == 0x2028 ||
    c.toNat == 0x2029 || c.toNat == 0x202F || c.toNat == 0x205F || c.toNat == 0x3000

def fields (s : String) : List String :=
  ((s.toList.splitOnP isSpace).filter (· ≠ [])).map String.ofList

def trimSpace (s : String) : String :=
  String.ofList (((s.toList.dropWhile isSpace).reverse.dropWhile isSpace).reverse)

/-- The text after the last occurrence of a two-character separator, as computed by
`s[strings.LastIndex(s, sep)+2:]`; `none` when the separator does not occur. -/
def afterLast (a b : Char) : List Char → Option (List Char)
  | [] => none
  | c :: cs =>
    match afterLast a b cs with
    | some rest => some rest
    | none =>
      match c :: cs with
      | x :: y :: rest => if x = a ∧ y = b then some rest else none
      | _ => none

def digits : List Char → Option ℕ
  | [] => none
  | cs => cs.foldl (fun n c => n.bind fun n =>
      if c.isDigit then some (10 * n + (c.toNat - '0'.toNat)) else none) (some 0)

/-- The function `strconv.Atoi` on a 64-bit platform: an optional sign, decimal digits,
and the range of a signed 64-bit integer. -/
def atoi (s : String) : Option ℤ :=
  let value : Option ℤ := match s.toList with
    | '-' :: ds => (digits ds).map fun n => -(n : ℤ)
    | '+' :: ds => (digits ds).map fun n => (n : ℤ)
    | ds => (digits ds).map fun n => (n : ℤ)
  value.filter fun n => decide (-2 ^ 63 ≤ n ∧ n < 2 ^ 63)

theorem hasSuffix_iff {s p : String} : hasSuffix s p = true ↔ ∃ t, s = t ++ p := by
  rw [hasSuffix, List.isSuffixOf_iff_suffix]
  constructor
  · rintro ⟨t, ht⟩
    exact ⟨String.ofList t, String.toList_inj.1 (by simp [← ht])⟩
  · rintro ⟨t, rfl⟩
    exact ⟨t.toList, by simp⟩

theorem trimSuffix_append (t p : String) : trimSuffix (t ++ p) p = t := by
  rw [trimSuffix, if_pos (hasSuffix_iff.2 ⟨t, rfl⟩)]
  simp

theorem afterLast_eq_none {a b : Char} {cs : List Char} (h : a ∉ cs) : afterLast a b cs = none := by
  induction cs with
  | nil => rfl
  | cons c cs ih =>
    rw [List.mem_cons, not_or] at h
    unfold afterLast
    rw [ih h.2]
    cases cs with
    | nil => rfl
    | cons d rest => simp [Ne.symm h.1]

theorem afterLast_append {a b : Char} {rest : List Char} (hab : a ≠ b) (h : a ∉ rest)
    (front : List Char) : afterLast a b (front ++ a :: b :: rest) = some rest := by
  induction front with
  | nil =>
    have hnone : afterLast a b (b :: rest) = none :=
      afterLast_eq_none (by simp [hab, h])
    rw [List.nil_append, afterLast, hnone]
    simp
  | cons c front ih =>
    rw [List.cons_append, afterLast, ih]

/-- A suffix that starts at a separator which occurs nowhere else in the texts after it. -/
theorem eq_of_cons_suffix {c : Char} {front x y : List Char} (hx : c ∉ x) (hy : c ∉ y)
    (h : c :: x <:+ front ++ c :: y) : x = y := by
  have h' : c :: y <:+ front ++ c :: y := List.suffix_append _ _
  rcases Nat.lt_trichotomy x.length y.length with hlt | heq | hlt
  · have hsub := List.suffix_of_suffix_length_le h h' (by simp; omega)
    rcases List.suffix_cons_iff.1 hsub with hcons | hin
    · simpa using hcons
    · exact absurd (hin.subset List.mem_cons_self) hy
  · have hsub := List.suffix_of_suffix_length_le h h' (by simp; omega)
    simpa using hsub.eq_of_length (by simp [heq])
  · have hsub := List.suffix_of_suffix_length_le h' h (by simp; omega)
    rcases List.suffix_cons_iff.1 hsub with hcons | hin
    · exact (List.cons.inj hcons).2.symm
    · exact absurd (hin.subset List.mem_cons_self) hx

theorem digits_repr (n : ℕ) : digits n.repr.toList = some n := by
  have hfold : ∀ n : ℕ, (Nat.toDigits 10 n).foldl (fun m c => m.bind fun m =>
      if c.isDigit then some (10 * m + (c.toNat - '0'.toNat)) else none) (some 0) = some n := by
    have hdigit : ∀ d < 10, d.digitChar.isDigit = true ∧ d.digitChar.toNat - '0'.toNat = d := by
      decide
    intro n
    induction n using Nat.strongRecOn with
    | ind n ih =>
      rcases Nat.lt_or_ge n 10 with hlt | hge
      · rw [Nat.toDigits_of_lt_base hlt]
        simpa [(hdigit n hlt).1] using (hdigit n hlt).2
      · obtain ⟨hd, hv⟩ := hdigit (n % 10) (Nat.mod_lt n (by decide))
        rw [Nat.toDigits_of_base_le (by decide) hge, List.foldl_append, ih (n / 10) (by omega)]
        simp only [List.foldl_cons, List.foldl_nil, Option.bind_some, hd, hv, if_true]
        rw [Nat.div_add_mod]
  rw [Nat.toList_repr, digits]
  · exact hfold n
  · exact Nat.toDigits_ne_nil
def isAbs (p : String) : Bool := hasPrefix p "/"

/-- One component of `path.Clean`: `.` and the empty component vanish, `..` removes the
component before it, and a leading `..` survives only in a relative path. The stack
holds the components kept so far, last one first. -/
def cleanStep (rooted : Bool) (stack : List String) (part : String) : List String :=
  if part = "" ∨ part = "." then stack
  else if part = ".." then
    match stack with
    | [] => if rooted then [] else [".."]
    | top :: rest => if top = ".." then ".." :: stack else rest
  else part :: stack

def joinSlash : List String → String
  | [] => ""
  | [a] => a
  | a :: b :: rest => a ++ "/" ++ joinSlash (b :: rest)

def pathClean (p : String) : String :=
  let rooted := isAbs p
  let parts := ((split p '/').foldl (cleanStep rooted) []).reverse
  if rooted then "/" ++ joinSlash parts
  else if parts = [] then "." else joinSlash parts

def pathJoin (a b : String) : String :=
  if a = "" then (if b = "" then "" else pathClean b)
  else if b = "" then pathClean a else pathClean (a ++ "/" ++ b)

def pathDir (p : String) : String :=
  let kept := (p.toList.reverse.dropWhile (· != '/')).reverse
  pathClean (String.ofList kept)

example : pathClean "a/../../b//./c" = "../b/c" ∧ pathClean "/../a/" = "/a" := by decide
example : pathDir "a/b" = "a" ∧ pathDir "b" = "." := by decide

end GoText

namespace Niflhel
variable {x : ℤ}

def wrap64 (x : ℤ) : ℤ := x.bmod (2 ^ 64)

theorem wrap64_of_lt (hlow : -(2 ^ 63) ≤ x) (hhigh : x < 2 ^ 63) : wrap64 x = x := by
  unfold wrap64
  rw [Int.bmod_def]
  split <;> omega

/-- One more than a number wraps around only at the largest number. -/
theorem wrap64_succ (hlow : -1 ≤ x) (hhigh : x < 2 ^ 63) :
    wrap64 (x + 1) < 0 ∨ wrap64 (x + 1) = x + 1 ∧ x + 1 < 2 ^ 63 := by
  by_cases h : x + 1 < 2 ^ 63
  · exact .inr ⟨wrap64_of_lt (by omega) h, h⟩
  · have hx : x = 2 ^ 63 - 1 := by omega
    subst hx
    exact .inl (by decide)

end Niflhel
