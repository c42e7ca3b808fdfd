import Mathlib.Data.List.Basic
import Mathlib.Data.String.Basic
import Mathlib.Tactic.Common

/-!
# Codes without proper prefixes

A code writes values as bytes so that a value is read back whatever follows it, and no part
cut off from its end is read as a value. Codes compose over pairs and lists.
-/

structure PrefixCode (α : Type) where
  encode : α → List UInt8
  decode : List UInt8 → Option (α × List UInt8)
  decode_append : ∀ a rest, decode (encode a ++ rest) = some (a, rest)
  decode_take : ∀ a n, n < (encode a).length → decode ((encode a).take n) = none

namespace PrefixCode
variable {α β : Type}

def map (c : PrefixCode α) (f : α → β) (g : β → α) (h : ∀ b, f (g b) = b) : PrefixCode β where
  encode b := c.encode (g b)
  decode bytes := (c.decode bytes).map fun x => (f x.1, x.2)
  decode_append b rest := by rw [c.decode_append, Option.map_some, h]
  decode_take b n hn := by rw [c.decode_take _ n hn, Option.map_none]

def pair (c : PrefixCode α) (d : PrefixCode β) : PrefixCode (α × β) where
  encode x := c.encode x.1 ++ d.encode x.2
  decode bytes := (c.decode bytes).bind fun x => (d.decode x.2).map fun y => ((x.1, y.1), y.2)
  decode_append x rest := by
    rw [List.append_assoc, c.decode_append, Option.bind_some, d.decode_append, Option.map_some]
  decode_take x n hn := by
    rw [List.length_append] at hn
    by_cases hfirst : n < (c.encode x.1).length
    · rw [List.take_append_of_le_length hfirst.le, c.decode_take _ n hfirst, Option.bind_none]
    · rw [List.take_append, List.take_of_length_le (not_lt.1 hfirst), c.decode_append,
        Option.bind_some, d.decode_take _ _ (by omega), Option.map_none]

def encodeNat (n : ℕ) : List UInt8 := List.replicate n 1 ++ [0]

def decodeNat : List UInt8 → Option (ℕ × List UInt8)
  | [] => none
  | b :: rest => if b = 0 then some (0, rest) else (decodeNat rest).map fun x => (x.1 + 1, x.2)

def nat : PrefixCode ℕ where
  encode := encodeNat
  decode := decodeNat
  decode_append n rest := by
    induction n with
    | zero => rfl
    | succ n ih =>
        change (decodeNat (encodeNat n ++ rest)).map _ = _
        rw [ih, Option.map_some]
  decode_take n k hk := by
    induction n generalizing k with
    | zero =>
        have hzero : k = 0 := by simpa [encodeNat] using hk
        rw [hzero]
        rfl
    | succ n ih =>
        cases k with
        | zero => rfl
        | succ k =>
            have hk' : k < (encodeNat n).length := by
              simp [encodeNat] at hk ⊢
              omega
            change (decodeNat ((encodeNat n).take k)).map _ = _
            rw [ih k hk', Option.map_none]

def int : PrefixCode ℤ :=
  (nat.pair nat).map (fun x => (x.1 : ℤ) - x.2) (fun z => (z.toNat, (-z).toNat)) fun z => by
    dsimp only
    omega

def bool : PrefixCode Bool := nat.map (fun n => n == 1) (fun b => cond b 1 0) fun b => by
  cases b with
  | false => rfl
  | true => rfl

def decodeChar : List UInt8 → Option (Char × List UInt8)
  | a :: b :: c :: rest => some (Char.ofNat (a.toNat * 65536 + b.toNat * 256 + c.toNat), rest)
  | _ => none

def char : PrefixCode Char where
  encode c := [UInt8.ofNat (c.toNat / 65536), UInt8.ofNat (c.toNat / 256), UInt8.ofNat c.toNat]
  decode := decodeChar
  decode_append c rest := by
    have hbound : c.toNat < 256 * 65536 := by
      have h := c.valid
      simp only [UInt32.isValidChar, Nat.isValidChar, Char.toNat] at h ⊢
      omega
    have hnumber : (UInt8.ofNat (c.toNat / 65536)).toNat * 65536 +
        (UInt8.ofNat (c.toNat / 256)).toNat * 256 + (UInt8.ofNat c.toNat).toNat = c.toNat := by
      simp only [UInt8.toNat_ofNat']
      omega
    change some (Char.ofNat _, rest) = _
    rw [hnumber, Char.ofNat_toNat]
  decode_take c n hn := by
    have hsmall : n = 0 ∨ n = 1 ∨ n = 2 := by
      simp at hn
      omega
    rcases hsmall with rfl | rfl | rfl
    · rfl
    · rfl
    · rfl

def decodeMany (c : PrefixCode α) : ℕ → List UInt8 → Option (List α × List UInt8)
  | 0, bytes => some ([], bytes)
  | n + 1, bytes => (c.decode bytes).bind fun x =>
      (decodeMany c n x.2).map fun y => (x.1 :: y.1, y.2)

theorem decodeMany_append (c : PrefixCode α) (as : List α) (rest : List UInt8) :
    decodeMany c as.length (as.flatMap c.encode ++ rest) = some (as, rest) := by
  induction as with
  | nil => rfl
  | cons a as ih =>
    rw [List.flatMap_cons, List.append_assoc, List.length_cons, decodeMany, c.decode_append,
      Option.bind_some, ih, Option.map_some]

theorem decodeMany_take (c : PrefixCode α) {as : List α} {n : ℕ}
    (hn : n < (as.flatMap c.encode).length) :
    decodeMany c as.length ((as.flatMap c.encode).take n) = none := by
  induction as generalizing n with
  | nil => simp at hn
  | cons a as ih =>
    rw [List.flatMap_cons, List.length_append] at hn
    rw [List.flatMap_cons, List.length_cons, decodeMany]
    by_cases hfirst : n < (c.encode a).length
    · rw [List.take_append_of_le_length hfirst.le, c.decode_take _ n hfirst, Option.bind_none]
    · rw [List.take_append, List.take_of_length_le (not_lt.1 hfirst), c.decode_append,
        Option.bind_some, ih (by omega), Option.map_none]

def list (c : PrefixCode α) : PrefixCode (List α) where
  encode as := nat.encode as.length ++ as.flatMap c.encode
  decode bytes := (nat.decode bytes).bind fun x => decodeMany c x.1 x.2
  decode_append as rest := by
    rw [List.append_assoc, nat.decode_append, Option.bind_some, decodeMany_append]
  decode_take as n hn := by
    rw [List.length_append] at hn
    by_cases hfirst : n < (nat.encode as.length).length
    · rw [List.take_append_of_le_length hfirst.le, nat.decode_take _ n hfirst, Option.bind_none]
    · rw [List.take_append, List.take_of_length_le (not_lt.1 hfirst), nat.decode_append,
        Option.bind_some, decodeMany_take c (by omega)]

def string : PrefixCode String :=
  (list char).map String.ofList String.toList fun _ => String.ofList_toList

end PrefixCode
