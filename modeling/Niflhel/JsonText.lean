import Mathlib.Algebra.BigOperators.Group.List.Basic
import Mathlib.Data.List.Basic
import Mathlib.Data.Nat.Digits.Defs

/-!
# Texts in JSON

Numbers, texts and bytes as `encoding/json` writes them, with bounds on their lengths: a
character takes at most six bytes and three bytes of data take four.
-/

namespace JsonText

def utf8 (cs : List Char) : List UInt8 := cs.flatMap String.utf8EncodeChar

def alphabet : List Char :=
  "ABCDEFGHIJKLMNOPQRSTUVWXYZabcdefghijklmnopqrstuvwxyz0123456789+/".toList

def digit (n : ℕ) : Char := alphabet.getD n '='

def base64 : List UInt8 → List Char
  | [] => []
  | [a] => [digit (a.toNat / 4), digit (a.toNat % 4 * 16), '=', '=']
  | [a, b] => [digit (a.toNat / 4), digit (a.toNat % 4 * 16 + b.toNat / 16),
      digit (b.toNat % 16 * 4), '=']
  | a :: b :: c :: rest => digit (a.toNat / 4) :: digit (a.toNat % 4 * 16 + b.toNat / 16) ::
      digit (b.toNat % 16 * 4 + c.toNat / 64) :: digit (c.toNat % 64) :: base64 rest

def hexDigit (n : ℕ) : Char := "0123456789abcdef".toList.getD n '0'

/-- The characters that are not written as they are: quotes, backslashes, control characters,
those with a meaning in HTML and two line separators. -/
def escape (c : Char) : List Char :=
  if c = '"' ∨ c = '\\' then ['\\', c]
  else if c = '\n' then ['\\', 'n']
  else if c = '\r' then ['\\', 'r']
  else if c = '\t' then ['\\', 't']
  else if c.toNat = 8 then ['\\', 'b']
  else if c.toNat = 12 then ['\\', 'f']
  else if c.toNat < 32 ∨ c = '<' ∨ c = '>' ∨ c = '&' ∨ c.toNat = 0x2028 ∨ c.toNat = 0x2029 then
    ['\\', 'u', hexDigit (c.toNat / 4096), hexDigit (c.toNat / 256 % 16),
      hexDigit (c.toNat / 16 % 16), hexDigit (c.toNat % 16)]
  else [c]

def text (s : String) : List Char := '"' :: s.toList.flatMap escape ++ ['"']

def natural (n : ℕ) : List Char := n.repr.toList

def integer (n : ℤ) : List Char := (toString n).toList

/-- A slice of bytes; nil is written as `null`. -/
def bytes (b : List UInt8) : List Char :=
  if b = [] then "null".toList else '"' :: base64 b ++ ['"']

def commas (values : List (List UInt8)) : List UInt8 := (values.intersperse (utf8 [','])).flatten

def list (values : List (List UInt8)) : List UInt8 := utf8 ['['] ++ commas values ++ utf8 [']']

def field (key : String) (value : List UInt8) : List UInt8 := utf8 (text key) ++ utf8 [':'] ++ value

def object (fields : List (String × List UInt8)) : List UInt8 :=
  utf8 ['\x7b'] ++ commas (fields.map fun f => field f.1 f.2) ++ utf8 ['\x7d']

theorem length_utf8EncodeChar_le (c : Char) : (String.utf8EncodeChar c).length ≤ 4 := by
  rw [String.length_utf8EncodeChar]
  exact c.utf8Size_le_four

theorem length_utf8EncodeChar_pos (c : Char) : 1 ≤ (String.utf8EncodeChar c).length := by
  rw [String.length_utf8EncodeChar]
  exact c.utf8Size_pos

def ascii (cs : List Char) : Prop := ∀ c ∈ cs, c.toNat < 128

instance (cs : List Char) : Decidable (ascii cs) := List.decidableBAll _ _

theorem utf8_append (cs ds : List Char) : utf8 (cs ++ ds) = utf8 cs ++ utf8 ds := List.flatMap_append

theorem utf8_cons (c : Char) (cs : List Char) :
    utf8 (c :: cs) = String.utf8EncodeChar c ++ utf8 cs := List.flatMap_cons

theorem length_utf8_ascii {cs : List Char} (h : ascii cs) : (utf8 cs).length = cs.length := by
  induction cs with
  | nil => rfl
  | cons c cs ih =>
    have hc : c.utf8Size = 1 := by
      have hlt : c.toNat < 128 := h c List.mem_cons_self
      rw [Char.utf8Size_eq_one_iff, UInt32.le_iff_toNat_le]
      change c.toNat ≤ 127
      omega
    have hcs := ih fun d hd => h d (List.mem_cons_of_mem c hd)
    rw [utf8_cons, List.length_append, String.length_utf8EncodeChar, hc, hcs, List.length_cons,
      Nat.add_comm]

theorem length_le_utf8 (cs : List Char) : cs.length ≤ (utf8 cs).length := by
  induction cs with
  | nil => exact le_rfl
  | cons c cs ih =>
    have hc := length_utf8EncodeChar_pos c
    rw [utf8_cons, List.length_append, List.length_cons]
    omega

theorem length_base64 (b : List UInt8) : (base64 b).length = (b.length + 2) / 3 * 4 := by
  fun_induction base64 b with
  | case1 => rfl
  | case2 | case3 => simp
  | case4 a b c rest ih =>
    simp only [List.length_cons, ih]
    omega

theorem ascii_append {cs ds : List Char} (hc : ascii cs) (hd : ascii ds) : ascii (cs ++ ds) := by
  intro c h
  rcases List.mem_append.1 h with h | h
  · exact hc c h
  · exact hd c h

theorem getD_lt {table : List Char} {n : ℕ} {default : Char} (htable : ascii table)
    (hdefault : default.toNat < 128) : (table.getD n default).toNat < 128 := by
  rw [List.getD_eq_getElem?_getD]
  cases h : table[n]? with
  | none => exact hdefault
  | some c => exact htable c (List.mem_of_getElem? h)

theorem digit_lt (n : ℕ) : (digit n).toNat < 128 := getD_lt (by decide) (by decide)

theorem hexDigit_lt (n : ℕ) : (hexDigit n).toNat < 128 := getD_lt (by decide) (by decide)

theorem ascii_base64 (b : List UInt8) : ascii (base64 b) := by
  unfold ascii
  fun_induction base64 b with
  | case1 => simp
  | case2 | case3 => simp [digit_lt]
  | case4 a b c rest ih => simpa [digit_lt] using ih

theorem length_escape (c : Char) : (utf8 (escape c)).length ≤ 6 := by
  have hshort : ∀ cs : List Char, ascii cs → cs.length ≤ 6 → (utf8 cs).length ≤ 6 := by
    intro cs hcs hlen
    rwa [length_utf8_ascii hcs]
  unfold escape
  split_ifs with hquote
  · apply hshort _ _ (by simp)
    rcases hquote with rfl | rfl <;> decide
  · exact hshort _ (by decide) (by simp)
  · exact hshort _ (by decide) (by simp)
  · exact hshort _ (by decide) (by simp)
  · exact hshort _ (by decide) (by simp)
  · exact hshort _ (by decide) (by simp)
  · apply hshort _ _ (by simp)
    simp [ascii, hexDigit_lt]
  · have hc := length_utf8EncodeChar_le c
    rw [utf8, List.flatMap_singleton]
    omega

theorem length_text (s : String) : (utf8 (text s)).length ≤ 6 * s.toList.length + 2 := by
  have hbody : ∀ cs : List Char, (utf8 (cs.flatMap escape)).length ≤ 6 * cs.length := by
    intro cs
    induction cs with
    | nil => exact le_rfl
    | cons c cs ih =>
      have hc := length_escape c
      rw [List.flatMap_cons, utf8_append, List.length_append, List.length_cons]
      omega
  have hs := hbody s.toList
  have hquote : (utf8 ['"']).length = 1 := length_utf8_ascii (by decide)
  rw [text, ← List.singleton_append, utf8_append, utf8_append, List.length_append, List.length_append, hquote]
  omega

theorem le_length_text (s : String) : s.toList.length ≤ (utf8 (text s)).length := by
  have hbody : ∀ cs : List Char, cs.length ≤ (cs.flatMap escape).length := by
    intro cs
    induction cs with
    | nil => exact le_rfl
    | cons c cs ih =>
      have hc : 1 ≤ (escape c).length := by
        unfold escape
        split_ifs <;> simp
      rw [List.flatMap_cons, List.length_append, List.length_cons]
      omega
  have hs := hbody s.toList
  have hlong := length_le_utf8 (text s)
  rw [text, List.length_append, List.length_cons] at hlong
  rw [text]
  omega

theorem length_natural {n e : ℕ} (he : 0 < e) (hn : n < 10 ^ e) : (utf8 (natural n)).length ≤ e := by
  have hascii : ascii (natural n) := by
    intro c hc
    rw [natural, Nat.toList_repr] at hc
    have hdigit := Nat.isDigit_of_mem_toDigits (by decide) (by decide) hc
    simp only [Char.isDigit, Bool.and_eq_true, decide_eq_true_eq] at hdigit
    have hle : c.val.toNat ≤ 57 := UInt32.le_iff_toNat_le.1 hdigit.2
    change c.val.toNat < 128
    omega
  rw [length_utf8_ascii hascii, natural, Nat.toList_repr]
  exact Nat.toDigits_length 10 n e he hn

theorem length_bytes_of_ne {b : List UInt8} (hb : b ≠ []) :
    (utf8 (bytes b)).length = (b.length + 2) / 3 * 4 + 2 := by
  have hquote : ascii ['"'] := by decide
  have hascii : ascii ('"' :: base64 b ++ ['"']) :=
    ascii_append (ascii_append hquote (ascii_base64 b)) hquote
  rw [bytes, if_neg hb, length_utf8_ascii hascii, List.length_append, List.length_cons, length_base64]
  simp

theorem length_bytes (b : List UInt8) : (utf8 (bytes b)).length ≤ (b.length + 2) / 3 * 4 + 4 := by
  by_cases hb : b = []
  · have hnull : (utf8 "null".toList).length = 4 := length_utf8_ascii (by decide)
    rw [bytes, if_pos hb, hnull]
    omega
  · rw [length_bytes_of_ne hb]
    omega

theorem length_one {c : Char} (h : c.toNat < 128) : (utf8 [c]).length = 1 :=
  length_utf8_ascii fun d hd => by rwa [List.mem_singleton.1 hd]

theorem length_commas (values : List (List UInt8)) :
    (commas values).length ≤ (values.map fun v => v.length + 1).sum := by
  induction values with
  | nil => exact le_rfl
  | cons v rest ih =>
    cases rest with
    | nil => simp [commas]
    | cons w rest =>
      rw [commas, List.intersperse_cons_cons, List.flatten_cons, List.flatten_cons,
        List.length_append, List.length_append, length_one (by decide), List.map_cons,
        List.sum_cons]
      unfold commas at ih
      omega

theorem length_list (values : List (List UInt8)) :
    (list values).length ≤ (values.map fun v => v.length + 1).sum + 2 := by
  have hvalues := length_commas values
  rw [list, List.length_append, List.length_append, length_one (by decide), length_one (by decide)]
  omega

theorem length_field (key : String) (value : List UInt8) :
    (field key value).length = (utf8 (text key)).length + 1 + value.length := by
  rw [field, List.length_append, List.length_append, length_one (by decide)]

theorem length_object (fields : List (String × List UInt8)) : (object fields).length ≤
    (fields.map fun f => (utf8 (text f.1)).length + f.2.length + 2).sum + 2 := by
  have hfields := length_commas (fields.map fun f => field f.1 f.2)
  have hsum : ((fields.map fun f => field f.1 f.2).map fun v => v.length + 1) =
      fields.map fun f => (utf8 (text f.1)).length + f.2.length + 2 := by
    rw [List.map_map]
    refine List.map_congr_left fun f _ => ?_
    simp only [Function.comp_apply, length_field]
    omega
  rw [hsum] at hfields
  rw [object, List.length_append, List.length_append, length_one (by decide),
    length_one (by decide)]
  omega

theorem le_length_commas {values : List (List UInt8)} {v : List UInt8} (h : v ∈ values) :
    v.length ≤ (commas values).length := by
  induction values with
  | nil => cases h
  | cons w rest ih =>
    cases rest with
    | nil =>
      rw [List.mem_singleton.1 h]
      simp [commas]
    | cons x rest =>
      rw [commas, List.intersperse_cons_cons, List.flatten_cons, List.flatten_cons,
        List.length_append, List.length_append]
      rcases List.mem_cons.1 h with rfl | h
      · exact Nat.le_add_right _ _
      · exact (ih h).trans ((Nat.le_add_left _ _).trans (Nat.le_add_left _ _))

theorem le_length_object {fields : List (String × List UInt8)} {f : String × List UInt8}
    (h : f ∈ fields) : f.2.length ≤ (object fields).length := by
  have hle : (field f.1 f.2).length ≤ (commas (fields.map fun f => field f.1 f.2)).length :=
    le_length_commas (List.mem_map.2 ⟨f, h, rfl⟩)
  rw [length_field] at hle
  rw [object, List.length_append, List.length_append]
  omega

end JsonText
