import Mathlib.Data.List.TakeWhile
import Niflhel.PrefixCode

/-!
# Records on lines of a file

A log appends one line for each record. A write can be cut off, and what is written next then
continues the line that the cut has left. A reader takes lines until one is too long, and skips
those that are not exactly one record. A record is read if and only if its line begins after a
newline and no line up to it is too long.
-/

/-- Texts of records. Neither a part of a text nor several parts one after the other are read as
a record, and no text has a line break. -/
structure LineCodec (α : Type) where
  encode : α → List UInt8
  decode : List UInt8 → Option α
  decode_encode : ∀ a, decode (encode a) = some a
  plain : ∀ a, ∀ b ∈ encode a, b ≠ 10 ∧ b ≠ 13
  decode_nil : decode [] = none
  decode_take : ∀ a n, n < (encode a).length → decode ((encode a).take n) = none
  decode_joined : ∀ parts : List (List UInt8), (∀ p ∈ parts, p ≠ [] ∧ ∃ a, p <+: encode a) →
    2 ≤ parts.length → decode parts.flatten = none

namespace LineLog
variable {α : Type}

/-- The lines after the beginning of one. What stands after the last newline is a line if it is
not empty. -/
def scanLines : List UInt8 → List UInt8 → List (List UInt8)
  | line, [] => if line = [] then [] else [line]
  | line, b :: rest => if b = 10 then line :: scanLines [] rest else scanLines (line ++ [b]) rest

def dropCR (line : List UInt8) : List UInt8 :=
  if line.getLast? = some 13 then line.dropLast else line

def scan (c : LineCodec α) (max : ℕ) (bytes : List UInt8) : List α :=
  ((scanLines [] bytes).takeWhile fun line => decide (line.length < max)).filterMap fun line =>
    c.decode (dropCR line)

/-- What one write has left in a file: a line, of a call that has or has not returned without an
error, or the first `n` bytes of a line's text. -/
inductive Put (α : Type) where
  | line (a : α) (done : Bool)
  | part (a : α) (n : ℕ)
  deriving DecidableEq, Repr

namespace Put

def record : Put α → α
  | line a _ => a
  | part a _ => a

def done : Put α → Bool
  | line _ done => done
  | part _ _ => false

def text (c : LineCodec α) : Put α → List UInt8
  | line a _ => c.encode a
  | part a n => (c.encode a).take n

def bytes (c : LineCodec α) : Put α → List UInt8
  | line a _ => c.encode a ++ [10]
  | part a n => (c.encode a).take n

end Put

def content (c : LineCodec α) (file : List (Put α)) : List UInt8 := file.flatMap (Put.bytes c)

def text (c : LineCodec α) (line : List (Put α)) : List UInt8 := line.flatMap (Put.text c)

def gather (c : LineCodec α) : List (Put α) → List (Put α) → List (List (Put α))
  | line, [] => if text c line = [] then [] else [line]
  | line, .line a done :: rest => (line ++ [.line a done]) :: gather c [] rest
  | line, .part a n :: rest => gather c (line ++ [.part a n]) rest

def sole (c : LineCodec α) (line : List (Put α)) : Option (Put α) :=
  match line.filter fun e => !(e.text c).isEmpty with
  | [e] => if e.text c = c.encode e.record then some e else none
  | _ => none

def readableFrom (c : LineCodec α) (max : ℕ) (line file : List (Put α)) : List (Put α) :=
  ((gather c line file).takeWhile fun l => decide ((text c l).length < max)).filterMap (sole c)

def readable (c : LineCodec α) (max : ℕ) (file : List (Put α)) : List (Put α) :=
  readableFrom c max [] file

def Ended (bytes : List UInt8) : Prop := bytes = [] ∨ bytes.getLast? = some 10

/-- Each record of a finished call begins a line, and all lines up to it fit. -/
def Clear (c : LineCodec α) (max : ℕ) (file : List (Put α)) : Prop :=
  ∀ front e rest, file = front ++ e :: rest → e.done = true → Ended (content c front) ∧
    ∀ line ∈ scanLines [] (content c (front ++ [e])), line.length < max

section texts
variable {c : LineCodec α} {max : ℕ} {line file l m : List (Put α)} {e : Put α} {p : List UInt8}
  {a : α} {n : ℕ} {d : Bool}

theorem encode_ne_nil (c : LineCodec α) (a : α) : c.encode a ≠ [] := by
  intro hnil
  have hnone := c.decode_nil
  rw [← hnil, c.decode_encode] at hnone
  cases hnone

theorem Put.text_prefix (e : Put α) : e.text c <+: c.encode e.record := by
  cases e with
  | line a d => exact List.prefix_rfl
  | part a n => exact List.take_prefix n _

theorem Put.text_plain {b : UInt8} (hb : b ∈ e.text c) : b ≠ 10 ∧ b ≠ 13 :=
  c.plain e.record b (e.text_prefix.subset hb)

theorem text_append : text c (l ++ m) = text c l ++ text c m := List.flatMap_append

theorem text_singleton : text c [e] = e.text c := by simp [text]

theorem text_plain {b : UInt8} (hb : b ∈ text c line) : b ≠ 10 ∧ b ≠ 13 := by
  obtain ⟨e, -, hb⟩ := List.mem_flatMap.1 hb
  exact Put.text_plain hb

theorem dropCR_text : dropCR (text c line) = text c line := by
  unfold dropCR
  rw [if_neg]
  intro hlast
  exact (text_plain (List.mem_of_getLast? hlast)).2 rfl

theorem scanLines_plain {line rest : List UInt8} (hp : ∀ b ∈ p, b ≠ 10) :
    scanLines line (p ++ rest) = scanLines (line ++ p) rest := by
  induction p generalizing line with
  | nil => simp
  | cons b p ih =>
    have hb : b ≠ 10 := hp b List.mem_cons_self
    have hrest := @ih (line ++ [b]) fun b hb => hp b (List.mem_cons_of_mem _ hb)
    rw [List.cons_append, scanLines, if_neg hb, hrest, List.append_assoc, List.singleton_append]

theorem scanLines_line {line rest : List UInt8} :
    scanLines line (content c [.line a d] ++ rest) = (line ++ c.encode a) :: scanLines [] rest := by
  have hline : content c [.line a d] = c.encode a ++ [10] := by simp [content, Put.bytes]
  rw [hline, List.append_assoc, scanLines_plain fun b hb => (c.plain a b hb).1]
  exact if_pos rfl

theorem scanLines_part {line rest : List UInt8} : scanLines line (content c [.part a n] ++ rest) =
      scanLines (line ++ Put.text c (.part a n)) rest := by
  have hpart : content c [.part a n] = Put.text c (.part a n) := by
    simp [content, Put.bytes, Put.text]
  rw [hpart, scanLines_plain fun b hb => (Put.text_plain hb).1]

theorem content_cons : content c (e :: file) = content c [e] ++ content c file := by
  simp [content]

theorem scanLines_content :
    scanLines (text c line) (content c file) = (gather c line file).map (text c) := by
  induction file generalizing line with
  | nil =>
    unfold gather
    by_cases hnil : text c line = []
    · rw [if_pos hnil, hnil]
      rfl
    · rw [if_neg hnil]
      exact if_neg hnil
  | cons e file ih =>
    rw [content_cons]
    cases e with
    | line a d =>
      have hnext := @ih []
      rw [scanLines_line, gather, List.map_cons, text_append, text_singleton, ← hnext]
      rfl
    | part a n =>
      rw [scanLines_part, gather, ← ih, text_append, text_singleton]

theorem text_eq_flatten :
    text c line = ((line.filter fun e => !(e.text c).isEmpty).map (Put.text c)).flatten := by
  induction line with
  | nil => rfl
  | cons e line ih =>
    have hcons : text c (e :: line) = e.text c ++ text c line := rfl
    rw [hcons, ih]
    by_cases hnil : e.text c = []
    · rw [List.filter_cons_of_neg (by simp [hnil]), hnil, List.nil_append]
    · rw [List.filter_cons_of_pos (by simpa using hnil), List.map_cons, List.flatten_cons]

theorem decode_put : c.decode (e.text c) = if e.text c = c.encode e.record then some e.record else none := by
  by_cases hwhole : e.text c = c.encode e.record
  · rw [if_pos hwhole, hwhole, c.decode_encode]
  · rw [if_neg hwhole]
    cases e with
    | line a d => exact absurd rfl hwhole
    | part a n =>
      apply c.decode_take
      by_contra hn
      exact hwhole (List.take_of_length_le (not_lt.1 hn))

/-- A line is read as the record of its only write, if that is whole. -/
theorem decode_text : c.decode (dropCR (text c line)) = (sole c line).map Put.record := by
  rw [dropCR_text, text_eq_flatten]
  unfold sole
  have hparts : ∀ e ∈ line.filter fun e => !(e.text c).isEmpty, e.text c ≠ [] := by
    intro e he
    simpa using (List.mem_filter.1 he).2
  generalize line.filter (fun e => !(e.text c).isEmpty) = parts at hparts ⊢
  match parts, hparts with
  | [], _ => exact c.decode_nil
  | [e], _ =>
    rw [List.map_cons, List.map_nil, List.flatten_cons, List.flatten_nil, List.append_nil,
      decode_put]
    by_cases hwhole : e.text c = c.encode e.record
    · simp [hwhole]
    · simp [hwhole]
  | e :: e' :: rest, hparts =>
    apply c.decode_joined
    · intro p hp
      obtain ⟨x, hx, rfl⟩ := List.mem_map.1 hp
      exact ⟨hparts x hx, x.record, x.text_prefix⟩
    · simp

/-- The records that are read are those of the readable writes. -/
theorem scan_content : scan c max (content c file) = (readable c max file).map Put.record := by
  have hlines : scanLines [] (content c file) = (gather c [] file).map (text c) :=
    @scanLines_content α c [] file
  unfold scan readable readableFrom
  rw [hlines, List.takeWhile_map, List.filterMap_map, List.map_filterMap]
  apply List.filterMap_congr
  intro l _
  exact decode_text

end texts

section lost
variable {c : LineCodec α} {max : ℕ} {line file base new : List (Put α)} {e : Put α} {a : α}
  {n : ℕ} {d : Bool}

theorem mem_of_sole (h : sole c line = some e) : e ∈ line ∧ e.text c ≠ [] := by
  unfold sole at h
  split at h
  · rename_i x hx
    split_ifs at h
    cases h
    have hmem : e ∈ line.filter fun e => !(e.text c).isEmpty := by
      rw [hx]
      exact List.mem_singleton_self e
    obtain ⟨hline, hne⟩ := List.mem_filter.1 hmem
    exact ⟨hline, by simpa using hne⟩
  · cases h

/-- The end of a line is read if nothing stands before it. -/
theorem sole_line (hnil : text c line = []) : sole c (line ++ [.line a d]) = some (.line a d) := by
  have hempty : line.filter (fun e => !(e.text c).isEmpty) = [] := by
    rw [List.filter_eq_nil_iff]
    intro e he
    have hnone : e.text c = [] := List.flatMap_eq_nil_iff.1 hnil e he
    simp [hnone]
  have hne : c.encode a ≠ [] := encode_ne_nil c a
  unfold sole
  rw [List.filter_append, hempty, List.nil_append, List.filter_cons_of_pos (by simpa [Put.text] using hne)]
  exact if_pos rfl

theorem sole_joined (hne : text c line ≠ []) : sole c (line ++ [.line a d]) = none := by
  have hpart : line.filter (fun e => !(e.text c).isEmpty) ≠ [] := by
    intro hempty
    apply hne
    rw [text_eq_flatten, hempty]
    rfl
  have hend : c.encode a ≠ [] := encode_ne_nil c a
  unfold sole
  rw [List.filter_append, List.filter_cons_of_pos (by simpa [Put.text] using hend), List.filter_nil]
  generalize line.filter (fun e => !(e.text c).isEmpty) = parts at hpart ⊢
  match parts, hpart with
  | [], hpart => exact absurd rfl hpart
  | [x], _ => rfl
  | x :: y :: rest, _ => rfl

theorem readableFrom_part : readableFrom c max line (.part a n :: file) =
    readableFrom c max (line ++ [.part a n]) file := rfl

theorem readableFrom_line : readableFrom c max line (.line a d :: file) =
    if (text c line ++ c.encode a).length < max then
      (sole c (line ++ [.line a d])).toList ++ readableFrom c max [] file else [] := by
  have htext : text c (line ++ [.line a d]) = text c line ++ c.encode a := by
    rw [text_append, text_singleton]
    rfl
  unfold readableFrom
  rw [gather]
  by_cases hfit : (text c line ++ c.encode a).length < max
  · rw [if_pos hfit, List.takeWhile_cons_of_pos (by simpa [htext] using hfit)]
    cases hsole : sole c (line ++ [.line a d]) with
    | none => rw [List.filterMap_cons_none hsole, Option.toList_none, List.nil_append]
    | some e => rw [List.filterMap_cons_some hsole, Option.toList_some, List.singleton_append]
  · rw [if_neg hfit, List.takeWhile_cons_of_neg (by simpa [htext] using hfit)]
    rfl

theorem sole_sublist : (sole c line).toList.Sublist line := by
  cases hsole : sole c line with
  | none => exact List.nil_sublist _
  | some e => exact List.singleton_sublist.2 (mem_of_sole hsole).1

theorem readableFrom_sublist : (readableFrom c max line file).Sublist (line ++ file) := by
  induction file generalizing line with
  | nil =>
    unfold readableFrom gather
    by_cases hnil : text c line = []
    · rw [if_pos hnil]
      exact List.nil_sublist _
    · rw [if_neg hnil, List.append_nil, List.takeWhile_cons, List.takeWhile_nil]
      split
      · cases hsole : sole c line with
        | none => simp [hsole]
        | some e => simpa [hsole] using (mem_of_sole hsole).1
      · exact List.nil_sublist _
  | cons e file ih =>
    cases e with
    | line a d =>
      rw [List.append_cons line (.line a d) file, readableFrom_line]
      split
      · have hrest := @ih []
        exact sole_sublist.append hrest
      · exact List.nil_sublist _
    | part a n =>
      rw [List.append_cons line (.part a n) file, readableFrom_part]
      exact ih

theorem readable_sublist : (readable c max file).Sublist file := @readableFrom_sublist α c max [] file

/-- What a file needs from some point on so that no record of a finished call is lost. -/
def ClearFrom (c : LineCodec α) (max : ℕ) (line : List UInt8) (file : List (Put α)) : Prop :=
  ∀ front e rest, file = front ++ e :: rest → e.done = true →
    Ended (line ++ content c front) ∧
      ∀ l ∈ scanLines line (content c (front ++ [e])), l.length < max

theorem clearFrom_part {bytes : List UInt8} : ClearFrom c max bytes (.part a n :: file) ↔
    ClearFrom c max (bytes ++ Put.text c (.part a n)) file := by
  have hpart : content c [.part a n] = Put.text c (.part a n) := by
    simp [content, Put.bytes, Put.text]
  have hstep : ∀ front e, bytes ++ content c (.part a n :: front) =
        bytes ++ Put.text c (.part a n) ++ content c front ∧
      scanLines bytes (content c (.part a n :: (front ++ [e]))) =
        scanLines (bytes ++ Put.text c (.part a n)) (content c (front ++ [e])) := by
    intro front e
    rw [content_cons, hpart, List.append_assoc, content_cons, scanLines_part]
    exact ⟨rfl, rfl⟩
  constructor
  · intro h front e rest hfile hdone
    have hclear := h (.part a n :: front) e rest (by rw [hfile]; rfl) hdone
    rwa [List.cons_append, (hstep front e).1, (hstep front e).2] at hclear
  · intro h front e rest hfile hdone
    cases front with
    | nil =>
      obtain ⟨rfl, -⟩ := List.cons.inj hfile
      cases hdone
    | cons x front =>
      obtain ⟨rfl, hrest⟩ := List.cons.inj hfile
      rw [List.cons_append, (hstep front e).1, (hstep front e).2]
      exact h front e rest hrest hdone

theorem ended_append_line {bytes : List UInt8} :
    Ended (bytes ++ content c (.line a d :: file)) ↔ Ended (content c file) := by
  have hline : content c [.line a d] = c.encode a ++ [10] := by simp [content, Put.bytes]
  rw [content_cons, hline]
  unfold Ended
  by_cases hnil : content c file = []
  · rw [hnil, List.append_nil, ← List.append_assoc]
    simp
  · rw [← List.append_assoc, List.getLast?_append_of_ne_nil _ hnil]
    simp [hnil]

theorem clearFrom_line {bytes : List UInt8} (hplain : (10 : UInt8) ∉ bytes) :
    ClearFrom c max bytes (.line a d :: file) ↔
      (d = true → bytes = []) ∧
        ((d = true ∨ ∃ e ∈ file, e.done = true) → (bytes ++ c.encode a).length < max) ∧
        ClearFrom c max [] file := by
  have hscan : ∀ front e, scanLines bytes (content c (.line a d :: (front ++ [e]))) =
      (bytes ++ c.encode a) :: scanLines [] (content c (front ++ [e])) := by
    intro front e
    rw [content_cons, scanLines_line]
  have halone : scanLines bytes (content c ([] ++ [.line a d])) = [bytes ++ c.encode a] := by
    have hline := @scanLines_line α c a d bytes []
    rw [List.append_nil] at hline
    exact hline
  constructor
  · intro h
    refine ⟨fun hd => ?_, ?_, fun front e rest hfile hdone => ?_⟩
    · obtain ⟨hended, -⟩ := h [] (.line a d) file rfl hd
      rcases hended with hnil | hlast
      · exact (List.append_eq_nil_iff.1 hnil).1
      · have hmem := List.mem_of_getLast? hlast
        simp [content, hplain] at hmem
    · rintro (hd | ⟨e, he, hdone⟩)
      · obtain ⟨-, hfits⟩ := h [] (.line a d) file rfl hd
        apply hfits
        rw [halone]
        exact List.mem_singleton_self _
      · obtain ⟨front, rest, hfile⟩ := List.append_of_mem he
        obtain ⟨-, hfits⟩ := h (.line a d :: front) e rest (by rw [hfile]; rfl) hdone
        apply hfits
        rw [List.cons_append, hscan]
        exact List.mem_cons_self
    · obtain ⟨hended, hfits⟩ := h (.line a d :: front) e rest (by rw [hfile]; rfl) hdone
      rw [List.cons_append, hscan] at hfits
      exact ⟨ended_append_line.1 hended, fun l hl => hfits l (List.mem_cons_of_mem _ hl)⟩
  · rintro ⟨hnil, hfit, hclear⟩ front e rest hfile hdone
    cases front with
    | nil =>
      obtain ⟨rfl, -⟩ := List.cons.inj hfile
      have hd : d = true := hdone
      rw [halone]
      refine ⟨Or.inl ?_, fun l hl => ?_⟩
      · rw [hnil hd]
        rfl
      · rw [List.mem_singleton.1 hl]
        exact hfit (Or.inl hd)
    | cons x front =>
      obtain ⟨rfl, hrest⟩ := List.cons.inj hfile
      obtain ⟨hended, hfits⟩ := hclear front e rest hrest hdone
      rw [List.cons_append, hscan]
      refine ⟨ended_append_line.2 hended, fun l hl => ?_⟩
      rcases List.mem_cons.1 hl with rfl | hl
      · exact hfit (Or.inr ⟨e, by rw [hrest]; simp, hdone⟩)
      · exact hfits l hl

theorem filter_toList_sole (hline : ∀ e ∈ line, e.done = false) (hd : d = false) :
    (sole c (line ++ [.line a d])).toList.filter Put.done = [] := by
  rw [List.filter_eq_nil_iff]
  intro e he
  have hmem := sole_sublist.subset he
  rcases List.mem_append.1 hmem with hmem | hmem
  · rw [hline e hmem]
    decide
  · rw [List.mem_singleton.1 hmem]
    simp [Put.done, hd]

theorem filter_readable_le : ((readableFrom c max [] file).filter Put.done).length ≤
    (file.filter Put.done).length :=
  (readable_sublist.filter Put.done).length_le

/-- No record of a finished call is lost if and only if the file is clear. -/
theorem filter_readableFrom (hline : ∀ e ∈ line, e.done = false) :
    (readableFrom c max line file).filter Put.done = file.filter Put.done ↔
      ClearFrom c max (text c line) file := by
  induction file generalizing line with
  | nil =>
    refine ⟨fun _ front e rest hfile => ?_, fun _ => ?_⟩
    · cases front <;> cases hfile
    · rw [List.filter_nil, List.filter_eq_nil_iff]
      intro e he
      have hmem := readableFrom_sublist.subset he
      rw [List.append_nil] at hmem
      rw [hline e hmem]
      decide
  | cons e file ih =>
    cases e with
    | part a n =>
      have hnext : ∀ e ∈ line ++ [Put.part a n], e.done = false := by
        intro e he
        rcases List.mem_append.1 he with he | he
        · exact hline e he
        · rw [List.mem_singleton.1 he]
          rfl
      have hdrop : (Put.part a n :: file).filter Put.done = file.filter Put.done := rfl
      rw [readableFrom_part, hdrop, clearFrom_part, ih hnext, text_append, text_singleton]
    | line a d =>
      have hplain : (10 : UInt8) ∉ text c line := fun hmem => (text_plain hmem).1 rfl
      rw [readableFrom_line, clearFrom_line hplain]
      have hrest := @ih [] (by simp)
      by_cases hfit : (text c line ++ c.encode a).length < max
      · rw [if_pos hfit, List.filter_append]
        cases hd : d with
        | false =>
          have hdrop : (Put.line a false :: file).filter Put.done = file.filter Put.done := rfl
          rw [filter_toList_sole hline rfl, List.nil_append, hdrop, hrest]
          exact ⟨fun h => ⟨fun hd => absurd hd (by decide), fun _ => hfit, h⟩, fun h => h.2.2⟩
        | true =>
          have hkeep : (Put.line a true :: file).filter Put.done =
              .line a true :: file.filter Put.done := rfl
          rw [hkeep]
          by_cases hnil : text c line = []
          · rw [sole_line hnil]
            change Put.line a true :: (readableFrom c max [] file).filter Put.done = _ ↔ _
            rw [List.cons_inj_right, hrest]
            exact ⟨fun h => ⟨fun _ => hnil, fun _ => hfit, h⟩, fun h => h.2.2⟩
          · rw [sole_joined hnil]
            refine ⟨fun h => ?_, fun h => absurd (h.1 rfl) hnil⟩
            have hle := @filter_readable_le α c max file
            have hlen := congrArg List.length h
            simp only [Option.toList_none, List.filter_nil, List.nil_append,
              List.length_cons] at hlen
            omega
      · rw [if_neg hfit, List.filter_nil]
        refine ⟨fun h => ?_, fun ⟨_, hlong, _⟩ => ?_⟩
        · have hnone := List.filter_eq_nil_iff.1 h.symm
          have hd : ¬ d = true := hnone (.line a d) List.mem_cons_self
          have hfile : ∀ e ∈ file, ¬ e.done = true :=
            fun e he => hnone e (List.mem_cons_of_mem _ he)
          refine ⟨fun h => absurd h hd, ?_, fun front e rest hsplit hdone => ?_⟩
          · rintro (h | ⟨e, he, hdone⟩)
            · exact absurd h hd
            · exact absurd hdone (hfile e he)
          · exact absurd hdone (hfile e (by rw [hsplit]; simp))
        · symm
          rw [List.filter_eq_nil_iff]
          intro e he hdone
          apply hfit
          apply hlong
          rcases List.mem_cons.1 he with rfl | he
          · exact Or.inl hdone
          · exact Or.inr ⟨e, he, hdone⟩

theorem filter_readable :
    (readable c max file).filter Put.done = file.filter Put.done ↔ Clear c max file :=
  @filter_readableFrom α c max [] file (by simp)

theorem done_of_mem_readableFrom (hnew : ∀ e ∈ new, e.done = true) (he : e ∈ readableFrom c max [] new) :
    e.done = true := hnew e (readable_sublist.subset he)

theorem mem_readable_of_append (hnew : ∀ e ∈ new, e.done = true)
    (he : e ∈ readableFrom c max line (base ++ new)) (hdone : e.done = false) :
    e ∈ readableFrom c max line base := by
  induction base generalizing line with
  | nil =>
    cases new with
    | nil => exact he
    | cons x new => ?_
    cases x with
    | part a n =>
      have hpart := hnew _ List.mem_cons_self
      cases hpart
    | line a d =>
      -- The first of them ends the line, and is the only one that can be read from it.
      have hd : d = true := hnew (.line a d) List.mem_cons_self
      rw [List.nil_append, readableFrom_line] at he
      split at he
      · rcases List.mem_append.1 he with he | he
        · by_cases hnil : text c line = []
          · rw [sole_line hnil] at he
            have heq : e = .line a d := by simpa using he
            rw [heq, Put.done, hd] at hdone
            cases hdone
          · rw [sole_joined hnil] at he
            cases he
        · have htrue := done_of_mem_readableFrom (fun e he => hnew e (List.mem_cons_of_mem _ he)) he
          rw [htrue] at hdone
          cases hdone
      · cases he
  | cons x base ih =>
    cases x with
    | part a n => exact ih he
    | line a d => ?_
    rw [List.cons_append, readableFrom_line] at he
    rw [readableFrom_line]
    split at he
    · rename_i hfit
      rw [if_pos hfit]
      rcases List.mem_append.1 he with he | he
      · exact List.mem_append_left _ he
      · exact List.mem_append_right _ (ih he)
    · cases he

end lost

/-- Values that only selected elements have are all kept if and only if the elements are. -/
theorem map_filter_sublist_iff {β γ : Type} [DecidableEq γ] {p : β → Bool} {g : β → γ}
    {all kept : List β} (hkept : kept.Sublist all)
    (hapart : ∀ x ∈ all, p x = true → ∀ y ∈ kept, p y = false → g x ≠ g y) :
    ((all.filter p).map g).Sublist (kept.map g) ↔ kept.filter p = all.filter p := by
  constructor
  · intro h
    refine (hkept.filter p).eq_of_length_le ?_
    have hvalues := h.filter fun v => decide (v ∈ (all.filter p).map g)
    rw [List.filter_eq_self.2 fun v hv => decide_eq_true hv, List.filter_map] at hvalues
    have honly : kept.filter ((fun v => decide (v ∈ (all.filter p).map g)) ∘ g) =
        (kept.filter p).filter ((fun v => decide (v ∈ (all.filter p).map g)) ∘ g) := by
      rw [List.filter_filter]
      apply List.filter_congr
      intro y hy
      by_cases hselected : p y = true
      · rw [hselected, Bool.and_true]
      · have hother : g y ∉ (all.filter p).map g := by
          intro hmem
          obtain ⟨x, hx, hvalue⟩ := List.mem_map.1 hmem
          obtain ⟨hall, hpx⟩ := List.mem_filter.1 hx
          exact hapart x hall hpx y hy (by simpa using hselected) hvalue
        simp only [Function.comp_apply, decide_eq_false hother, Bool.false_and]
    rw [honly] at hvalues
    have hle := hvalues.length_le
    rw [List.length_map, List.length_map] at hle
    exact hle.trans List.filter_sublist.length_le
  · intro h
    rw [← h]
    exact (List.filter_sublist).map g

namespace Braces

def hex (b : UInt8) : List UInt8 := [97 + b / 16, 97 + b % 16]

def isHex (b : UInt8) : Bool := 97 ≤ b && b < 113

def unhex : List UInt8 → List UInt8
  | a :: b :: rest => ((a - 97) * 16 + (b - 97)) :: unhex rest
  | _ => []

theorem isHex_hex {b x : UInt8} (hx : x ∈ hex b) : isHex x = true := by
  have hb : b.toNat < 256 := b.toNat_lt
  have hsmall : ∀ y : UInt8, y.toNat < 16 → isHex (97 + y) = true := by
    intro y hy
    have hsum : (97 + y).toNat = 97 + y.toNat := by
      exact Nat.mod_eq_of_lt (by simp; omega)
    simp [isHex, UInt8.le_iff_toNat_le, UInt8.lt_iff_toNat_lt, hsum]
    omega
  rcases List.mem_cons.1 hx with rfl | hx
  · apply hsmall
    change b.toNat / 16 < 16
    omega
  · rw [List.mem_singleton.1 hx]
    apply hsmall
    exact Nat.mod_lt _ (by decide)

theorem unhex_hex (b : UInt8) : (97 + b / 16 - 97) * 16 + (97 + b % 16 - 97) = b := by
  have hb : b.toNat < 256 := b.toNat_lt
  rw [UInt8.add_comm 97, UInt8.add_sub_cancel, UInt8.add_comm 97, UInt8.add_sub_cancel]
  apply UInt8.toNat_inj.1
  change (b.toNat / 16 * 16 % 256 + b.toNat % 16) % 256 = b.toNat
  omega

theorem unhex_flatMap (bytes : List UInt8) : unhex (bytes.flatMap hex) = bytes := by
  induction bytes with
  | nil => rfl
  | cons b bytes ih =>
    change ((97 + b / 16 - 97) * 16 + (97 + b % 16 - 97)) :: unhex (bytes.flatMap hex) = _
    rw [ih, unhex_hex]

def decode {α : Type} (c : PrefixCode α) : List UInt8 → Option α
  | [] => none
  | b :: rest =>
    if b = 123 ∧ rest.getLast? = some 125 ∧ rest.dropLast.all isHex then
      (c.decode (unhex rest.dropLast)).bind fun x => if x.2 = [] then some x.1 else none
    else none

def encode {α : Type} (c : PrefixCode α) (a : α) : List UInt8 :=
  123 :: ((c.encode a).flatMap hex ++ [125])

variable {c : PrefixCode α} {a : α} {b : UInt8}

theorem isHex_of_mem (hb : b ∈ (c.encode a).flatMap hex) : isHex b = true := by
  obtain ⟨x, -, hb⟩ := List.mem_flatMap.1 hb
  exact isHex_hex hb

theorem decode_encode : decode c (encode c a) = some a := by
  have hall : ((c.encode a).flatMap hex).all isHex = true :=
    List.all_eq_true.2 fun b hb => isHex_of_mem hb
  have hcode : c.decode (c.encode a) = some (a, []) := by
    have happend := c.decode_append a []
    rwa [List.append_nil] at happend
  rw [encode, decode, List.getLast?_concat, List.dropLast_concat, if_pos ⟨rfl, rfl, hall⟩, unhex_flatMap, hcode]
  rfl

theorem plain (hb : b ∈ encode c a) : b ≠ 10 ∧ b ≠ 13 := by
  rcases List.mem_cons.1 hb with rfl | hb
  · decide
  rcases List.mem_append.1 hb with hb | hb
  · have hhex := isHex_of_mem hb
    constructor
    · rintro rfl
      revert hhex
      decide
    · rintro rfl
      revert hhex
      decide
  · rw [List.mem_singleton.1 hb]
    decide

/-- The closing brace is the last byte. -/
theorem decode_take {n : ℕ} (hn : n < (encode c a).length) : decode c ((encode c a).take n) = none := by
  cases n with
  | zero => rfl
  | succ n => ?_
  rw [encode, List.take_succ_cons, decode, if_neg]
  rintro ⟨-, hlast, -⟩
  rw [encode, List.length_cons, List.length_append, List.length_singleton] at hn
  rw [List.take_append_of_le_length (by omega)] at hlast
  have hmem := (List.take_subset _ _) (List.mem_of_getLast? hlast)
  have hhex := isHex_of_mem hmem
  revert hhex
  decide

/-- A text has one opening brace. -/
theorem decode_joined {parts : List (List UInt8)}
    (hparts : ∀ p ∈ parts, p ≠ [] ∧ ∃ a, p <+: encode c a) (hlen : 2 ≤ parts.length) :
    decode c parts.flatten = none := by
  have hopen : ∀ p ∈ parts, ∃ q, p = 123 :: q := by
    intro p hp
    obtain ⟨hne, a, hfront⟩ := hparts p hp
    cases p with
    | nil => exact absurd rfl hne
    | cons b q => exact ⟨q, by rw [(List.cons_prefix_cons.1 hfront).1]⟩
  match parts, hopen, hlen with
  | p :: p' :: rest, hopen, _ =>
    obtain ⟨q, rfl⟩ := hopen p (by simp)
    obtain ⟨q', rfl⟩ := hopen p' (by simp)
    rw [List.flatten_cons, List.flatten_cons, List.cons_append, decode, if_neg]
    rintro ⟨-, hlast, hall⟩
    have hmem : (123 : UInt8) ∈ q ++ (123 :: q' ++ rest.flatten) := by simp
    have hne : q ++ (123 :: q' ++ rest.flatten) ≠ [] := List.ne_nil_of_mem hmem
    rw [← List.dropLast_append_getLast hne] at hmem
    rcases List.mem_append.1 hmem with hmem | hmem
    · have hhex := List.all_eq_true.1 hall 123 hmem
      revert hhex
      decide
    · rw [List.getLast?_eq_getLast_of_ne_nil hne] at hlast
      rw [Option.some.inj hlast] at hmem
      revert hmem
      decide

end Braces

def braces (c : PrefixCode α) : LineCodec α where
  encode := Braces.encode c
  decode := Braces.decode c
  decode_encode _ := Braces.decode_encode
  plain _ _ hb := Braces.plain hb
  decode_nil := rfl
  decode_take _ _ hn := Braces.decode_take hn
  decode_joined _ hparts hlen := Braces.decode_joined hparts hlen

end LineLog
