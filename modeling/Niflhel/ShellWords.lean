import Mathlib.Data.List.Basic

/-!
# Words of the POSIX shell

Token recognition of the shell command language, without expansions: a command is read
character by character into words and control operators. Blanks and operators end a word;
single quotes, double quotes and backslashes quote characters, and adjacent parts belong to one
word. An active character, such as an unquoted `$`, stands for an expansion, so that a word has
a fixed value only if it has none. A character stands for a byte of the text.
-/

namespace ShellWords

def singleQuote : Char := '\x27'

def doubleQuote : Char := '\x22'

def backslash : Char := '\x5c'

def isBlank (c : Char) : Bool := c = ' ' || c = '\t'

def isOperator (c : Char) : Bool := "\n&;<>()|".toList.contains c

def expands (c : Char) : Bool := c = '$' || c = '\x60'

def isActive (c : Char) : Bool := expands c || "*?[~".toList.contains c

abbrev Word := List (Char × Bool)

inductive Token where
  | word (w : Word)
  | operator (c : Char)
  deriving DecidableEq

inductive Mode where
  | plain
  | single
  | double
  /-- After a backslash outside of quotes. -/
  | escape
  /-- After a backslash within double quotes. -/
  | doubleEscape
  | comment
  deriving DecidableEq

structure State where
  tokens : List Token
  word : Option Word
  mode : Mode
  deriving DecidableEq

def start : State := ⟨[], none, .plain⟩

def State.push (s : State) (mode : Mode) (cs : Word) : State :=
  ⟨s.tokens, some (s.word.getD [] ++ cs), mode⟩

def State.delimit (s : State) : List Token :=
  match s.word with
  | none => s.tokens
  | some w => s.tokens ++ [.word w]

def plainStep (s : State) (c : Char) : State :=
  if c = singleQuote then s.push .single []
  else if c = doubleQuote then s.push .double []
  else if c = backslash then { s with mode := .escape }
  else if isBlank c then ⟨s.delimit, none, .plain⟩
  else if isOperator c then ⟨s.delimit ++ [.operator c], none, .plain⟩
  else if c = '#' && s.word.isNone then { s with mode := .comment }
  else s.push .plain [(c, isActive c)]

def step (s : State) (c : Char) : Option State :=
  if c = '\x00' then none
  else match s.mode with
    | .plain => some (plainStep s c)
    | .single => some (if c = singleQuote then s.push .plain [] else s.push .single [(c, false)])
    | .double => some (
      if c = doubleQuote then s.push .plain []
      else if c = backslash then { s with mode := .doubleEscape }
      else s.push .double [(c, expands c)])
    | .escape => some (if c = '\n' then { s with mode := .plain } else s.push .plain [(c, false)])
    | .doubleEscape => some (
      if c = '\n' then { s with mode := .double }
      else if expands c || c = doubleQuote || c = backslash then s.push .double [(c, false)]
      else s.push .double [(backslash, false), (c, false)])
    | .comment => some (if c = '\n' then ⟨s.tokens ++ [.operator c], none, .plain⟩ else s)

def scan (s : State) (text : List Char) : Option State := text.foldlM step s

def State.finish (s : State) : Option (List Token) :=
  match s.mode with
  | .plain => some s.delimit
  | .comment => some s.delimit
  | _ => none

def parse (text : List Char) : Option (List Token) := (scan start text).bind State.finish

def literal (s : List Char) : Word := s.map fun c => (c, false)

def Word.value (w : Word) : Option (List Char) :=
  if w.all fun x => !x.2 then some (w.map Prod.fst) else none

theorem value_literal (s : List Char) : Word.value (literal s) = some s := by
  simp [Word.value, literal, Function.comp_def]

theorem scan_append (s : State) (a b : List Char) :
    scan s (a ++ b) = (scan s a).bind fun t => scan t b := List.foldlM_append

theorem scan_cons (s : State) (c : Char) (cs : List Char) :
    scan s (c :: cs) = (step s c).bind fun t => scan t cs := List.foldlM_cons

def State.after (ts : List Token) (s : State) : State := { s with tokens := ts ++ s.tokens }

theorem State.after_delimit (ts : List Token) (s : State) :
    (s.after ts).delimit = ts ++ s.delimit := by
  obtain ⟨tokens, word, mode⟩ := s
  cases word <;> simp [State.after, State.delimit]

theorem step_after (ts : List Token) (s : State) (c : Char) :
    step (s.after ts) c = (step s c).map (State.after ts) := by
  have hplain : plainStep (s.after ts) c = (plainStep s c).after ts := by
    unfold plainStep
    rw [State.after_delimit]
    split_ifs <;> first | rfl | simp_all [State.after]
  unfold step
  by_cases hnul : c = '\x00'
  · rw [if_pos hnul, if_pos hnul]
    rfl
  · rw [if_neg hnul, if_neg hnul]
    obtain ⟨tokens, word, mode⟩ := s
    cases mode with
    | plain => exact congrArg some hplain
    | comment =>
      simp only [State.after, Option.map_some]
      split_ifs <;> simp
    | _ =>
      split_ifs <;> rfl

/-- Tokens that have been read have no effect on the rest. -/
theorem scan_after (ts : List Token) (s : State) (text : List Char) :
    scan (s.after ts) text = (scan s text).map (State.after ts) := by
  induction text generalizing s with
  | nil => rfl
  | cons c text ih =>
    rw [scan_cons, scan_cons, step_after]
    cases step s c with
    | none => rfl
    | some s' => exact ih s'

/-- The text reads as complete words with these values. -/
def Reads (text : List Char) (words : List (List Char)) : Prop :=
  scan start text = some ⟨words.map fun w => .word (literal w), none, .plain⟩

instance (text : List Char) (words : List (List Char)) : Decidable (Reads text words) :=
  inferInstanceAs (Decidable (_ = _))

theorem Reads.append {a b : List Char} {ws vs : List (List Char)} (ha : Reads a ws)
    (hb : Reads b vs) : Reads (a ++ b) (ws ++ vs) := by
  rw [Reads, scan_append, ha, Option.bind_some]
  have hstart : (⟨ws.map fun w => .word (literal w), none, .plain⟩ : State) =
      start.after (ws.map fun w => .word (literal w)) := by simp [start, State.after]
  rw [hstart, scan_after, hb]
  simp [State.after]

end ShellWords
