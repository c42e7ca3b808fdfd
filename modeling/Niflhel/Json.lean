import Mathlib.Algebra.Order.Ring.Int
import Mathlib.Data.Int.Notation
import Mathlib.Data.List.Basic
import Mathlib.Tactic.Common

/-!
# JSON values and their tokens

A value and the tokens a reader sees when it goes through the value in document order:
brackets, keys and strings, and other scalars. A number is its literal.
-/

namespace Json

inductive Bracket where
  | curly | square
  deriving DecidableEq, Repr

inductive Token where
  | opening (b : Bracket)
  | closing (b : Bracket)
  | string (s : String)
  | number (literal : String)
  | bool (b : Bool)
  | null
  deriving DecidableEq, Repr

inductive Value where
  | null
  | bool (b : Bool)
  | number (literal : String)
  | string (s : String)
  | array (items : List Value)
  | object (fields : List (String × Value))

mutual

def Value.tokens : Value → List Token
  | .null => [.null]
  | .bool b => [.bool b]
  | .number literal => [.number literal]
  | .string s => [.string s]
  | .array items => .opening .square :: (itemTokens items ++ [.closing .square])
  | .object fields => .opening .curly :: (fieldTokens fields ++ [.closing .curly])

def itemTokens : List Value → List Token
  | [] => []
  | v :: rest => v.tokens ++ itemTokens rest

def fieldTokens : List (String × Value) → List Token
  | [] => []
  | (key, v) :: rest => .string key :: (v.tokens ++ fieldTokens rest)

end

mutual

def Value.depth : Value → ℕ
  | .array items => itemDepth items + 1
  | .object fields => fieldDepth fields + 1
  | _ => 0

def itemDepth : List Value → ℕ
  | [] => 0
  | v :: rest => max v.depth (itemDepth rest)

def fieldDepth : List (String × Value) → ℕ
  | [] => 0
  | (_, v) :: rest => max v.depth (fieldDepth rest)

end

def Token.stringBytes : Token → ℕ
  | .string s => s.utf8ByteSize
  | _ => 0

def textBytes (tokens : List Token) : ℕ := (tokens.map Token.stringBytes).sum

@[simp] theorem textBytes_nil : textBytes [] = 0 := rfl

@[simp] theorem textBytes_cons (t : Token) (tokens : List Token) :
    textBytes (t :: tokens) = t.stringBytes + textBytes tokens := rfl

@[simp] theorem textBytes_append (tokens rest : List Token) :
    textBytes (tokens ++ rest) = textBytes tokens + textBytes rest := by
  simp [textBytes]

inductive Ending where
  | eof
  | failed (error : String)
  deriving DecidableEq, Repr

/-- What a reader returns for some input: the tokens of the values in it, as far as it gets. -/
structure Stream where
  tokens : List Token
  ending : Ending
  sound : ∃ values : List Value, tokens <+: values.flatMap Value.tokens

end Json
