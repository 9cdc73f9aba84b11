import DiceTally.Text.Blank
import DiceTally.Value

/-!
# Conditions

A condition says of a die, given by its value and its position in the pool, whether a guarded operation applies to
it.  `Condition.render` writes a condition in the words of the language; a compound operand is put in brackets.
-/

namespace DiceTally

inductive Comparison where
  | eq
  | ne
  | gt
  | ge
  | lt
  | le
  deriving DecidableEq, Repr

namespace Comparison

def keyword : Comparison → String
  | eq => "eq"
  | ne => "ne"
  | gt => "gt"
  | ge => "ge"
  | lt => "lt"
  | le => "le"

def all : List Comparison := [eq, ne, gt, ge, lt, le]

def ofKeyword? (word : String) : Option Comparison :=
  all.find? fun c => c.keyword == word

def holds : Comparison → Value → Value → Bool
  | eq, a, b => a == b
  | ne, a, b => a != b
  | gt, a, b => b < a
  | ge, a, b => b ≤ a
  | lt, a, b => a < b
  | le, a, b => a ≤ b

end Comparison

/-- A statement about the value and the position of a die. -/
inductive Condition where
  /-- the empty condition -/
  | always
  /-- one operand for every position, or one per position -/
  | compare (comparison : Comparison) (operands : List Value)
  /-- the inner condition of the remainder by one divisor, or by one per position -/
  | modulo (divisors : List Value) (inner : Condition)
  | not (inner : Condition)
  | and (left right : Condition)
  | or (left right : Condition)
  deriving DecidableEq, Repr

namespace Condition

def isCompound : Condition → Bool
  | and _ _ | or _ _ => true
  | _ => false

/-- Tokens between brackets if the condition they belong to is compound. -/
def bracketed (c : Condition) (tokens : List String) : List String :=
  if c.isCompound then "[" :: tokens ++ ["]"] else tokens

/-- The words of a condition. -/
def tokens : Condition → List String
  | always => ["always"]
  | compare comparison operands => comparison.keyword :: operands.map Value.text
  | modulo divisors inner => "mod" :: divisors.map Value.text ++ inner.tokens
  | not inner => "not" :: inner.bracketed inner.tokens
  | and left right => left.bracketed left.tokens ++ "and" :: right.bracketed right.tokens
  | or left right => left.bracketed left.tokens ++ "or" :: right.bracketed right.tokens

def render (c : Condition) : String := unwords c.tokens

end Condition

end DiceTally
