import DiceTally.Condition.Basic
import DiceTally.Operation.Param
import DiceTally.Rounding

/-!
# Operations

An operation turns the tuple of a roll into another tuple.  A `Primitive` is one built-in step; an `Operation` is
a tree of steps: composition, blocks of dice, guarded branches and calls of named operations.  The nodes
`validated` and `memoized` change no result: the first adds the stage to a failure, the second keeps results.
-/

namespace DiceTally

/-- The operations that make one value of a whole pool. -/
inductive Reduction where
  | sum
  | min
  | max
  | product
  | bitOr
  | bitXor
  | bitAnd
  deriving DecidableEq, Repr

namespace Reduction

def keyword : Reduction → String
  | sum => "sum"
  | min => "min"
  | max => "max"
  | product => "prod"
  | bitOr => "bit-or"
  | bitXor => "bit-xor"
  | bitAnd => "bit-and"

def all : List Reduction := [sum, min, max, product, bitOr, bitXor, bitAnd]

def ofKeyword? (word : String) : Option Reduction :=
  all.find? fun r => r.keyword == word

end Reduction

/-- A single built-in step.  A list of parameters holds one for all dice or one per die. -/
inductive Primitive where
  | identity
  | reduce (reduction : Reduction)
  | sort
  | add (values : List Value)
  | setTo (values : List Value)
  | scale (factors : List Decimal) (rounding : Rounding)
  /-- the dice to powers, or with `asBase` the parameters to the powers that the dice show -/
  | exp (exponents : List Decimal) (asBase : Bool) (rounding : Rounding)
  /-- values outside a pair of bounds move to the nearer bound -/
  | bound (pairs : List (Value × Value))
  /-- the first die that does not satisfy the condition, the last one in any case -/
  | reroll (condition : Condition)
  /-- dice by their place in ascending order, a negative place counting from the end -/
  | select (indices : List Value)
  deriving DecidableEq

/-- What a host supplies under a name: a function of the dice and the parameters at the call. -/
abbrev NativeFunction := Tuple → List Param → Except String Tuple

/-- A tree of steps. -/
inductive Operation where
  | primitive (step : Primitive)
  /-- the inner operation on each full block of `size` dice, and the outer one on all their results -/
  | sliceApply (size : Nat) (inner outer : Operation)
  /-- for each die the result of one branch or the other -/
  | conditional (condition : Condition) (taken otherwise : Operation)
  /-- a call of a function supplied by the host -/
  | native (name : String) (params : List Param) (function : NativeFunction)
  /-- a call of a pipeline by its name -/
  | defined (name : String) (params : List Param) (pipeline : Operation)
  | andThen (first next : Operation)
  /-- a failure inside is reported with this stage and its input -/
  | validated (inner : Operation)
  /-- results are kept in the cache with this number -/
  | memoized (slot : Nat) (inner : Operation)

namespace Operation

/-- The number of caches that an operation refers to; a named pipeline has caches of its own. -/
def memoSlots : Operation → Nat
  | sliceApply _ inner outer => Nat.max inner.memoSlots outer.memoSlots
  | conditional _ taken otherwise => Nat.max taken.memoSlots otherwise.memoSlots
  | andThen first next => Nat.max first.memoSlots next.memoSlots
  | validated inner => inner.memoSlots
  | memoized slot inner => Nat.max (slot + 1) inner.memoSlots
  | _ => 0

/-- Whether an operation is `id`, not counting `validated` and `memoized`. -/
def isIdentity : Operation → Bool
  | primitive .identity => true
  | validated inner => inner.isIdentity
  | memoized _ inner => inner.isIdentity
  | _ => false

/-- Whether the words of an operation end in a condition, which would go on into a word written after it. -/
def openEnded : Operation → Bool
  | primitive (.reroll condition) => condition != .always
  | primitive _ => false
  | sliceApply _ _ outer => outer.openEnded
  | conditional .. => true
  | native .. => false
  | defined .. => false
  | andThen _ next => next.openEnded
  | validated inner => inner.openEnded
  | memoized _ inner => inner.openEnded

end Operation

/-! ### Writing -/

def Primitive.tokens : Primitive → List String
  | identity => ["id"]
  | reduce reduction => [reduction.keyword]
  | sort => ["sort"]
  | add values => "add" :: values.map Value.text
  | setTo values => "set-to" :: values.map Value.text
  | scale factors rounding => "scale" :: rounding.tag :: factors.map Decimal.text
  | exp exponents asBase rounding =>
    "exp" :: (if asBase then ["as-base"] else []) ++ rounding.tag :: exponents.map Decimal.text
  | bound pairs => "bound" :: pairs.flatMap fun (lower, upper) => [lower.text, upper.text]
  | reroll .always => ["reroll"]
  | reroll condition => "reroll" :: "if" :: condition.tokens
  | select indices => "select" :: indices.map Value.text

namespace Operation

/-- The words of an operation.  An `id` that need not be written is left out, and `then` closes a condition that
another step follows. -/
def tokens : Operation → List String
  | primitive step => step.tokens
  | sliceApply size inner outer =>
    ["slice-apply", toString size, "["] ++ inner.tokens ++ ["]"] ++
      if outer.isIdentity then [] else outer.tokens
  | conditional condition taken otherwise =>
    "[" :: taken.tokens ++ ["]", "if"] ++ condition.tokens ++
      if otherwise.isIdentity then [] else ["else", "["] ++ otherwise.tokens ++ ["]"]
  | native name params _ => name :: params.map Param.render
  | defined name params _ => name :: params.map Param.render
  | andThen first next => first.tokens ++ (if first.openEnded then ["then"] else []) ++ next.tokens
  | validated inner => inner.tokens
  | memoized _ inner => inner.tokens

def render (op : Operation) : String := unwords op.tokens

end Operation

end DiceTally
