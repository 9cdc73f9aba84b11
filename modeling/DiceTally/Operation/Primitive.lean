import DiceTally.Condition.Eval
import DiceTally.Operation.Basic
import DiceTally.Power

/-!
# What the built-in steps do

`Primitive.apply` is the result of a step on a tuple.  The positional steps take one parameter for all dice or one
per die (`positional`); the reductions, `sort` and `select` look at the pool as a whole.
-/

namespace DiceTally

/-! ### Positional steps -/

/-- Every die with its parameter: the only one, or the one at its position. -/
def positional {α : Type} (operation : String) (params : List α) (dice : Tuple)
    (f : Value → α → Except EvalError Value) : Except EvalError Tuple :=
  match params with
  | [shared] => dice.mapM fun x => f x shared
  | _ =>
    if params.length = dice.length then (dice.zip params).mapM fun (x, p) => f x p
    else .error (.parameterCount operation params.length dice.length)

/-- The result of an operation on integers as a value. -/
def checked (operation : String) (n : Int) : Except EvalError Value :=
  match Value.ofInt? n with
  | some v => .ok v
  | none => .error (.overflow operation)

def addValue (x y : Value) : Except EvalError Value :=
  checked "add" (x.toInt + y.toInt)

/-- The power of a die, or of a parameter with the die as exponent. -/
def powerValue (asBase : Bool) (rounding : Rounding) (x : Value) (p : Decimal) : Except EvalError Value :=
  if asBase then power p (.ofValue x) rounding else power (.ofValue x) p rounding

def clamp (x lower upper : Value) : Value :=
  if x ≤ lower then lower else if upper ≤ x then upper else x

/-! ### Whole pools -/

/-- A fold that starts with the first die. -/
def foldFirst (operation : String) (f : Value → Value → Value) : Tuple → Except EvalError Value
  | [] => .error (.emptyTuple operation)
  | x :: xs => .ok (xs.foldl f x)

def Reduction.apply (reduction : Reduction) (dice : Tuple) : Except EvalError Value :=
  let name := reduction.keyword
  match reduction with
  | sum => dice.foldlM (fun acc x => checked name (acc.toInt + x.toInt)) 0
  | product => dice.foldlM (fun acc x => checked name (acc.toInt * x.toInt)) 1
  | bitOr => .ok (dice.foldl (· ||| ·) 0)
  | min => foldFirst name (fun a b => if b < a then b else a) dice
  | max => foldFirst name (fun a b => if a < b then b else a) dice
  | bitXor => foldFirst name (· ^^^ ·) dice
  | bitAnd => foldFirst name (· &&& ·) dice

def sorted (dice : Tuple) : Tuple :=
  dice.mergeSort fun a b => decide (a ≤ b)

/-- The value at a place of the sorted dice, a negative place counting from the end. -/
def placeAt (ordered : Tuple) (index : Value) : Except EvalError Value :=
  let place : Int := if index < 0 then ordered.length + index.toInt else index.toInt
  let found := if place < 0 then none else ordered[place.toNat]?
  match found with
  | some v => .ok v
  | none => .error (.indexOutOfRange index ordered.length)

def selectPlaces (indices : List Value) (dice : Tuple) : Except EvalError Tuple :=
  let ordered := sorted dice
  indices.mapM (placeAt ordered)

/-- The first die from `position` on that does not satisfy the condition.  The last one stands whatever it
shows. -/
def rerollFrom (condition : Condition) (position : Nat) : Tuple → Except EvalError Value
  | [] => .error (.emptyTuple "reroll")
  | [last] => .ok last
  | value :: rest => do
    if ← condition.eval value position then rerollFrom condition (position + 1) rest else .ok value

/-! ### All steps -/

def Primitive.apply : Primitive → Tuple → Except EvalError Tuple
  | identity, dice => .ok dice
  | reduce reduction, dice => (reduction.apply dice).map fun v => [v]
  | sort, dice => .ok (sorted dice)
  | add values, dice => positional "add" values dice addValue
  | setTo values, dice => positional "set-to" values dice fun _ p => .ok p
  | scale factors rounding, dice => positional "scale" factors dice fun x f => scaleValue x f rounding
  | exp exponents asBase rounding, dice => positional "exp" exponents dice (powerValue asBase rounding)
  | bound pairs, dice => positional "bound" pairs dice fun x (lower, upper) => .ok (clamp x lower upper)
  | reroll condition, dice => (rerollFrom condition 0 dice).map fun v => [v]
  | select indices, dice => selectPlaces indices dice

end DiceTally
