import DiceTally.Condition.Basic
import DiceTally.EvalError

/-!
# The truth of a condition

`Condition.eval` decides a condition for the die with a given value and position.  Both sides of `and` and `or`
are always decided, so that a missing operand is reported even where the other side settles the answer.
-/

namespace DiceTally

/-- One operand stands for every position, several are chosen by position. -/
def operandAt (keyword : String) (operands : List Value) (position : Nat) : Except EvalError Value :=
  match operands with
  | [shared] => .ok shared
  | _ =>
    match operands[position]? with
    | some operand => .ok operand
    | none => .error (.missingOperand keyword position operands.length)

/-- The remainder of a division rounded towards zero, moved by the divisor where the two have different signs. -/
def wordRemainder (value divisor : Value) : Value :=
  let r := value % divisor
  if r ≠ 0 ∧ ¬(r < 0 ↔ divisor < 0) then r + divisor else r

/-- The remainder with the sign of the divisor; none by zero, and none of the least value by `-1`. -/
def floorMod (value divisor : Value) : Except EvalError Value :=
  if divisor = 0 ∨ (value = Int64.minValue ∧ divisor = -1) then .error (.overflow "mod")
  else .ok (wordRemainder value divisor)

namespace Condition

/-- Whether a condition holds for the die with the given value and position. -/
def eval : Condition → Value → Nat → Except EvalError Bool
  | always, _, _ => .ok true
  | compare comparison operands, value, position => do
    let operand ← operandAt comparison.keyword operands position
    return comparison.holds value operand
  | modulo divisors inner, value, position => do
    let divisor ← operandAt "mod" divisors position
    inner.eval (← floorMod value divisor) position
  | not inner, value, position => do
    return !(← inner.eval value position)
  | and left right, value, position => do
    let l ← left.eval value position
    let r ← right.eval value position
    return l && r
  | or left right, value, position => do
    let l ← left.eval value position
    let r ← right.eval value position
    return l || r

end Condition

end DiceTally
