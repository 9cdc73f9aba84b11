import DiceTally.Decimal.Arithmetic
import DiceTally.Decimal.Double
import DiceTally.EvalError

/-!
# Scaling and powers of values

`scaleValue` multiplies a value by a decimal factor, `power` raises a decimal number to a decimal exponent; both
round the result to a value.  Products and powers with a whole exponent are computed on decimal numbers, powers
with a fractional exponent on doubles.
-/

namespace DiceTally

/-- The value that a number rounds to. -/
def roundToValue (operation : String) (mode : Rounding) (d : Decimal) : Except EvalError Value :=
  match Value.ofInt? (d.round mode) with
  | some v => .ok v
  | none => .error (.overflow operation)

/-- The rounded product of a value and a factor. -/
def scaleValue (value : Value) (factor : Decimal) (mode : Rounding) : Except EvalError Value :=
  match (Decimal.ofValue value).mul? factor with
  | some product => roundToValue "scale" mode product
  | none => .error (.overflow "scale")

/-- `result * square ^ n`, squaring once for each binary digit of `n` after the first. -/
def powerBySquaring (result square : Decimal) (n : Nat) : Option Decimal :=
  if _h : n = 0 then some result
  else do
    let result ← if n % 2 = 1 then result.mul? square else some result
    if n / 2 = 0 then some result
    else powerBySquaring result (← square.mul? square) (n / 2)
termination_by n
decreasing_by exact Nat.div_lt_self (Nat.pos_of_ne_zero _h) (by decide)

def integralPower (base : Decimal) (n : Int) : Except EvalError Decimal :=
  if n < 0 ∧ base.isZero then .error .zeroToNegativePower
  else
    let raised := powerBySquaring Decimal.one base n.natAbs
    let result := if n < 0 then raised.bind Decimal.one.div? else raised
    match result with
    | some d => .ok d
    | none => .error (.overflow "exp")

def fractionalPower (base exponent : Decimal) : Except EvalError Decimal :=
  let raised := base.toFloat.pow exponent.toFloat
  if !raised.isFinite then .error (.notReal base exponent)
  else
    match Decimal.ofFloat? raised with
    | some d => .ok d
    | none => .error (.overflow "exp")

/-- An exponent of the same sign and parity, which is all that matters for the bases 0, 1 and -1. -/
def reducedExponent (exponent : Decimal) : Int :=
  let magnitude : Int := if exponent.toInt % 2 = 0 then 2 else 1
  if exponent.negative then -magnitude else magnitude

def isUnitOrZero (d : Decimal) : Bool :=
  d.isWhole && d.toInt.natAbs ≤ 1

def power (base exponent : Decimal) (mode : Rounding) : Except EvalError Value := do
  let raised ←
    if exponent.isWhole then
      match Value.ofInt? exponent.toInt with
      | some n => integralPower base n.toInt
      | none =>
        if isUnitOrZero base then integralPower base (reducedExponent exponent)
        else .error (.overflow "exp")
    else fractionalPower base exponent
  roundToValue "exp" mode raised

end DiceTally
