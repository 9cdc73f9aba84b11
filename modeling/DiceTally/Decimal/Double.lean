import DiceTally.Decimal.Basic
import DiceTally.Double.Binary

/-!
# Decimal numbers and doubles

`Decimal.toFloat` is the double computed from integer part and fraction; `Decimal.ofFloat?` turns the binary
fraction of a double into a decimal one and drops the digits that a double does not determine.
-/

namespace DiceTally

namespace Decimal

/-! ### To a double -/

/-- The power `10 ^ n` by repeated squaring in doubles. -/
def floatPower (result square : Float) (n : Nat) : Float :=
  if h : n = 0 then result
  else
    let result := if n % 2 = 1 then result * square else result
    floatPower result (square * square) (n / 2)
termination_by n
decreasing_by exact Nat.div_lt_self (Nat.pos_of_ne_zero h) (by decide)

/-- The magnitude of a number as a double: whole and fraction are added and rounded to the scale. -/
def magnitudeFloat (d : Decimal) : Float :=
  let unit := tenTo d.scale
  let whole := nearestDouble (d.mantissa / unit)
  let fraction := nearestDouble (d.mantissa % unit) / nearestDouble unit
  if d.scale = 0 || d.mantissa % unit = 0 then whole
  else
    let power := floatPower 1 10 d.scale
    ((whole + fraction) * power).round / power

/-- The number as a double. -/
def toFloat (d : Decimal) : Float :=
  if d.negative then -d.magnitudeFloat else d.magnitudeFloat

/-! ### From a double -/

/-- Turns `m * 2 ^ -n` into `m' * 10 ^ e'` with `e' = e`, `e = -n` at the start: each of the `n` halvings is a
factor of five, or one digit less where the mantissa has no room for it. -/
def expandHalves : Nat → Nat → Int → Nat × Int
  | 0, m, e => (m, e)
  | n + 1, m, e =>
    if m % 2 = 0 then expandHalves n (m / 2) (e + 1)
    else if 5 * m < mantissaBound then expandHalves n (5 * m) e
    else expandHalves n (m / 2) (e + 1)

/-- Turns `m * 2 ^ n` into `m' * 10 ^ e'` with `e' = e`, `e = n` at the start: each of the `n` doublings is done on
the mantissa, or becomes a power of ten and a division by five where the mantissa has no room for it. -/
def expandDoubles : Nat → Nat → Int → Option (Nat × Int)
  | 0, m, e => some (m, e)
  | n + 1, m, e =>
    if 2 * m < mantissaBound then expandDoubles n (2 * m) (e - 1)
    else if (n : Int) + 1 < 2 * e then none
    else expandDoubles n (m / 5) e

/-- Multiplies by `10 ^ n` within the range of a mantissa. -/
def expandTens : Nat → Nat → Option Nat
  | 0, m => some m
  | n + 1, m => if 10 * m < mantissaBound then expandTens n (10 * m) else none

/-- Drops the last digit, rounding a half upwards. -/
def dropDigit (m : Nat) : Nat := if 5 ≤ m % 10 then m / 10 + 1 else m / 10

/-- Drops `n` digits of `m`, which has `places` digits after the point; nothing remains as a plain zero. -/
def dropDigits : Nat → Nat → Nat → Nat × Nat
  | 0, m, places => (m, places)
  | n + 1, m, places => if m / 10 = 0 then (0, 0) else dropDigits n (dropDigit m) (places - 1)

/-- Drops digits after the point while the mantissa has more than the 52 bits that a double determines. -/
def dropNoise : Nat → Nat → Nat × Nat
  | 0, m => (m, 0)
  | places + 1, m => if fractionBound ≤ m then dropNoise places (dropDigit m) else (m, places + 1)

/-- Drops zeros after the point. -/
def dropZeros : Nat → Nat → Nat × Nat
  | 0, m => (m, 0)
  | places + 1, m => if m % 10 = 0 then dropZeros places (m / 10) else (m, places + 1)

/-- The digits that a double determines of `m`, which has `places` digits after the point, and how many of them are
after the point. -/
def significantDigits (m places : Nat) : Nat × Nat :=
  let (m, places) := dropDigits (places - 28) m places
  let (m, places) := dropNoise places m
  dropZeros places m

/-- The decimal number of a binary fraction. -/
def ofBinary? (b : Binary) : Option Decimal :=
  let start : Option (Nat × Int) :=
    if b.exponent ≤ 0 then some (expandHalves (-b.exponent).toNat b.mantissa b.exponent)
    else expandDoubles b.exponent.toNat b.mantissa b.exponent
  start.bind fun (m, e) => (expandTens e.toNat m).bind fun m =>
    let (m, places) := significantDigits m (-e).toNat
    ofSigned? b.negative m places

/-- The decimal number of a finite double, if it is in range; a negative zero keeps its sign. -/
def ofFloat? (f : Float) : Option Decimal :=
  (Binary.ofFloat? f).bind ofBinary?

end Decimal

end DiceTally
