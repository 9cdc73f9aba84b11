import DiceTally.Value
import DiceTally.Rounding

/-!
# Decimal numbers

A decimal number is a sign, a mantissa of 96 bits and a scale of at most 28 digits after the point.  The same
number has several forms (`1.5` and `1.50`); `Decimal.units` is the number itself, in units of `10 ^ -28`, and the
order of decimal numbers is the order of their units.
-/

namespace DiceTally

/-- The bound of mantissas, `2 ^ 96`. -/
abbrev mantissaBound : Nat := 0x1000000000000000000000000

/-- The number `± mantissa / 10 ^ scale`. -/
@[ext]
structure Decimal where
  negative : Bool
  mantissa : Nat
  scale : Nat
  mantissa_lt : mantissa < mantissaBound
  scale_le : scale ≤ 28
  deriving DecidableEq

namespace Decimal

/-- A number from its parts, if they are in range; a zero keeps its sign. -/
def ofSigned? (negative : Bool) (mantissa scale : Nat) : Option Decimal :=
  if h : mantissa < mantissaBound ∧ scale ≤ 28 then some ⟨negative, mantissa, scale, h.1, h.2⟩ else none

/-- A number from its parts, if they are in range; a zero has no sign. -/
def ofParts? (negative : Bool) (mantissa scale : Nat) : Option Decimal :=
  ofSigned? (negative && mantissa != 0) mantissa scale

def zero : Decimal := ⟨false, 0, 0, by decide, by decide⟩

def one : Decimal := ⟨false, 1, 0, by decide, by decide⟩

def hundred : Decimal := ⟨false, 100, 0, by decide, by decide⟩

def max : Decimal := ⟨false, mantissaBound - 1, 0, by decide, by decide⟩

instance : Inhabited Decimal := ⟨zero⟩

def ofInt? (n : Int) : Option Decimal :=
  ofParts? (n < 0) n.natAbs 0

def ofValue (v : Value) : Decimal :=
  have range : v.toInt.natAbs < mantissaBound := by
    have := v.le_toInt
    have := v.toInt_lt
    simp only [mantissaBound]
    omega
  ⟨v.toInt < 0, v.toInt.natAbs, 0, range, by decide⟩

/-! ### The number that a form stands for -/

def signed (d : Decimal) : Int :=
  if d.negative then -(d.mantissa : Int) else d.mantissa

/-- The number in units of `10 ^ -28`. -/
def units (d : Decimal) : Int :=
  d.signed * tenTo (28 - d.scale)

def isZero (d : Decimal) : Bool := d.mantissa == 0

/-- Whether two forms stand for the same number, or which is the smaller one. -/
def compare (a b : Decimal) : Ordering :=
  Ord.compare a.units b.units

def isPositive (d : Decimal) : Bool := 0 < d.units

theorem isPositive_one : one.isPositive = true := by decide

def isBelowZero (d : Decimal) : Bool := d.units < 0

/-- Whether nothing stands after the point but zeros. -/
def isWhole (d : Decimal) : Bool := d.mantissa % tenTo d.scale == 0

/-! ### Rounding -/

/-- The integer part, its sign kept. -/
def trunc (d : Decimal) : Decimal :=
  ⟨d.negative, d.mantissa / tenTo d.scale, 0, Nat.lt_of_le_of_lt (Nat.div_le_self ..) d.mantissa_lt, by decide⟩

/-- The number rounded to an integer. -/
def round (mode : Rounding) (d : Decimal) : Int :=
  let magnitude := mode.divide d.negative d.mantissa (tenTo d.scale)
  if d.negative then -(magnitude : Int) else magnitude

/-- The integer part as an integer. -/
def toInt (d : Decimal) : Int := d.round .truncate

/-- `m / 10 ^ s` with the fewest last digits dropped that bring mantissa and scale in range, a half going to the
even neighbour; none if the integer part is out of range. -/
def fit (negative : Bool) (m s : Nat) : Option Decimal :=
  (List.range (s + 1)).findSome? fun k => ofParts? negative (halfEven m (tenTo k)) (s - k)

/-- The number with at most `places` digits after the point, a half going to the even neighbour. -/
def roundPlaces (places : Nat) (d : Decimal) : Decimal :=
  if d.scale ≤ places then d
  else (ofParts? d.negative (halfEven d.mantissa (tenTo (d.scale - places))) places).getD d

end Decimal

end DiceTally
