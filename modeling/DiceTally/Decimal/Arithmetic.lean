import DiceTally.Decimal.Basic

/-!
# Decimal arithmetic

Sum, product and quotient of decimal numbers.  Each is the exact result fitted to the range of mantissa and
scale, and none if its integer part does not fit.
-/

namespace DiceTally

namespace Decimal

/-- The sum, written with the larger scale; a zero leaves the other number in its own form. -/
def add? (a b : Decimal) : Option Decimal :=
  if a.isZero then some b
  else if b.isZero then some a
  else
    let s := Nat.max a.scale b.scale
    let n := a.signed * tenTo (s - a.scale) + b.signed * tenTo (s - b.scale)
    fit (n < 0) n.natAbs s

/-- Two mantissas of at most 32 bits with so many digits after the point multiply to zero. -/
def vanishes (a b : Decimal) : Bool :=
  a.mantissa < bound32 && b.mantissa < bound32 && 47 < a.scale + b.scale

def mul? (a b : Decimal) : Option Decimal :=
  if a.isZero || b.isZero || a.vanishes b then some zero
  else fit (a.negative != b.negative) (a.mantissa * b.mantissa) (a.scale + b.scale)

/-- The quotient with as many of 28 digits after the point as fit; none for a zero divisor. -/
def div? (a b : Decimal) : Option Decimal :=
  if b.isZero then none
  else if a.isZero then some zero
  else (List.range 29).findSome? fun k =>
    ofParts? (a.negative != b.negative)
      (halfEven (a.mantissa * tenTo (b.scale + (28 - k))) (b.mantissa * tenTo a.scale)) (28 - k)

/-- The sum, the largest number standing for one out of range. -/
def addSaturating (a b : Decimal) : Decimal :=
  (a.add? b).getD max

/-- The product, the largest number standing for one out of range. -/
def mulSaturating (a b : Decimal) : Decimal :=
  (a.mul? b).getD max

end Decimal

end DiceTally
