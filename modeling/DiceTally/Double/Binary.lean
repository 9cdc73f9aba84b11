/-!
# Doubles as binary fractions

A finite double is a sign, a mantissa and a power of two; `Binary.ofFloat?` reads the three from its bits.
-/

namespace DiceTally

/-- The number `± mantissa * 2 ^ exponent`. -/
structure Binary where
  negative : Bool
  mantissa : Nat
  exponent : Int
  deriving DecidableEq, Repr

/-- The bound of the fractions of doubles, `2 ^ 52`. -/
abbrev fractionBound : Nat := 0x10000000000000

def Binary.ofFloat? (f : Float) : Option Binary :=
  let bits : Nat := f.toBits.toNat
  let negative := bits / (2048 * fractionBound) == 1
  let exponent : Nat := bits / fractionBound % 2048
  let fraction : Nat := bits % fractionBound
  if exponent = 2047 then none
  else if exponent = 0 then some ⟨negative, fraction, -1074⟩
  else some ⟨negative, fraction + fractionBound, (exponent : Int) - 1075⟩

/-- The double nearest to a natural number. -/
def nearestDouble (n : Nat) : Float := Float.ofScientific n false 0

def powerOfTen (n : Nat) : Float := Float.ofScientific 1 false n

end DiceTally
