import DiceTally.Double.Binary
import DiceTally.Rounding

/-!
# The shortest digits of a double

`Shortest.ofBinary` gives the decimal digits that stand for a positive double: the fewest that are nearer to it
than to any other double, and of those the nearest.  All of it is exact arithmetic on natural numbers.
-/

namespace DiceTally

/-- The number `digits * 10 ^ place`. -/
structure Shortest where
  digits : Nat
  place : Int
  deriving DecidableEq, Repr

namespace Shortest

/-- A number and the ends of the interval that rounds to it, as numerators over one denominator. -/
structure Interval where
  low : Nat
  mid : Nat
  high : Nat
  den : Nat
  /-- Whether the ends round to the number too. -/
  closed : Bool

/-- The interval of `m * 2 ^ q`; below a power of two the neighbour is only half as far away. -/
def interval (m : Nat) (q : Int) : Interval :=
  let down := if m = fractionBound ∧ -1074 < q then 1 else 2
  let up := Nat.pow 2 (q - 2).toNat
  ⟨(4 * m - down) * up, 4 * m * up, (4 * m + 2) * up, Nat.pow 2 (2 - q).toNat, m % 2 == 0⟩

/-- Whether `c * 10 ^ place` lies in the interval. -/
def Interval.holds (i : Interval) (place : Int) (c : Nat) : Bool :=
  let point := c * tenTo place.toNat * i.den
  let unit := tenTo (-place).toNat
  if i.closed then i.low * unit ≤ point && point ≤ i.high * unit
  else i.low * unit < point && point < i.high * unit

/-- The multiple of `10 ^ place` in the interval that is nearest to its number, if there is one. -/
def Interval.nearest? (i : Interval) (place : Int) : Option Nat :=
  let n := i.mid * tenTo (-place).toNat
  let d := i.den * tenTo place.toNat
  let c := n / d
  match i.holds place c, i.holds place (c + 1) with
  | true, true => some (halfEven n d)
  | true, false => some c
  | false, true => some (c + 1)
  | false, false => none

/-- A place that is not below the first digit of `m * 2 ^ q`. -/
def firstPlace (m : Nat) (q : Int) : Int :=
  ((m.log2 : Int) + q + 1) * 30103 / 100000 + 1

/-- Removes the zeros at the end of the digits. -/
def dropZeros : Nat → Shortest → Shortest
  | 0, s => s
  | fuel + 1, s =>
    if s.digits % 10 = 0 ∧ s.digits ≠ 0 then dropZeros fuel ⟨s.digits / 10, s.place + 1⟩ else s

/-- The shortest digits of `m * 2 ^ q`; seventeen places after the first always suffice. -/
def ofBinary (m : Nat) (q : Int) : Shortest :=
  let i := interval m q
  let top := firstPlace m q
  let found := (List.range 21).findSome? fun (k : Nat) =>
    (i.nearest? (top - k)).map fun c => (⟨c, top - k⟩ : Shortest)
  dropZeros 20 (found.getD ⟨m, q⟩)

end Shortest

end DiceTally
