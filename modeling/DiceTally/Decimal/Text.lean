import DiceTally.Decimal.Basic
import DiceTally.Text.Blank

/-!
# Decimal numbers as text

`Decimal.ofText?` reads a decimal literal, plain or with an exponent; `Decimal.text` writes all digits of the
scale, `Decimal.fixed` a given number of digits after the point.
-/

namespace DiceTally

namespace Decimal

/-! ### Reading -/

/-- The value of a decimal digit. -/
def digitOf (c : Char) : Nat := c.toNat - '0'.toNat

/-- The digit that no longer fits rounds the digits before it, a half upwards; the separators count as a zero.
What follows it is not read. -/
def lastDigit (m s : Nat) (c : Char) : Option (Nat × Nat) :=
  if c.isDigit || c == '_' || c == '.' then
    if c.isDigit && 5 ≤ digitOf c then
      if m + 1 < mantissaBound then some (m + 1, s)
      else if s = 0 then none
      else some ((m + 5) / 10, s - 1)
    else some (m, s)
  else none

/-- Mantissa and scale of digits with at most one point, after mantissa `m` and scale `s` have been read.
`seen` tells that there was a digit, `point` that the point was passed.  An underscore may stand after the first
digit. -/
def readDigits (seen point : Bool) (m s : Nat) : List Char → Option (Nat × Nat)
  | [] => if seen then some (m, s) else none
  | c :: cs =>
    if point && 28 ≤ s then lastDigit m s c
    else if c.isDigit then
      let next := 10 * m + digitOf c
      if next < mantissaBound then readDigits true point next (if point then s + 1 else s) cs
      else if point then lastDigit m s c
      else none
    else if c == '.' && !point then readDigits seen true m s cs
    else if c == '_' && seen then readDigits seen point m s cs
    else none

/-- Splits a sign from a literal. -/
def splitSign : List Char → Bool × List Char
  | '-' :: cs => (true, cs)
  | '+' :: cs => (false, cs)
  | cs => (false, cs)

/-- A literal without exponent. -/
def readPlain? (cs : List Char) : Option Decimal :=
  let (negative, digits) := splitSign cs
  (readDigits false false 0 0 digits).bind fun (m, s) => ofParts? negative m s

/-- The number with the point moved `n` places to the left.  Digits that would come to stand after the 28th place
are rounded away first, a half away from zero. -/
def movePointLeft? (n : Nat) (d : Decimal) : Option Decimal :=
  if n ≤ 28 then
    if h : d.scale + n ≤ 28 then some ⟨d.negative, d.mantissa, d.scale + n, d.mantissa_lt, h⟩
    else
      let m := halfAway d.mantissa (tenTo (d.scale + n - 28))
      if h : m < mantissaBound then some ⟨d.negative, m, 28, h, Nat.le_refl 28⟩ else none
  else none

/-- The number with the point moved `n` places to the right. -/
def movePointRight? (n : Nat) (d : Decimal) : Option Decimal :=
  if n ≤ d.scale then
    some ⟨d.negative, d.mantissa, d.scale - n, d.mantissa_lt, Nat.le_trans (Nat.sub_le ..) d.scale_le⟩
  else if n ≤ 28 then ofParts? d.negative (d.mantissa * tenTo (n - d.scale)) 0
  else none

/-- A literal with an exponent. -/
def readScientific? (cs : List Char) : Option Decimal :=
  let isMark (c : Char) := c == 'e' || c == 'E'
  (readPlain? (cs.takeWhile fun c => !isMark c)).bind fun base =>
    match cs.dropWhile fun c => !isMark c with
    | [] => none
    | _ :: '-' :: exponent =>
      ((unsignedOfChars? exponent).filter (· < bound32)).bind fun n => base.movePointLeft? n
    | _ :: exponent => ((unsignedOfChars? exponent).filter (· < bound32)).bind fun n => base.movePointRight? n

/-- Reads a decimal literal. -/
def ofText? (s : String) : Option Decimal :=
  (readPlain? s.toList).or (readScientific? s.toList)

/-! ### Writing -/

/-- The digits of the mantissa, at least one of them before the point. -/
def digits (d : Decimal) : List Char :=
  let ds := Nat.toDigits 10 d.mantissa
  List.replicate (d.scale + 1 - ds.length) '0' ++ ds

def signText (d : Decimal) : String := if d.negative then "-" else ""

/-- The digits before the point. -/
def wholeDigits (d : Decimal) : List Char :=
  d.digits.take (d.digits.length - d.scale)

/-- The digits after the point. -/
def fractionDigits (d : Decimal) : List Char :=
  d.digits.drop (d.digits.length - d.scale)

/-- The number with all digits of its scale. -/
def text (d : Decimal) : String :=
  d.signText ++ String.ofList (d.wholeDigits ++ if d.scale = 0 then [] else '.' :: d.fractionDigits)

/-- The number rounded to `places` digits after the point and written with all of them.  There may be any number of
places here: neither memory nor a limit that formatting has for them is looked at. -/
def fixed (places : Nat) (d : Decimal) : String :=
  let r := d.roundPlaces (Nat.min places 28)
  let fraction := r.fractionDigits ++ List.replicate (places - r.scale) '0'
  r.signText ++ String.ofList (r.wholeDigits ++ if places = 0 then [] else '.' :: fraction)

end Decimal

end DiceTally
