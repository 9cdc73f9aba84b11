import DiceTally.Operation.Primitive
import DiceTally.Proofs.Decimal.Text

/-!
# The sign of a zero

Scaling by a zero and powers of a zero and to a zero do not depend on the sign of the zero.
-/

namespace DiceTally

namespace Decimal

theorem mul?_of_isZero_right (a : Decimal) {b : Decimal} (h : b.isZero = true) : a.mul? b = some zero := by
  simp [mul?, h]

variable {d : Decimal}

theorem isZero_eq_true_iff : d.isZero = true ↔ d.mantissa = 0 := by
  simp [isZero]

theorem isZero_dropZeroSign : d.dropZeroSign.isZero = d.isZero := rfl

theorem dropZeroSign_of_isZero_eq_false (h : d.isZero = false) : d.dropZeroSign = d :=
  dropZeroSign_eq_self fun _ => by simpa [isZero] using h

theorem isWhole_of_isZero (h : d.isZero = true) : d.isWhole = true := by
  simp [isWhole, isZero_eq_true_iff.1 h]

theorem toInt_of_isZero (h : d.isZero = true) : d.toInt = 0 := by
  simp [toInt, round, Rounding.divide, Rounding.away, isZero_eq_true_iff.1 h]

theorem isWhole_ofValue (v : Value) : (ofValue v).isWhole = true := by
  simp [isWhole, ofValue, tenTo, Nat.mod_one]

end Decimal

theorem scaleValue_dropZeroSign (v : Value) (d : Decimal) (mode : Rounding) :
    scaleValue v d.dropZeroSign mode = scaleValue v d mode := by
  cases h : d.isZero with
  | false => rw [Decimal.dropZeroSign_of_isZero_eq_false h]
  | true =>
    unfold scaleValue
    rw [Decimal.mul?_of_isZero_right _ h, Decimal.mul?_of_isZero_right _ (Decimal.isZero_dropZeroSign.trans h)]

theorem integralPower_dropZeroSign (d : Decimal) (n : Int) : integralPower d.dropZeroSign n = integralPower d n := by
  cases h : d.isZero with
  | false => rw [Decimal.dropZeroSign_of_isZero_eq_false h]
  | true =>
    have h' := Decimal.isZero_dropZeroSign.trans h
    have hpower : powerBySquaring Decimal.one d.dropZeroSign n.natAbs = powerBySquaring Decimal.one d n.natAbs := by
      rw [powerBySquaring, powerBySquaring]
      simp only [Decimal.mul?_of_isZero_right _ h, Decimal.mul?_of_isZero_right _ h', Option.bind_eq_bind,
        Option.bind_some]
    simp only [integralPower, hpower, h, h']

/-- The power of an integer does not depend on the sign of a zero exponent. -/
theorem power_dropZeroSign_exponent (base d : Decimal) (mode : Rounding) :
    power base d.dropZeroSign mode = power base d mode := by
  cases h : d.isZero with
  | false => rw [Decimal.dropZeroSign_of_isZero_eq_false h]
  | true =>
    have h' := Decimal.isZero_dropZeroSign.trans h
    have hzero : Value.ofInt? 0 = some 0 := by decide
    simp only [power, Decimal.isWhole_of_isZero h, Decimal.isWhole_of_isZero h', Decimal.toInt_of_isZero h,
      Decimal.toInt_of_isZero h', hzero, if_true]

/-- A power with a whole exponent does not depend on the sign of a zero base. -/
theorem power_dropZeroSign_base (d : Decimal) {exponent : Decimal} (hexponent : exponent.isWhole = true)
    (mode : Rounding) : power d.dropZeroSign exponent mode = power d exponent mode := by
  cases h : d.isZero with
  | false => rw [Decimal.dropZeroSign_of_isZero_eq_false h]
  | true =>
    have h' := Decimal.isZero_dropZeroSign.trans h
    simp only [power, hexponent, if_true, integralPower_dropZeroSign, isUnitOrZero, Decimal.isWhole_of_isZero h,
      Decimal.isWhole_of_isZero h', Decimal.toInt_of_isZero h, Decimal.toInt_of_isZero h']

theorem powerValue_dropZeroSign (asBase : Bool) (mode : Rounding) (v : Value) (d : Decimal) :
    powerValue asBase mode v d.dropZeroSign = powerValue asBase mode v d := by
  cases asBase with
  | true => exact power_dropZeroSign_base d (Decimal.isWhole_ofValue v) mode
  | false => exact power_dropZeroSign_exponent _ d mode

end DiceTally
