import DiceTally.Outcome.Basic
import DiceTally.Proofs.Power
import Mathlib.Algebra.BigOperators.Group.List.Basic

/-!
# Natural numbers as decimal numbers

`Decimal.ofNat` writes a natural number without digits after the point, the largest number standing for one out of
range.  On such numbers the saturating sum and product are those of the natural numbers, brought into range once
(`addSaturating_ofNat`, `mulSaturating_ofNat`).
-/

namespace DiceTally

namespace Decimal

/-- A natural number; the largest number stands for one out of range. -/
def ofNat (n : Nat) : Decimal :=
  if h : n < mantissaBound then ⟨false, n, 0, h, zero.scale_le⟩ else max

/-- A number of hundredths, with two digits after the point. -/
def hundredths (n : Nat) (h : n < mantissaBound) : Decimal := ⟨false, n, 2, h, by decide⟩

theorem ofNat_zero : ofNat 0 = zero := by decide

theorem ofNat_one : ofNat 1 = one := by decide

theorem mantissa_ofNat (n : Nat) : (ofNat n).mantissa = min n (mantissaBound - 1) := by
  unfold ofNat
  split
  · simp only
    omega
  · show mantissaBound - 1 = _
    omega

theorem mantissa_ofNat_of_lt {n : Nat} (h : n < mantissaBound) : (ofNat n).mantissa = n := by
  rw [mantissa_ofNat]
  omega

theorem negative_ofNat (n : Nat) : (ofNat n).negative = false := by
  unfold ofNat
  split <;> rfl

theorem scale_ofNat (n : Nat) : (ofNat n).scale = 0 := by
  unfold ofNat
  split <;> rfl

/-- Numbers without a sign and without digits after the point are natural numbers. -/
theorem eq_ofNat {d : Decimal} (hnegative : d.negative = false) (hscale : d.scale = 0) : d = ofNat d.mantissa := by
  ext
  · rw [hnegative, negative_ofNat]
  · rw [mantissa_ofNat_of_lt d.mantissa_lt]
  · rw [hscale, scale_ofNat]

theorem toInt_of_scale {d : Decimal} (hscale : d.scale = 0) : d.toInt = d.signed := by
  simp [toInt, round, Rounding.divide, Rounding.away, hscale, tenTo, signed]

theorem toInt_ofNat {n : Nat} (h : n < mantissaBound) : (ofNat n).toInt = n := by
  rw [toInt_of_scale (scale_ofNat n), signed, negative_ofNat, mantissa_ofNat_of_lt h]
  rfl

theorem ofInt?_natCast (n : Nat) (h : n < mantissaBound) : ofInt? n = some (ofNat n) := by
  have hnegative : decide ((n : Int) < 0) = false := by simp
  rw [ofInt?, ofParts?, ofSigned?, hnegative]
  simp [ofNat, h]

theorem signed_ofNat (n : Nat) : (ofNat n).signed = (ofNat n).mantissa := by
  rw [signed, negative_ofNat]
  rfl

theorem isBelowZero_ofNat (n : Nat) : (ofNat n).isBelowZero = false := by
  have hunits : 0 ≤ (ofNat n).units := by
    rw [units, signed_ofNat]
    exact Int.natCast_nonneg (_ * _)
  simpa [isBelowZero] using hunits

theorem isWhole_ofNat (n : Nat) : (ofNat n).isWhole = true := by
  simp [isWhole, scale_ofNat, tenTo, Nat.mod_one]

/-- A positive number has no sign and is not zero. -/
theorem signed_of_isPositive {d : Decimal} (h : d.isPositive = true) : d.negative = false ∧ 0 < d.mantissa := by
  have hunits : 0 < d.signed * tenTo (28 - d.scale) := of_decide_eq_true h
  have hsigned : 0 < d.signed := by
    rcases Int.lt_or_le 0 d.signed with hpos | hneg
    · exact hpos
    · have := Int.mul_nonpos_of_nonpos_of_nonneg hneg (Int.natCast_nonneg (tenTo (28 - d.scale)))
      omega
  unfold signed at hsigned
  cases hnegative : d.negative <;> simp only [hnegative] at hsigned <;> simp at hsigned
  · exact ⟨rfl, by omega⟩
  · omega

/-! ### Sums and products -/

theorem fit_zero_scale (negative : Bool) (m : Nat) : fit negative m 0 = ofParts? negative m 0 := by
  simp [fit, halfEven, tenTo, Nat.mod_one]

theorem ofParts?_getD (m : Nat) : (ofParts? false m 0).getD max = ofNat m := by
  unfold ofParts? ofSigned? ofNat
  by_cases h : m < mantissaBound <;> simp [h]

theorem isZero_ofNat {n : Nat} : (ofNat n).isZero = true ↔ n = 0 := by
  have hbound : 1 < mantissaBound := by decide
  rw [isZero_eq_true_iff, mantissa_ofNat]
  omega

/-- Numbers are the same when they are brought into range in the same way. -/
theorem ofNat_congr {m n : Nat} (h : min m (mantissaBound - 1) = min n (mantissaBound - 1)) : ofNat m = ofNat n := by
  ext
  · rw [negative_ofNat, negative_ofNat]
  · rw [mantissa_ofNat, mantissa_ofNat, h]
  · rw [scale_ofNat, scale_ofNat]

theorem addSaturating_ofNat (m n : Nat) : (ofNat m).addSaturating (ofNat n) = ofNat (m + n) := by
  unfold addSaturating add?
  -- a zero summand is returned without being fitted
  by_cases hm : m = 0
  · rw [if_pos (isZero_ofNat.2 hm), hm, Nat.zero_add, Option.getD_some]
  by_cases hn : n = 0
  · rw [if_neg (isZero_ofNat.not.2 hm), if_pos (isZero_ofNat.2 hn), hn, Nat.add_zero, Option.getD_some]
  have hsum : (ofNat m).signed * tenTo (Nat.max 0 0 - 0) + (ofNat n).signed * tenTo (Nat.max 0 0 - 0) =
      ((ofNat m).mantissa + (ofNat n).mantissa : Nat) := by
    simp [signed_ofNat, tenTo]
  rw [if_neg (isZero_ofNat.not.2 hm), if_neg (isZero_ofNat.not.2 hn)]
  simp only [scale_ofNat, hsum]
  show (fit _ _ 0).getD max = _
  have hnonneg : decide ((((ofNat m).mantissa + (ofNat n).mantissa : Nat) : Int) < 0) = false :=
    decide_eq_false (Int.not_lt.2 (Int.natCast_nonneg _))
  rw [hnonneg, Int.natAbs_natCast, fit_zero_scale, ofParts?_getD]
  apply ofNat_congr
  rw [mantissa_ofNat, mantissa_ofNat]
  omega

/-- A factor out of range keeps the product out of range, since the other one is at least one. -/
theorem min_mul_min {m n : Nat} (hm : 0 < m) (hn : 0 < n) (bound : Nat) :
    min (min m bound * min n bound) bound = min (m * n) bound := by
  rcases Nat.le_total m bound with hmb | hmb
  · rcases Nat.le_total n bound with hnb | hnb
    · rw [Nat.min_eq_left hmb, Nat.min_eq_left hnb]
    · have hsmall : bound ≤ m * bound := Nat.le_mul_of_pos_left bound hm
      have hlarge : bound ≤ m * n := Nat.le_trans hnb (Nat.le_mul_of_pos_left n hm)
      rw [Nat.min_eq_left hmb, Nat.min_eq_right hnb, Nat.min_eq_right hsmall, Nat.min_eq_right hlarge]
  · have hlarge : bound ≤ m * n := Nat.le_trans hmb (Nat.le_mul_of_pos_right m hn)
    rw [Nat.min_eq_right hmb, Nat.min_eq_right hlarge]
    rcases Nat.eq_zero_or_pos bound with rfl | hbound
    · exact Nat.min_zero _
    · exact Nat.min_eq_right (Nat.le_mul_of_pos_right bound (Nat.lt_min.2 ⟨hn, hbound⟩))

theorem mulSaturating_ofNat (m n : Nat) : (ofNat m).mulSaturating (ofNat n) = ofNat (m * n) := by
  unfold mulSaturating mul?
  -- nothing is lost behind the point, since there is nothing
  have hvanishes : (ofNat m).vanishes (ofNat n) = false := by simp [vanishes, scale_ofNat]
  by_cases hm : m = 0
  · rw [if_pos (by rw [isZero_ofNat.2 hm]; rfl), hm, Nat.zero_mul, ofNat_zero, Option.getD_some]
  by_cases hn : n = 0
  · rw [if_pos (by rw [isZero_ofNat.2 hn, Bool.or_true]; rfl), hn, Nat.mul_zero, ofNat_zero, Option.getD_some]
  have hzero : ((ofNat m).isZero || (ofNat n).isZero || (ofNat m).vanishes (ofNat n)) = false := by
    simp [Bool.eq_false_iff.2 (isZero_ofNat.not.2 hm), Bool.eq_false_iff.2 (isZero_ofNat.not.2 hn), hvanishes]
  simp only [hzero, negative_ofNat, scale_ofNat]
  show (fit false _ 0).getD max = _
  rw [fit_zero_scale, ofParts?_getD]
  apply ofNat_congr
  rw [mantissa_ofNat, mantissa_ofNat]
  exact min_mul_min (by omega) (by omega) _

end Decimal

/-- The product of natural numbers, brought into range once. -/
theorem weightProduct_ofNat (ns : List Nat) : weightProduct (ns.map Decimal.ofNat) = Decimal.ofNat ns.prod := by
  have hfold (m : Nat) : (ns.map Decimal.ofNat).foldl Decimal.mulSaturating (.ofNat m) = .ofNat (m * ns.prod) := by
    induction ns generalizing m with
    | nil => simp
    | cons n ns ih =>
      rw [List.map_cons, List.foldl_cons, Decimal.mulSaturating_ofNat, ih, List.prod_cons, Nat.mul_assoc]
  rw [weightProduct, ← Decimal.ofNat_one, hfold, Nat.one_mul]

end DiceTally
