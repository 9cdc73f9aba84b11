import DiceTally.Proofs.Decimal.Rational
import DiceTally.Proofs.Value
import Mathlib.Tactic.NormNum

/-!
# Scaling

The product of a value and a factor is computed as a decimal number and then rounded to an integer.  Nothing is lost by
the first step as long as all digits of the product fit; then the result is the exact product, rounded once.  A longer
product is first moved to the nearest decimal number, which is at a relative distance below `2 ^ -93`.  This changes the
result only if the number it is moved to is one where the rounding goes on to the next integer
(`scaleValue_eq_checked`), and then it may (`scaleValue_crosses_integer`).
-/

namespace DiceTally

/-! ### Rounding to a value -/

theorem roundToValue_eq_checked (operation : String) (mode : Rounding) (d : Decimal) :
    roundToValue operation mode d = checked operation (mode.ofRat d.toRat) := by
  rw [← Decimal.round_eq_ofRat]
  rfl

/-- What is too large to be rounded to a value overflows in all roundings. -/
theorem checked_ofRat_of_large {q : ℚ} (hq : 2 ^ 63 + 1 ≤ |q|) (operation : String) (mode : Rounding) :
    checked operation (mode.ofRat q) = .error (.overflow operation) := by
  rcases checked_cases operation (mode.ofRat q) with ⟨⟨hlow, hhigh⟩, -⟩ | ⟨-, herror⟩
  · have hmoved := abs_lt.1 (mode.abs_ofRat_sub_lt q)
    have hlow' : (-2 ^ 63 : ℚ) ≤ mode.ofRat q := by exact_mod_cast hlow
    have hhigh' : (mode.ofRat q : ℚ) ≤ 2 ^ 63 := by exact_mod_cast hhigh.le
    have : |q| < 2 ^ 63 + 1 := by
      rw [abs_lt]
      constructor <;> linarith
    exact absurd hq this.not_ge
  · exact herror

/-! ### Products -/

/-- The product of a value and a factor as a rational number. -/
def exactProduct (value : Value) (factor : Decimal) : ℚ := value.toInt * factor.toRat

/-- A number that is the nearest one to a product gives the result for the product, or it lies where the rounding goes
on to the next integer. -/
theorem checked_of_isNearest {product : Decimal} {q : ℚ} (h : product.IsNearest q) (operation : String)
    (mode : Rounding) :
    checked operation (mode.ofRat product.toRat) = checked operation (mode.ofRat q) ∨
      mode.IsBreak product.toRat ∧ q ≠ product.toRat ∧ |q - product.toRat| * 2 ^ 93 ≤ |q| := by
  by_cases hexact : product.toRat = q
  · left
    rw [hexact]
  have hfull := h.full.resolve_left hexact
  have hnear := h.near
  obtain ⟨unit, hunit⟩ : ∃ unit : ℚ, (tenTo product.scale : ℚ) = unit := ⟨_, rfl⟩
  have hpos : 0 < unit := hunit ▸ tenTo_cast_pos product.scale
  have hbound : (mantissaBound : ℚ) = 2 ^ 96 := by norm_num [mantissaBound]
  rw [hbound] at hfull
  rcases Nat.eq_zero_or_pos product.scale with hscale | hscale
  · -- without digits after the point both numbers are far out of range
    left
    have hone : (tenTo product.scale : ℚ) = 1 := by simp [hscale, tenTo]
    rw [hone] at hfull
    have hq : (2 ^ 63 + 2 : ℚ) ≤ |q| := by linarith
    have hproduct : (2 ^ 63 + 1 : ℚ) ≤ |product.toRat| := by
      have := abs_sub_abs_le_abs_sub q product.toRat
      have := h.abs_sub_le
      linarith
    rw [checked_ofRat_of_large hproduct, checked_ofRat_of_large (by linarith)]
  · have heven : Even (tenTo product.scale) := by
      obtain ⟨j, hj⟩ := Nat.exists_eq_succ_of_ne_zero hscale.ne'
      rw [hj, Nat.succ_eq_add_one, tenTo_succ]
      exact (by decide : Even 10).mul_right _
    rcases mode.ofRat_eq_or_isBreak (tenTo_pos product.scale) heven hnear with hsame | hbreak
    · left
      rw [hsame]
      rfl
    · right
      refine ⟨hbreak, Ne.symm hexact, ?_⟩
      rw [hunit] at hfull hnear
      calc |q - product.toRat| * 2 ^ 93 ≤ 1 / 2 / unit * 2 ^ 93 := by gcongr
        _ = 2 ^ 92 / unit := by ring
        _ ≤ (2 ^ 96 - 1 / 2) / 10 / unit := by
          gcongr
          norm_num
        _ ≤ |q| := by
          rw [div_le_iff₀ hpos, div_le_iff₀ (by norm_num)]
          linarith

/-- The product of a value and a factor is rounded once, and exactly, if all its digits fit.  A longer product may be
moved to a number where the rounding goes on to the next integer, if it is as close to this number as it can be without
being equal; then the result is the one for this number, next to the right one.  Any other product has the right
result: the integer that it is rounded to, or an overflow if this is no value. -/
theorem scaleValue_eq_checked (value : Value) (factor : Decimal) (mode : Rounding) :
    (value.toInt.natAbs * factor.mantissa < mantissaBound →
        scaleValue value factor mode = checked "scale" (mode.ofRat (exactProduct value factor))) ∧
      (scaleValue value factor mode = checked "scale" (mode.ofRat (exactProduct value factor)) ∨
        ∃ t, mode.IsBreak t ∧ exactProduct value factor ≠ t ∧
          |exactProduct value factor - t| * 2 ^ 93 ≤ |exactProduct value factor| ∧
          |mode.ofRat t - mode.ofRat (exactProduct value factor)| = 1 ∧
          scaleValue value factor mode = checked "scale" (mode.ofRat t)) := by
  unfold scaleValue
  rcases Decimal.mul?_ofValue_cases value factor with ⟨hnone, hlarge⟩ | ⟨product, hproduct, hnearest, hexact⟩
  · -- a product whose integer part does not fit is no value either
    have hoverflow : checked "scale" (mode.ofRat (exactProduct value factor)) = .error (.overflow "scale") := by
      apply checked_ofRat_of_large
      refine le_trans ?_ hlarge
      norm_num [mantissaBound]
    rw [hnone, hoverflow]
    exact ⟨fun _ => rfl, .inl rfl⟩
  · rw [hproduct]
    simp only [roundToValue_eq_checked]
    constructor
    · intro hsmall
      rw [hexact hsmall]
      rfl
    rcases checked_of_isNearest hnearest "scale" mode with hsame | ⟨hbreak, hne, hclose⟩
    · exact .inl hsame
    by_cases hresult : mode.ofRat product.toRat = mode.ofRat (exactProduct value factor)
    · left
      rw [hresult]
    right
    refine ⟨product.toRat, hbreak, hne, hclose, ?_, rfl⟩
    have hnext := Rounding.abs_ofRat_sub_le_of_isBreak hbreak (hnearest.abs_sub_le.trans_lt (by norm_num))
    have hother : 0 < |mode.ofRat product.toRat - mode.ofRat (exactProduct value factor)| :=
      abs_pos.2 (sub_ne_zero.2 hresult)
    exact le_antisymm hnext hother

/-- The factor `0.125` and the largest value: all digits of the product fit. -/
def eighth : Decimal := ⟨false, 125, 3, by decide, by decide⟩

theorem scaleValue_eq_checked_largest :
    (9223372036854775807 : Value).toInt.natAbs * eighth.mantissa < mantissaBound ∧
      scaleValue 9223372036854775807 eighth .halfUp =
        checked "scale" (Rounding.halfUp.ofRat (exactProduct 9223372036854775807 eighth)) ∧
      scaleValue 9223372036854775807 eighth .halfUp = .ok 1152921504606846976 := by
  have hfits : (9223372036854775807 : Value).toInt.natAbs * eighth.mantissa < mantissaBound := by decide
  exact ⟨hfits, (scaleValue_eq_checked 9223372036854775807 eighth .halfUp).1 hfits, rfl⟩

/-- The largest decimal number below twenty. -/
def belowTwenty : Decimal := ⟨false, 19999999999999999999999999999, 27, by decide, by decide⟩

/-- The product has one digit too many and is moved to eighty, which is not below eighty any more. -/
theorem scaleValue_crosses_integer :
    scaleValue 4 belowTwenty .truncate = .ok 80 ∧ Rounding.truncate.ofRat (exactProduct 4 belowTwenty) = 79 ∧
      scaleValue 4 belowTwenty .truncate ≠ checked "scale" (Rounding.truncate.ofRat (exactProduct 4 belowTwenty)) := by
  have hscaled : scaleValue 4 belowTwenty .truncate = .ok 80 := rfl
  have hproduct : exactProduct 4 belowTwenty = 79999999999999999999999999996 / 10 ^ 27 := by
    have hvalue : (4 : Value).toInt = 4 := by decide
    simp only [exactProduct, hvalue, Decimal.toRat, Decimal.signed, belowTwenty, tenTo]
    norm_num
  have hexact : Rounding.truncate.ofRat (exactProduct 4 belowTwenty) = 79 := by
    rw [hproduct, Rounding.ofRat, if_pos (by norm_num), Int.floor_eq_iff]
    norm_num
  refine ⟨hscaled, hexact, ?_⟩
  rw [hscaled, hexact]
  decide

end DiceTally
