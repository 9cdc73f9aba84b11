import DiceTally.Proofs.Decimal.Rational
import DiceTally.Decimal.Arithmetic

/-!
# Signs of sums and products

Sums and products of decimal numbers without a sign have none.  A sum is zero only if both numbers are
(`addSaturating_unsigned`), but a product is zero as soon as the exact product is not more than `Decimal.halfUnit`, half
of the smallest positive number (`mulSaturating_unsigned`).
-/

namespace DiceTally

theorem halfEven_eq_zero_iff (n : Nat) {d : Nat} (hd : 0 < d) : halfEven n d = 0 ↔ 2 * n ≤ d := by
  have hdiv := Nat.div_add_mod n d
  have hmod := Nat.mod_lt n hd
  unfold halfEven
  dsimp only
  rcases Nat.eq_zero_or_pos (n / d) with hq | hq
  · rw [hq, Nat.mul_zero, Nat.zero_add] at hdiv
    rw [hdiv, hq]
    by_cases hup : d < 2 * n
    · simp [hup]
    · simp [hup]
      omega
  · have hle : d ≤ d * (n / d) := Nat.le_mul_of_pos_right d hq
    have hne : n / d ≠ 0 := Nat.ne_of_gt hq
    constructor
    · intro h
      split at h <;> omega
    · intro h
      omega

namespace Decimal

/-- Half of the smallest positive number. -/
def halfUnit : ℚ := 1 / 2 / tenTo 28

theorem halfUnit_pos : 0 < halfUnit := div_pos (by norm_num) (tenTo_cast_pos 28)

variable {a b d : Decimal}

/-- No sign, which a positive number does not have. -/
def Unsigned (d : Decimal) : Prop := d.negative = false

theorem Unsigned.toRat_eq (h : d.Unsigned) : d.toRat = d.mantissa / tenTo d.scale := by
  rw [toRat_eq_withSign, h, withSign, if_neg Bool.false_ne_true]

theorem Unsigned.toRat_nonneg (h : d.Unsigned) : 0 ≤ d.toRat := by
  rw [h.toRat_eq]
  positivity

theorem Unsigned.toRat_eq_zero_iff (h : d.Unsigned) : d.toRat = 0 ↔ d.mantissa = 0 := by
  rw [h.toRat_eq, div_eq_zero_iff, or_iff_left (tenTo_cast_pos d.scale).ne', Nat.cast_eq_zero]

theorem Unsigned.toRat_pos_iff (h : d.Unsigned) : 0 < d.toRat ↔ d.mantissa ≠ 0 := by
  rw [h.toRat_nonneg.lt_iff_ne, ne_comm, Ne, h.toRat_eq_zero_iff]

theorem unsigned_zero : zero.Unsigned := rfl

theorem unsigned_one : one.Unsigned := rfl

theorem unsigned_max : max.Unsigned := rfl

theorem unsigned_of_isPositive (h : d.isPositive = true) : d.Unsigned := (signed_of_isPositive h).1

theorem toRat_pos_of_isPositive (h : d.isPositive = true) : 0 < d.toRat :=
  (unsigned_of_isPositive h).toRat_pos_iff.2 (Nat.ne_of_gt (signed_of_isPositive h).2)

/-! ### Fitting -/

/-- A mantissa that does not fit with one digit more is still there with all its digits. -/
theorem tenTo_lt_of_full {m k : Nat} (h : mantissaBound ≤ halfEven m (tenTo (k - 1))) : tenTo k < 2 * m := by
  have hten : tenTo k ≤ 10 * tenTo (k - 1) := by
    rw [← tenTo_succ]
    exact Nat.pow_le_pow_right (by decide) (by omega)
  have hquotient := sub_half_le_of_le_halfEven (tenTo_pos (k - 1)) h
  rw [le_div_iff₀ (tenTo_cast_pos (k - 1))] at hquotient
  have hbound : (6 : ℚ) ≤ mantissaBound - 1 / 2 := by norm_num [mantissaBound]
  have hsix : (6 * tenTo (k - 1) : ℚ) ≤ m :=
    (mul_le_mul_of_nonneg_right hbound (tenTo_cast_pos (k - 1)).le).trans hquotient
  have hm : 6 * tenTo (k - 1) ≤ m := by exact_mod_cast hsix
  have hpos := tenTo_pos (k - 1)
  omega

/-- The digits that do not fit are lost; they are all that there is only if the number has more than 28 digits after the
point. -/
theorem mantissa_fit_eq_zero_iff {m s : Nat} (h : fit false m s = some d) :
    d.Unsigned ∧ d.scale ≤ s ∧ (d.mantissa = 0 ↔ 2 * m ≤ tenTo (s - 28)) := by
  rcases fit_cases false m s with ⟨hnone, -⟩ | ⟨k, hk, d', hd', hparts, hk28, hfull⟩
  · rw [hnone] at h
    cases h
  obtain rfl : d = d' := Option.some.inj (h.symm.trans hd')
  obtain ⟨hnegative, hmantissa, hscale⟩ := parts_of_ofParts? hparts
  refine ⟨hnegative, by omega, ?_⟩
  rw [hmantissa, halfEven_eq_zero_iff m (tenTo_pos k)]
  rcases hfull with rfl | hfull
  · exact Iff.rfl
  · have hlarge := tenTo_lt_of_full hfull
    have hle : tenTo (s - 28) ≤ tenTo k := Nat.pow_le_pow_right (by decide) hk28
    omega

theorem le_halfUnit_iff (m s : Nat) : (m / tenTo s : ℚ) ≤ halfUnit ↔ 2 * m ≤ tenTo (s - 28) := by
  have hcross : (m / tenTo s : ℚ) ≤ halfUnit ↔ 2 * m * tenTo 28 ≤ tenTo s := by
    rw [halfUnit, div_div, div_le_div_iff₀ (tenTo_cast_pos s) (mul_pos two_pos (tenTo_cast_pos 28)), one_mul,
      ← mul_assoc, mul_comm (m : ℚ) 2]
    exact_mod_cast Iff.rfl
  rw [hcross]
  by_cases hs : 28 ≤ s
  · rw [← tenTo_mul_tenTo_sub hs, Nat.mul_comm (tenTo 28)]
    exact Nat.mul_le_mul_right_iff (tenTo_pos 28)
  · have hzero : tenTo (s - 28) = 1 := by rw [Nat.sub_eq_zero_of_le (not_le.1 hs).le]; rfl
    have hlt : tenTo s < tenTo 28 := Nat.pow_lt_pow_right (by decide) (not_le.1 hs)
    rw [hzero]
    constructor
    · intro h
      by_contra hm
      have : tenTo 28 ≤ 2 * m * tenTo 28 := Nat.le_mul_of_pos_left _ (by omega)
      omega
    · intro h
      obtain rfl : m = 0 := by omega
      rw [Nat.mul_zero, Nat.zero_mul]
      exact Nat.zero_le _

/-! ### Products -/

theorem toRat_mul_toRat (ha : a.Unsigned) (hb : b.Unsigned) :
    a.toRat * b.toRat = (a.mantissa * b.mantissa : Nat) / tenTo (a.scale + b.scale) := by
  have hscale : tenTo (a.scale + b.scale) = tenTo a.scale * tenTo b.scale := Nat.pow_add 10 _ _
  rw [ha.toRat_eq, hb.toRat_eq, div_mul_div_comm, hscale, Nat.cast_mul, Nat.cast_mul]

/-- A product with at most 28 digits after the point loses none of them. -/
theorem halfUnit_lt_mul (ha : a.Unsigned) (hb : b.Unsigned) (hapos : 0 < a.toRat) (hbpos : 0 < b.toRat)
    (hscale : a.scale + b.scale ≤ 28) : halfUnit < a.toRat * b.toRat := by
  have hproduct : a.mantissa * b.mantissa ≠ 0 :=
    Nat.mul_ne_zero (ha.toRat_pos_iff.1 hapos) (hb.toRat_pos_iff.1 hbpos)
  have hone : tenTo (a.scale + b.scale - 28) = 1 := by
    rw [Nat.sub_eq_zero_of_le hscale]
    rfl
  rw [toRat_mul_toRat ha hb, ← not_le, le_halfUnit_iff, hone]
  omega

/-- The short way to a zero is right. -/
theorem le_halfUnit_of_vanishes (ha : a.Unsigned) (hb : b.Unsigned) (h : a.vanishes b = true) :
    a.toRat * b.toRat ≤ halfUnit := by
  simp only [vanishes, Bool.and_eq_true, decide_eq_true_eq] at h
  obtain ⟨⟨hma, hmb⟩, hscale⟩ := h
  have hproduct : a.mantissa * b.mantissa ≤ bound32 * bound32 := Nat.mul_le_mul hma.le hmb.le
  have hsmall : 2 * (bound32 * bound32) ≤ tenTo 20 := by decide
  have hplaces : tenTo 20 ≤ tenTo (a.scale + b.scale - 28) := Nat.pow_le_pow_right (by decide) (by omega)
  rw [toRat_mul_toRat ha hb, le_halfUnit_iff]
  omega

/-- A product has no more digits after the point than its factors, and is zero only if the exact product is not more
than half of the smallest positive number. -/
theorem mulSaturating_unsigned (ha : a.Unsigned) (hb : b.Unsigned) :
    (a.mulSaturating b).Unsigned ∧ (a.mulSaturating b).scale ≤ a.scale + b.scale ∧
      (0 < (a.mulSaturating b).toRat ↔ halfUnit < a.toRat * b.toRat) := by
  unfold mulSaturating mul?
  by_cases hzero : (a.isZero || b.isZero || a.vanishes b) = true
  · rw [if_pos hzero, Option.getD_some]
    refine ⟨unsigned_zero, Nat.zero_le _, iff_of_false (lt_irrefl 0 ∘ ?_) (not_lt.2 ?_)⟩
    · exact fun h => by simp [toRat, signed, zero] at h
    · rw [Bool.or_eq_true, Bool.or_eq_true, isZero_eq_true_iff, isZero_eq_true_iff] at hzero
      rcases hzero with (h | h) | h
      · rw [ha.toRat_eq_zero_iff.2 h, zero_mul]
        exact halfUnit_pos.le
      · rw [hb.toRat_eq_zero_iff.2 h, mul_zero]
        exact halfUnit_pos.le
      · exact le_halfUnit_of_vanishes ha hb h
  · have hsign : (a.negative != b.negative) = false := by rw [ha, hb]; rfl
    rw [if_neg hzero, hsign, toRat_mul_toRat ha hb, ← not_le, ← not_le, le_halfUnit_iff, not_iff_not]
    cases hfit : fit false (a.mantissa * b.mantissa) (a.scale + b.scale) with
    | some d =>
      obtain ⟨hd, hscale, hmantissa⟩ := mantissa_fit_eq_zero_iff hfit
      rw [Option.getD_some, hd.toRat_nonneg.ge_iff_eq', hd.toRat_eq_zero_iff]
      exact ⟨hd, hscale, hmantissa⟩
    | none =>
      refine ⟨unsigned_max, Nat.zero_le _, iff_of_false ?_ ?_⟩
      · rw [Option.getD_none, not_le, unsigned_max.toRat_pos_iff]
        decide
      · rcases fit_cases false (a.mantissa * b.mantissa) (a.scale + b.scale) with ⟨-, hlarge⟩ | ⟨k, -, d, hd, -⟩
        · -- what does not fit is not even small
          intro hsmall
          have hle : tenTo (a.scale + b.scale - 28) ≤ tenTo (a.scale + b.scale) :=
            Nat.pow_le_pow_right (by decide) (Nat.sub_le _ _)
          have := (halfEven_eq_zero_iff _ (tenTo_pos _)).2 (hsmall.trans hle)
          have hbound : 0 < mantissaBound := by decide
          omega
        · rw [hfit] at hd
          cases hd

/-! ### Sums -/

/-- A sum is zero only if both numbers are. -/
theorem addSaturating_unsigned (ha : a.Unsigned) (hb : b.Unsigned) :
    (a.addSaturating b).Unsigned ∧ (0 < (a.addSaturating b).toRat ↔ 0 < a.toRat ∨ 0 < b.toRat) := by
  unfold addSaturating add?
  by_cases hazero : a.isZero = true
  · have hzero := ha.toRat_eq_zero_iff.2 (isZero_eq_true_iff.1 hazero)
    rw [if_pos hazero, Option.getD_some, hzero]
    exact ⟨hb, by simp⟩
  by_cases hbzero : b.isZero = true
  · have hzero := hb.toRat_eq_zero_iff.2 (isZero_eq_true_iff.1 hbzero)
    rw [if_neg hazero, if_pos hbzero, Option.getD_some, hzero]
    exact ⟨ha, by simp⟩
  rw [if_neg hazero, if_neg hbzero]
  have hapos : 0 < a.toRat := ha.toRat_pos_iff.2 fun h => hazero (isZero_eq_true_iff.2 h)
  have hsigned {d : Decimal} (hd : d.Unsigned) (k : Nat) : d.signed * tenTo k = (d.mantissa * tenTo k : Nat) := by
    rw [signed, hd, if_neg Bool.false_ne_true, Nat.cast_mul]
  have hplaces : Nat.max a.scale b.scale - 28 = 0 := Nat.sub_eq_zero_of_le (Nat.max_le.2 ⟨a.scale_le, b.scale_le⟩)
  dsimp only
  rw [hsigned ha, hsigned hb, ← Nat.cast_add, Int.natAbs_natCast, decide_eq_false (Int.natCast_nonneg _).not_gt]
  have hsum : a.mantissa * tenTo (Nat.max a.scale b.scale - a.scale) ≠ 0 :=
    Nat.mul_ne_zero (ha.toRat_pos_iff.1 hapos) (tenTo_pos _).ne'
  cases hfit : fit false _ (Nat.max a.scale b.scale) with
  | none =>
    rw [Option.getD_none, unsigned_max.toRat_pos_iff]
    exact ⟨unsigned_max, iff_of_true (by decide) (.inl hapos)⟩
  | some d =>
    obtain ⟨hd, -, hmantissa⟩ := mantissa_fit_eq_zero_iff hfit
    rw [Option.getD_some, hd.toRat_pos_iff, Ne, hmantissa, hplaces]
    refine ⟨hd, iff_of_true ?_ (.inl hapos)⟩
    have : tenTo 0 = 1 := rfl
    omega

end Decimal

end DiceTally
