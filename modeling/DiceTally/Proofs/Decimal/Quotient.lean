import DiceTally.Proofs.Decimal.Order

/-!
# Quotients and percentages

A quotient is the nearest decimal number with 28 digits after the point, or with as many of them as fit (`div?_cases`).
A hundred times a number is exact where it is in range (`mul?_hundred_cases`).  Both a product and a quotient are off by
one part in `10 ^ 28` at most, a small quotient by as much as one percent is (`IsNearest.abs_sub_le_mul`,
`IsQuotient.abs_sub_le`).
-/

namespace DiceTally

namespace Decimal

variable {a b d : Decimal} {q : ℚ}

/-- What is kept of the quotient `q`: it is moved by at most half a unit of the last digit, and no further digit would
fit or is allowed. -/
structure IsQuotient (d : Decimal) (q : ℚ) : Prop where
  unsigned : d.Unsigned
  near : |q - d.toRat| ≤ 1 / 2 / tenTo d.scale
  full : d.toRat = q ∨ d.scale = 28 ∨ mantissaBound - 1 / 2 ≤ 10 * q * tenTo d.scale

theorem isQuotient_zero : zero.IsQuotient 0 where
  unsigned := unsigned_zero
  near := by norm_num [toRat, signed, zero, tenTo]
  full := .inl (isZero_iff_toRat.1 rfl)

/-! ### Precision -/

/-- Half a unit of a mantissa for which no further digit fits is small. -/
theorem half_unit_le {s : Nat} (h : mantissaBound - 1 / 2 ≤ 10 * q * tenTo s) : 1 / 2 / tenTo s ≤ q / tenTo 28 := by
  have hpos := tenTo_cast_pos s
  have hbound : (5 * tenTo 28 : ℚ) ≤ mantissaBound - 1 / 2 := by norm_num [mantissaBound, tenTo]
  rw [div_le_div_iff₀ hpos (tenTo_cast_pos 28)]
  linarith

theorem IsNearest.abs_sub_le_mul (h : d.IsNearest q) : |q - d.toRat| ≤ |q| / tenTo 28 := by
  rcases h.full with heq | hfull
  · have hpos := tenTo_cast_pos 28
    rw [heq, sub_self, abs_zero]
    positivity
  · exact h.near.trans (half_unit_le hfull)

theorem IsQuotient.abs_sub_le {bound : ℚ} (h : d.IsQuotient q) (hbound : q ≤ bound) (hone : 1 ≤ bound) :
    |q - d.toRat| ≤ bound / tenTo 28 := by
  have hpos := tenTo_cast_pos 28
  rcases h.full with heq | hscale | hfull
  · rw [heq, sub_self, abs_zero]
    positivity
  · refine h.near.trans ?_
    rw [hscale]
    exact div_le_div_of_nonneg_right (by linarith) hpos.le
  · exact (h.near.trans (half_unit_le hfull)).trans (div_le_div_of_nonneg_right hbound hpos.le)

/-! ### Quotients -/

/-- The quotient without the last `k` of its 28 digits after the point. -/
def quotientAt (a b : Decimal) (k : Nat) : Option Decimal :=
  ofParts? false (halfEven (a.mantissa * tenTo (b.scale + (28 - k))) (b.mantissa * tenTo a.scale)) (28 - k)

section

variable {k : Nat} (ha : a.Unsigned) (hb : b.Unsigned) (hbzero : b.mantissa ≠ 0)

include ha hb hbzero

theorem quotient_digits :
    0 < b.mantissa * tenTo a.scale ∧
      ((a.mantissa * tenTo (b.scale + (28 - k)) : ℕ) / (b.mantissa * tenTo a.scale : ℕ) : ℚ) =
        a.toRat / b.toRat * tenTo (28 - k) := by
  have hapos := tenTo_cast_pos a.scale
  have hbpos := tenTo_cast_pos b.scale
  have hmantissa : (b.mantissa : ℚ) ≠ 0 := Nat.cast_ne_zero.2 hbzero
  have hplaces : tenTo (b.scale + (28 - k)) = tenTo b.scale * tenTo (28 - k) := Nat.pow_add 10 _ _
  refine ⟨Nat.mul_pos (Nat.pos_of_ne_zero hbzero) (tenTo_pos _), ?_⟩
  rw [ha.toRat_eq, hb.toRat_eq, hplaces]
  push_cast
  field_simp

/-- The digits do not fit only if there are too many of them. -/
theorem le_of_quotientAt_eq_none (h : quotientAt a b k = none) :
    mantissaBound - 1 / 2 ≤ a.toRat / b.toRat * tenTo (28 - k) := by
  obtain ⟨hpos, hdigits⟩ := quotient_digits (k := k) ha hb hbzero
  rw [← hdigits]
  exact sub_half_le_of_le_halfEven hpos ((ofParts?_eq_none_iff (Nat.sub_le 28 k)).1 h)

/-- The digits that are kept are rounded. -/
theorem near_of_quotientAt_eq_some (h : quotientAt a b k = some d) :
    d.Unsigned ∧ d.scale = 28 - k ∧ |a.toRat / b.toRat - d.toRat| ≤ 1 / 2 / tenTo d.scale := by
  obtain ⟨hnegative, -, -⟩ := parts_of_ofParts? h
  obtain ⟨hrat, hscale⟩ := toRat_of_ofParts? h
  rw [withSign, if_neg Bool.false_ne_true] at hrat
  refine ⟨hnegative, hscale, ?_⟩
  obtain ⟨hpos, hdigits⟩ := quotient_digits (k := k) ha hb hbzero
  have hplaces := tenTo_cast_pos (28 - k)
  have hnear := abs_sub_halfEven_le (a.mantissa * tenTo (b.scale + (28 - k))) hpos
  rw [hdigits, ← div_mul_cancel₀ (halfEven _ _ : ℚ) hplaces.ne', ← hrat, ← sub_mul, abs_mul, abs_of_pos hplaces]
    at hnear
  rw [hscale, le_div_iff₀ hplaces]
  exact hnear

end

/-- A quotient has no result only if its integer part does not fit. -/
theorem div?_cases (ha : 0 ≤ a.toRat) (hb : 0 < b.toRat) :
    (a.div? b = none ∧ mantissaBound - 1 / 2 ≤ a.toRat / b.toRat) ∨
      ∃ d, a.div? b = some d ∧ d.IsQuotient (a.toRat / b.toRat) := by
  have hbsign : b.Unsigned := negative_of_lt_toRat hb
  have hbzero : ¬b.isZero = true := fun h => hb.ne' (isZero_iff_toRat.1 h)
  by_cases hazero : a.isZero = true
  · rw [div?, if_neg hbzero, if_pos hazero, isZero_iff_toRat.1 hazero, zero_div]
    exact .inr ⟨zero, rfl, isQuotient_zero⟩
  have hasign := unsigned_of_nonneg ha hazero
  have hsign : (a.negative != b.negative) = false := by rw [hasign, hbsign]; rfl
  have hmantissa : b.mantissa ≠ 0 := fun h => hbzero (isZero_eq_true_iff.2 h)
  have hdiv : a.div? b = (List.range 29).findSome? (quotientAt a b) := by
    rw [div?, if_neg hbzero, if_neg hazero, hsign]
    rfl
  rw [hdiv]
  rcases findSome?_range_cases (quotientAt a b) 29 with ⟨hnone, hall⟩ | ⟨k, hk, hfound, hsome, hbefore⟩
  · left
    have hlast := le_of_quotientAt_eq_none hasign hbsign hmantissa (hall 28 (by decide))
    have hone : (tenTo (28 - 28) : ℚ) = 1 := by norm_num [tenTo]
    rw [hone, mul_one] at hlast
    exact ⟨hnone, hlast⟩
  right
  obtain ⟨d, hd⟩ := Option.isSome_iff_exists.1 hsome
  obtain ⟨hunsigned, hscale, hnear⟩ := near_of_quotientAt_eq_some hasign hbsign hmantissa hd
  refine ⟨d, hfound.trans hd, hunsigned, hnear, .inr ?_⟩
  rw [hscale]
  cases k with
  | zero => exact .inl rfl
  | succ k =>
    -- with one digit more it did not fit
    right
    have hprevious := le_of_quotientAt_eq_none hasign hbsign hmantissa (hbefore k (Nat.lt_succ_self k))
    have hten : (tenTo (28 - k) : ℚ) = 10 * tenTo (28 - (k + 1)) := by
      have hstep : 28 - k = 28 - (k + 1) + 1 := by omega
      rw [hstep, tenTo_succ]
      push_cast
      rfl
    rw [hten] at hprevious
    linarith

/-! ### Products -/

theorem mul?_comm (a b : Decimal) : a.mul? b = b.mul? a := by
  have hvanishes : a.vanishes b = b.vanishes a := by
    rw [vanishes, vanishes, Bool.and_comm (decide (a.mantissa < bound32)), Nat.add_comm]
  unfold mul?
  rw [hvanishes, Bool.or_comm a.isZero, bne_comm, Nat.mul_comm, Nat.add_comm]

/-- Two zeros at most are dropped from a mantissa with two zeros behind it, since it fits without them. -/
theorem toRat_of_fit_hundred {m s : Nat} (hm : m < mantissaBound) (hs : s ≤ 28)
    (h : fit false (m * tenTo 2) s = some d) : d.Unsigned ∧ d.toRat = 100 * (m / tenTo s) := by
  rcases fit_cases false (m * tenTo 2) s with ⟨hnone, -⟩ | ⟨k, hk, d', hd', hparts, -, hfull⟩
  · rw [hnone] at h
    cases h
  obtain rfl : d = d' := Option.some.inj (h.symm.trans hd')
  obtain ⟨hnegative, -, -⟩ := parts_of_ofParts? hparts
  obtain ⟨hrat, -⟩ := toRat_of_ofParts? hparts
  refine ⟨hnegative, ?_⟩
  rw [Nat.sub_eq_zero_of_le hs] at hfull
  have hk2 : k ≤ 2 := by
    by_contra hlarge
    have hbound := sub_half_le_of_le_halfEven (tenTo_pos (k - 1)) (hfull.resolve_left (by omega))
    have htens : (tenTo 2 : ℚ) ≤ tenTo (k - 1) := by
      exact_mod_cast Nat.pow_le_pow_right (by decide) (show 2 ≤ k - 1 by omega)
    have hsmall : ((m * tenTo 2 : ℕ) / tenTo (k - 1) : ℚ) ≤ m := by
      rw [div_le_iff₀ (tenTo_cast_pos _)]
      push_cast
      exact mul_le_mul_of_nonneg_left htens (Nat.cast_nonneg _)
    have hfits : (m : ℚ) + 1 ≤ mantissaBound := by exact_mod_cast hm
    have hless : (m : ℚ) < mantissaBound - 1 / 2 :=
      (le_sub_iff_add_le.2 hfits).trans_lt (sub_lt_sub_left one_half_lt_one _)
    exact absurd (hbound.trans hsmall) (not_le.2 hless)
  have hdigits : halfEven (m * tenTo 2) (tenTo k) = m * tenTo (2 - k) := by
    rw [← tenTo_mul_tenTo_sub hk2, Nat.mul_comm (tenTo k), ← Nat.mul_assoc, halfEven_mul _ (tenTo_pos k)]
  have hhundred : (tenTo k : ℚ) * tenTo (2 - k) = 100 := by exact_mod_cast tenTo_mul_tenTo_sub hk2
  have hall : (tenTo k : ℚ) * tenTo (s - k) = tenTo s := by exact_mod_cast tenTo_mul_tenTo_sub hk
  have hposk := tenTo_cast_pos k
  have hposd := tenTo_cast_pos (s - k)
  rw [hrat, withSign, if_neg Bool.false_ne_true, hdigits, ← hall, ← hhundred]
  push_cast
  field_simp

/-- A hundred times a number is exact, or its integer part does not fit. -/
theorem mul?_hundred_cases (ha : 0 ≤ a.toRat) :
    (a.mul? hundred = none ∧ mantissaBound - 1 / 2 ≤ 100 * a.toRat) ∨
      ∃ d, a.mul? hundred = some d ∧ d.Unsigned ∧ d.toRat = 100 * a.toRat := by
  have hvanishes : a.vanishes hundred = false := by
    have := a.scale_le
    simp [vanishes, hundred]
    omega
  have hhundred : hundred.isZero = false := rfl
  unfold mul?
  rw [hvanishes, hhundred, Bool.or_false, Bool.or_false]
  by_cases hazero : a.isZero = true
  · rw [if_pos hazero, isZero_iff_toRat.1 hazero, mul_zero]
    exact .inr ⟨zero, rfl, unsigned_zero, isZero_iff_toRat.1 rfl⟩
  have hasign := unsigned_of_nonneg ha hazero
  have hsign : (a.negative != hundred.negative) = false := by rw [hasign]; rfl
  have hscale : a.scale + hundred.scale = a.scale := rfl
  have hmantissa : a.mantissa * hundred.mantissa = a.mantissa * tenTo 2 := rfl
  rw [if_neg hazero, hsign, hscale, hmantissa, hasign.toRat_eq]
  cases hfit : fit false (a.mantissa * tenTo 2) a.scale with
  | some d => exact .inr ⟨d, rfl, toRat_of_fit_hundred a.mantissa_lt a.scale_le hfit⟩
  | none =>
    refine .inl ⟨rfl, ?_⟩
    rcases fit_cases false (a.mantissa * tenTo 2) a.scale with ⟨-, hlarge⟩ | ⟨k, -, d, hd, -⟩
    · have hbound := sub_half_le_of_le_halfEven (tenTo_pos _) hlarge
      have htwo : (tenTo 2 : ℚ) = 100 := by norm_num [tenTo]
      rwa [Nat.cast_mul, htwo, mul_comm (a.mantissa : ℚ), mul_div_assoc] at hbound
    · rw [hfit] at hd
      cases hd

end Decimal

end DiceTally
