import DiceTally.Proofs.WholePowers

/-!
# Powers with negative exponents

With a negative exponent the power is inverted after it has been computed, and the reciprocal is rounded to 28 digits
before it is rounded to an integer.  The result is right where the power is below `2 * 10 ^ 28`.  The reciprocal of a
larger power vanishes, and a power that does not fit overflows, although its reciprocal is small (`power_neg_exponent`).
So the reciprocals of large powers are not rounded away from zero, and some have no result (`reciprocal_lost`).
-/

namespace DiceTally

/-! ### Reciprocals -/

/-- The reciprocal of an integer with 28 digits after the point. -/
def shortReciprocal (z : ℤ) : ℚ := withSign (z < 0) (halfEven (tenTo 28) z.natAbs / tenTo 28)

theorem tenTo_28 : (tenTo 28 : ℚ) = 10 ^ 28 := by norm_num [tenTo]

theorem one_div_eq_withSign (z : ℤ) : (1 / z : ℚ) = withSign (z < 0) (1 / z.natAbs) := by
  nth_rewrite 1 [← withSign_natAbs z]
  unfold withSign
  split
  · rw [div_neg]
  · rfl

theorem abs_sub_shortReciprocal_le {z : ℤ} (hz : z ≠ 0) : |1 / z - shortReciprocal z| ≤ 1 / 2 / tenTo 28 := by
  have hpos := tenTo_cast_pos 28
  have hscaled : (1 / z.natAbs : ℚ) = tenTo 28 / z.natAbs / tenTo 28 := by
    rw [div_right_comm, div_self hpos.ne']
  rw [one_div_eq_withSign, shortReciprocal, abs_withSign_sub, hscaled, ← sub_div, abs_div, abs_of_pos hpos]
  exact div_le_div_of_nonneg_right (abs_sub_halfEven_le _ (Int.natAbs_pos.2 hz)) hpos.le

/-- The reciprocal of one or two has less than 28 digits. -/
theorem shortReciprocal_of_le_two {z : ℤ} (hz : z ≠ 0) (hsmall : z.natAbs ≤ 2) : shortReciprocal z = 1 / z := by
  have hcases : z.natAbs = 1 ∨ z.natAbs = 2 := by omega
  rw [one_div_eq_withSign, shortReciprocal, tenTo_28]
  congr 1
  rcases hcases with h | h
  · have hhalf : halfEven (tenTo 28) 1 = 10 ^ 28 := by decide
    rw [h, hhalf]
    norm_num
  · have hhalf : halfEven (tenTo 28) 2 = 5 * 10 ^ 27 := by decide
    rw [h, hhalf]
    norm_num

/-- Between zero and a half there is no break, nor between their opposites. -/
theorem not_isBreak_withSign {q : ℚ} (hpos : 0 < q) (hhalf : q < 1 / 2) (negative : Bool) (mode : Rounding) :
    ¬mode.IsBreak (withSign negative q) := by
  rintro ⟨n, hn⟩
  -- twice a break is an integer
  obtain ⟨m, hm⟩ : ∃ m : ℤ, 2 * (n + mode.offset) = m := by
    cases mode with
    | ceil | floor | truncate => exact ⟨2 * n, by simp [Rounding.offset]⟩
    | halfUp | halfDown =>
      refine ⟨2 * n + 1, ?_⟩
      simp only [Rounding.offset]
      push_cast
      ring
  have habs : |(m : ℚ)| = 2 * q := by
    rw [← hm, ← hn, abs_mul, abs_withSign, abs_of_pos hpos, abs_two]
  have hlow : (0 : ℚ) < |(m : ℚ)| := by linarith
  have hhigh : |(m : ℚ)| < 1 := by linarith
  have hlow' : 0 < |m| := by exact_mod_cast hlow
  have hhigh' : |m| < 1 := by exact_mod_cast hhigh
  omega

/-- The reciprocal of a number from three to `2 * 10 ^ 28` is not moved to an integer or a half. -/
theorem not_isBreak_shortReciprocal {z : ℤ} (hlarge : 3 ≤ z.natAbs) (hbound : z.natAbs < 2 * 10 ^ 28)
    (mode : Rounding) : ¬mode.IsBreak (shortReciprocal z) := by
  have hposz : (0 : ℚ) < z.natAbs := by
    have : 0 < z.natAbs := by omega
    exact_mod_cast this
  have hnear := abs_sub_shortReciprocal_le (by omega : z ≠ 0)
  rw [one_div_eq_withSign, shortReciprocal, abs_withSign_sub, tenTo_28] at hnear
  obtain ⟨hlow, hhigh⟩ := abs_le.1 hnear
  have hthird : (1 / z.natAbs : ℚ) ≤ 1 / 3 := by
    have : (3 : ℚ) ≤ z.natAbs := by exact_mod_cast hlarge
    gcongr
  have htiny : 1 / 2 / 10 ^ 28 < (1 / z.natAbs : ℚ) := by
    rw [div_div]
    apply one_div_lt_one_div_of_lt hposz
    exact_mod_cast hbound
  have hsmall : (1 / 2 / 10 ^ 28 : ℚ) < 1 / 6 := by norm_num
  rw [shortReciprocal, tenTo_28]
  apply not_isBreak_withSign <;> linarith

/-- The reciprocal of a number below `2 * 10 ^ 28` has enough digits for every rounding. -/
theorem ofRat_shortReciprocal {z : ℤ} (hz : z ≠ 0) (hbound : z.natAbs < 2 * 10 ^ 28) (mode : Rounding) :
    mode.ofRat (shortReciprocal z) = mode.ofRat (1 / z) := by
  by_cases hsmall : z.natAbs ≤ 2
  · rw [shortReciprocal_of_le_two hz hsmall]
  have hnotBreak := not_isBreak_shortReciprocal (by omega) hbound mode
  have hnear := abs_sub_shortReciprocal_le hz
  obtain ⟨a, ha⟩ : ∃ a : ℤ, shortReciprocal z = a / tenTo 28 := by
    unfold shortReciprocal withSign
    split
    · refine ⟨-halfEven (tenTo 28) z.natAbs, ?_⟩
      push_cast
      rw [neg_div]
    · exact ⟨halfEven (tenTo 28) z.natAbs, rfl⟩
  rw [ha] at hnotBreak hnear ⊢
  have heven : Even (tenTo 28) := by decide
  exact ((mode.ofRat_eq_or_isBreak (tenTo_pos 28) heven hnear).resolve_right hnotBreak).symm

/-- The reciprocal of a larger number has no digits. -/
theorem shortReciprocal_of_large {z : ℤ} (hlarge : 2 * 10 ^ 28 ≤ z.natAbs) : shortReciprocal z = 0 := by
  have htens : tenTo 28 = 10 ^ 28 := rfl
  have hquotient : tenTo 28 / z.natAbs = 0 := Nat.div_eq_of_lt (by omega)
  have hremainder : tenTo 28 % z.natAbs = tenTo 28 := Nat.mod_eq_of_lt (by omega)
  have hzero : halfEven (tenTo 28) z.natAbs = 0 := by
    unfold halfEven
    dsimp only
    rw [hquotient, hremainder, if_neg]
    have : ¬z.natAbs < 2 * tenTo 28 := by omega
    simp [this]
  rw [shortReciprocal, hzero]
  simp [withSign]

/-! ### Powers -/

section Negative

variable {base : Value} {exponent : Decimal} {n : ℕ}

/-- A power that fits is inverted. -/
theorem power_of_fits (hbase : base ≠ 0) (hn : n ≠ 0) (hexponent : exponent.toRat = -n)
    (hfits : base.toInt.natAbs ^ n < mantissaBound) (mode : Rounding) :
    power (.ofValue base) exponent mode = checked "exp" (mode.ofRat (shortReciprocal (base.toInt ^ n))) := by
  have hz : exponent.toRat = (-n : ℤ) := by exact_mod_cast hexponent
  rw [← Int.natAbs_pow] at hfits
  rcases power_cases base hz mode with ⟨k, hsign, hpow, hpower⟩ | ⟨hlarge, hexponents, -⟩
  · rw [Int.natAbs_neg, Int.natAbs_natCast] at hpow
    obtain ⟨d, hd⟩ := Option.isSome_iff_exists.1 (Decimal.isSome_ofInt?_iff.2 hfits)
    have hnonzero : base.toInt ^ n ≠ 0 := pow_ne_zero n (Value.toInt_ne_zero hbase)
    obtain ⟨q, hq, hrat⟩ := Decimal.exists_reciprocal hnonzero hd
    rw [hpower, integralPower_of_neg hbase (by omega), hpow, hd, Option.bind_some, hq]
    show roundToValue "exp" mode q = _
    rw [roundToValue_eq_checked, hrat]
    rfl
  · -- the base is at least two, and its powers have left the range long before
    have hmany : 96 ≤ n := by omega
    have hgrows : 2 ^ 96 ≤ (base.toInt ^ n).natAbs := by
      rw [Int.natAbs_pow]
      exact Nat.le_trans (Nat.pow_le_pow_right (by decide) hmany) (Nat.pow_le_pow_left hlarge n)
    exact absurd hfits (Nat.not_lt.2 hgrows)

theorem power_of_large (hbase : base ≠ 0) (hn : n ≠ 0) (hexponent : exponent.toRat = -n)
    (hlarge : mantissaBound ≤ base.toInt.natAbs ^ n) (mode : Rounding) :
    power (.ofValue base) exponent mode = .error (.overflow "exp") := by
  have hz : exponent.toRat = (-n : ℤ) := by exact_mod_cast hexponent
  rw [← Int.natAbs_pow] at hlarge
  rcases power_cases base hz mode with ⟨k, hsign, hpow, hpower⟩ | ⟨-, -, hpower⟩
  · rw [Int.natAbs_neg, Int.natAbs_natCast] at hpow
    rw [hpower, integralPower_of_neg hbase (by omega), hpow, Decimal.ofInt?_eq_none_iff.2 hlarge]
    rfl
  · exact hpower

theorem exists_checked_of_abs_le_one {q : ℚ} (hq : |q| ≤ 1) (operation : String) (mode : Rounding) :
    ∃ v, checked operation (mode.ofRat q) = .ok v ∧ v.toInt = mode.ofRat q := by
  obtain ⟨hlow, hhigh⟩ := abs_le.1 hq
  obtain ⟨hmoved, hmoved'⟩ := abs_lt.1 (mode.abs_ofRat_sub_lt q)
  have hlow' : (-2 : ℚ) < mode.ofRat q := by linarith
  have hhigh' : (mode.ofRat q : ℚ) < 2 := by linarith
  have hrange : -2 < mode.ofRat q ∧ mode.ofRat q < 2 := by exact_mod_cast And.intro hlow' hhigh'
  rcases checked_cases operation (mode.ofRat q) with ⟨-, hvalue⟩ | ⟨hout, -⟩
  · exact hvalue
  · simp only [Value.bound] at hout
    omega

theorem abs_one_div_le_one {z : ℤ} (hz : z ≠ 0) : |(1 / z : ℚ)| ≤ 1 := by
  have hpos : (1 : ℚ) ≤ z.natAbs := by exact_mod_cast Int.natAbs_pos.2 hz
  rw [one_div_eq_withSign, abs_withSign, abs_of_nonneg (by positivity)]
  exact (div_le_one (by linarith)).2 hpos

/-- A power with a negative exponent is the exact reciprocal, rounded to an integer, if the positive power is below
`2 * 10 ^ 28`.  Between this number and the largest decimal number it is zero, which is right only if the rounding goes
to zero, and above there is an overflow. -/
theorem power_neg_exponent (hbase : base ≠ 0) (hn : n ≠ 0) (hexponent : exponent.toRat = -n) (mode : Rounding) :
    ((∃ v, power (.ofValue base) exponent mode = .ok v ∧ v.toInt = mode.ofRat (1 / (base.toInt : ℚ) ^ n)) ↔
        base.toInt.natAbs ^ n < 2 * 10 ^ 28 ∨
          base.toInt.natAbs ^ n < mantissaBound ∧ mode.ofRat (1 / (base.toInt : ℚ) ^ n) = 0) ∧
      (2 * 10 ^ 28 ≤ base.toInt.natAbs ^ n → base.toInt.natAbs ^ n < mantissaBound →
        power (.ofValue base) exponent mode = .ok 0) ∧
      (mantissaBound ≤ base.toInt.natAbs ^ n → power (.ofValue base) exponent mode = .error (.overflow "exp")) := by
  have hnonzero : base.toInt ^ n ≠ 0 := pow_ne_zero n (Value.toInt_ne_zero hbase)
  have hvanishes (hlarge : 2 * 10 ^ 28 ≤ base.toInt.natAbs ^ n) (hfits : base.toInt.natAbs ^ n < mantissaBound) :
      power (.ofValue base) exponent mode = .ok 0 := by
    rw [← Int.natAbs_pow] at hlarge
    have hzero := mode.ofRat_intCast 0
    rw [Int.cast_zero] at hzero
    rw [power_of_fits hbase hn hexponent hfits, shortReciprocal_of_large hlarge, hzero]
    decide
  refine ⟨?_, hvanishes, fun hlarge => power_of_large hbase hn hexponent hlarge mode⟩
  rw [← Int.cast_pow]
  constructor
  · rintro ⟨v, hv, hvalue⟩
    by_cases hsmall : base.toInt.natAbs ^ n < 2 * 10 ^ 28
    · exact .inl hsmall
    by_cases hfits : base.toInt.natAbs ^ n < mantissaBound
    · right
      rw [hvanishes (Nat.not_lt.1 hsmall) hfits] at hv
      cases hv
      exact ⟨hfits, hvalue.symm⟩
    · rw [power_of_large hbase hn hexponent (Nat.not_lt.1 hfits)] at hv
      cases hv
  · intro hright
    by_cases hsmall : base.toInt.natAbs ^ n < 2 * 10 ^ 28
    · have hfits : base.toInt.natAbs ^ n < mantissaBound := Nat.lt_trans hsmall (by decide)
      rw [power_of_fits hbase hn hexponent hfits, ofRat_shortReciprocal hnonzero (by rwa [Int.natAbs_pow])]
      exact exists_checked_of_abs_le_one (abs_one_div_le_one hnonzero) "exp" mode
    · obtain ⟨hfits, hzero⟩ := hright.resolve_left hsmall
      refine ⟨0, hvanishes (Nat.not_lt.1 hsmall) hfits, ?_⟩
      rw [hzero]
      decide

end Negative

theorem toRat_ofValue_neg (n : ℕ) (v : Value) (hv : v.toInt = -n) : (Decimal.ofValue v).toRat = -n := by
  rw [Decimal.toRat_ofValue, hv, Int.cast_neg, Int.cast_natCast]

/-- The least power of ten has a reciprocal that is not zero. -/
theorem power_neg_exponent_ten :
    (10 : Value) ≠ 0 ∧ 28 ≠ 0 ∧ (Decimal.ofValue (-28)).toRat = -(28 : ℕ) ∧
      (10 : Value).toInt.natAbs ^ 28 < 2 * 10 ^ 28 ∧
      ∃ v, power (.ofValue 10) (.ofValue (-28)) .ceil = .ok v ∧
        v.toInt = Rounding.ceil.ofRat (1 / ((10 : Value).toInt : ℚ) ^ 28) := by
  have hexponent : (Decimal.ofValue (-28)).toRat = -(28 : ℕ) := toRat_ofValue_neg 28 (-28) (by decide)
  have hsmall : (10 : Value).toInt.natAbs ^ 28 < 2 * 10 ^ 28 := by decide
  have hbase : (10 : Value) ≠ 0 := by decide
  have hn : 28 ≠ 0 := by decide
  exact ⟨hbase, hn, hexponent, hsmall, (power_neg_exponent hbase hn hexponent .ceil).1.2 (.inl hsmall)⟩

/-- A reciprocal that vanishes is not rounded up any more, and one of a power that does not fit is not rounded down to
zero. -/
theorem reciprocal_lost :
    power (.ofValue 2) (.ofValue (-95)) .ceil = .ok 0 ∧ Rounding.ceil.ofRat (1 / 2 ^ 95) = 1 ∧
      power (.ofValue 10) (.ofValue (-29)) .truncate = .error (.overflow "exp") ∧
      Rounding.truncate.ofRat (1 / 10 ^ 29) = 0 := by
  have hexponent : (Decimal.ofValue (-95)).toRat = -(95 : ℕ) := toRat_ofValue_neg 95 (-95) (by decide)
  have hexponent' : (Decimal.ofValue (-29)).toRat = -(29 : ℕ) := toRat_ofValue_neg 29 (-29) (by decide)
  have hpower : power (.ofValue 2) (.ofValue (-95)) .ceil = .ok 0 := by
    have hlarge : 2 * 10 ^ 28 ≤ ((2 : Value).toInt ^ 95).natAbs := by decide
    rw [power_of_fits (by decide) (by decide) hexponent (by decide), shortReciprocal_of_large hlarge, Rounding.ofRat,
      Int.ceil_zero]
    decide
  have hpower' : power (.ofValue 10) (.ofValue (-29)) .truncate = .error (.overflow "exp") :=
    power_of_large (by decide) (by decide) hexponent' (by decide) .truncate
  refine ⟨hpower, ?_, hpower', ?_⟩
  · rw [Rounding.ofRat, Int.ceil_eq_iff]
    norm_num
  · rw [Rounding.ofRat, if_pos (by norm_num), Int.floor_eq_iff]
    norm_num

end DiceTally
