import DiceTally.Proofs.Rounding

/-!
# Decimal numbers as rational numbers

`Decimal.toRat` is the rational number that a decimal number stands for.  Rounding a decimal number rounds this rational
number (`round_eq_ofRat`).  Products of integers are exact or do not fit (`mul?_of_ofInt?`).  The product of a value and
a decimal number is the nearest decimal number with as many digits after the point as fit (`mul?_ofValue_cases`), and
the reciprocal of an integer the nearest one with 28 of them (`exists_reciprocal`).
-/

namespace DiceTally

/-- A magnitude with a sign in front of it. -/
def withSign (negative : Bool) (q : ℚ) : ℚ := if negative then -q else q

theorem abs_withSign (negative : Bool) (q : ℚ) : |withSign negative q| = |q| := by
  unfold withSign
  split
  · exact abs_neg q
  · rfl

theorem abs_withSign_sub (negative : Bool) (p q : ℚ) : |withSign negative p - withSign negative q| = |p - q| := by
  unfold withSign
  split
  · rw [neg_sub_neg, abs_sub_comm]
  · rfl

theorem withSign_mul (negative negative' : Bool) (p q : ℚ) :
    withSign (negative != negative') (p * q) = withSign negative p * withSign negative' q := by
  cases negative <;> cases negative' <;> simp [withSign]

theorem withSign_natAbs (n : ℤ) : withSign (n < 0) n.natAbs = n := by
  have habs : ((n.natAbs : ℕ) : ℚ) = |(n : ℚ)| := by
    rw [Nat.cast_natAbs, Int.cast_abs]
  unfold withSign
  by_cases hn : n < 0
  · have : (n : ℚ) < 0 := by exact_mod_cast hn
    rw [if_pos (decide_eq_true hn), habs, abs_of_neg this, neg_neg]
  · have : (0 : ℚ) ≤ n := by exact_mod_cast not_lt.1 hn
    rw [if_neg (by simpa using hn), habs, abs_of_nonneg this]

/-- A product is negative if one factor is and the other one is not. -/
theorem bne_neg_eq {m n : ℤ} (hm : m ≠ 0) (hn : n ≠ 0) :
    (decide (m < 0) != decide (n < 0)) = decide (m * n < 0) := by
  rcases lt_or_gt_of_ne hm with hm | hm <;> rcases lt_or_gt_of_ne hn with hn | hn
  · simp [hm, hn, not_lt.2 (mul_pos_of_neg_of_neg hm hn).le]
  · simp [hm, not_lt.2 hn.le, mul_neg_of_neg_of_pos hm hn]
  · simp [hn, not_lt.2 hm.le, mul_neg_of_pos_of_neg hm hn]
  · simp [not_lt.2 hm.le, not_lt.2 hn.le, not_lt.2 (mul_pos hm hn).le]

theorem tenTo_cast_pos (n : Nat) : (0 : ℚ) < tenTo n := Nat.cast_pos.2 (tenTo_pos n)

/-- The first number of a range for which there is a result. -/
theorem findSome?_range_cases {α : Type} (f : Nat → Option α) (n : Nat) :
    ((List.range n).findSome? f = none ∧ ∀ k < n, f k = none) ∨
      ∃ k < n, (List.range n).findSome? f = f k ∧ (f k).isSome = true ∧ ∀ j < k, f j = none := by
  induction n with
  | zero => exact .inl ⟨rfl, fun k hk => absurd hk (Nat.not_lt_zero k)⟩
  | succ n ih =>
    rw [List.range_succ, List.findSome?_append]
    rcases ih with ⟨hnone, hall⟩ | ⟨k, hk, hfound, hsome, hbefore⟩
    · rw [hnone, Option.none_or]
      cases hn : f n with
      | none =>
        left
        refine ⟨by simp [hn], fun k hk => ?_⟩
        rcases Nat.lt_succ_iff_lt_or_eq.1 hk with hk | rfl
        · exact hall k hk
        · exact hn
      | some a => exact .inr ⟨n, Nat.lt_succ_self n, by simp [hn], by simp [hn], hall⟩
    · right
      refine ⟨k, by omega, ?_, hsome, hbefore⟩
      obtain ⟨a, ha⟩ := Option.isSome_iff_exists.1 hsome
      rw [hfound, ha, Option.some_or]

namespace Decimal

/-- The number that a form stands for. -/
def toRat (d : Decimal) : ℚ := d.signed / tenTo d.scale

variable {a b d : Decimal}

theorem toRat_eq_withSign (d : Decimal) : d.toRat = withSign d.negative (d.mantissa / tenTo d.scale) := by
  unfold toRat signed withSign
  split
  · push_cast
    rw [neg_div]
  · rfl

/-- Rounding a decimal number rounds the number that it stands for. -/
theorem round_eq_ofRat (mode : Rounding) (d : Decimal) : d.round mode = mode.ofRat d.toRat := by
  rw [toRat_eq_withSign]
  unfold round withSign
  dsimp only
  cases d.negative with
  | false => exact mode.divide_eq_ofRat d.mantissa (tenTo_pos d.scale)
  | true =>
    simp only [if_true]
    rw [Rounding.divide_true, Rounding.divide_eq_ofRat _ _ (tenTo_pos d.scale), Rounding.ofRat_neg]

/-! ### Integers -/

theorem toRat_ofValue (v : Value) : (ofValue v).toRat = v.toInt := by
  rw [toRat_eq_withSign]
  simp only [ofValue, tenTo, Nat.pow_eq, pow_zero, Nat.cast_one, div_one]
  exact withSign_natAbs v.toInt

theorem toInt_of_toRat {n : ℤ} (h : d.toRat = n) : d.toInt = n := by
  rw [toInt, round_eq_ofRat, h, Rounding.ofRat_intCast]

theorem isWhole_of_toRat {n : ℤ} (h : d.toRat = n) : d.isWhole = true := by
  rw [toRat, div_eq_iff (tenTo_cast_pos d.scale).ne'] at h
  have hsigned : d.signed = n * tenTo d.scale := by exact_mod_cast h
  have hmantissa : d.mantissa = n.natAbs * tenTo d.scale := by
    rw [← natAbs_signed, hsigned, Int.natAbs_mul, Int.natAbs_natCast]
  rw [isWhole, hmantissa, Nat.mul_mod_left]
  rfl

theorem negative_of_toRat_lt (h : d.toRat < 0) : d.negative = true := by
  rw [toRat_eq_withSign, withSign] at h
  by_contra hnegative
  rw [if_neg hnegative] at h
  have : (0 : ℚ) ≤ d.mantissa / tenTo d.scale := by positivity
  linarith

theorem negative_of_lt_toRat (h : 0 < d.toRat) : d.negative = false := by
  rw [toRat_eq_withSign, withSign] at h
  by_contra hnegative
  rw [if_pos (by simpa using hnegative)] at h
  have : (0 : ℚ) ≤ d.mantissa / tenTo d.scale := by positivity
  linarith

theorem ofInt?_toInt (v : Value) : ofInt? v.toInt = some (ofValue v) := by
  have hrange := (ofValue v).mantissa_lt
  have hnegative : (decide (v.toInt < 0) && v.toInt.natAbs != 0) = decide (v.toInt < 0) := by
    by_cases hv : v.toInt < 0
    · have : v.toInt.natAbs ≠ 0 := by omega
      simp [this]
    · simp [hv]
  simp only [ofValue] at hrange
  simp [ofInt?, ofParts?, ofSigned?, ofValue, hrange, hnegative]

/-- An integer is a decimal number if its magnitude fits. -/
theorem isSome_ofInt?_iff {n : ℤ} : (ofInt? n).isSome = true ↔ n.natAbs < mantissaBound := by
  unfold ofInt? ofParts? ofSigned?
  by_cases hn : n.natAbs < mantissaBound <;> simp [hn]

theorem ofInt?_eq_none_iff {n : ℤ} : ofInt? n = none ↔ mantissaBound ≤ n.natAbs := by
  rw [← Option.not_isSome_iff_eq_none, isSome_ofInt?_iff, Nat.not_lt]

theorem toRat_of_ofInt? {n : ℤ} (h : ofInt? n = some d) : d.toRat = n := by
  obtain ⟨hscale, hsigned⟩ := signed_of_ofInt? h
  rw [toRat, hscale, hsigned]
  simp [tenTo]

/-- The form of an integer without digits after the point. -/
theorem parts_of_ofInt? {n : ℤ} (h : ofInt? n = some d) :
    d.negative = decide (n < 0) ∧ d.mantissa = n.natAbs ∧ d.scale = 0 := by
  unfold ofInt? ofParts? ofSigned? at h
  split at h
  · cases h
    refine ⟨?_, rfl, rfl⟩
    by_cases hn : n < 0
    · have : n.natAbs ≠ 0 := by omega
      simp [hn, this]
    · simp [hn]
  · cases h

/-- A product of integers is exact, or does not fit. -/
theorem mul?_of_ofInt? {m n : ℤ} (ha : ofInt? m = some a) (hb : ofInt? n = some b) :
    a.mul? b = ofInt? (m * n) := by
  obtain ⟨hneg, hmantissa, hscale⟩ := parts_of_ofInt? ha
  obtain ⟨hneg', hmantissa', hscale'⟩ := parts_of_ofInt? hb
  have hvanishes : a.vanishes b = false := by simp [vanishes, hscale, hscale']
  have hproduct : (m * n).natAbs = m.natAbs * n.natAbs := Int.natAbs_mul m n
  unfold mul?
  rw [hvanishes, Bool.or_false]
  by_cases hzero : a.isZero = true ∨ b.isZero = true
  · rw [if_pos (by simpa using hzero)]
    have hmn : m * n = 0 := by
      rw [isZero_eq_true_iff, isZero_eq_true_iff, hmantissa, hmantissa'] at hzero
      rcases hzero with h | h
      · rw [Int.natAbs_eq_zero.1 h, zero_mul]
      · rw [Int.natAbs_eq_zero.1 h, mul_zero]
    rw [hmn]
    decide
  · rw [if_neg (by simpa using hzero), hscale, hscale', Nat.add_zero, fit_zero_scale, hmantissa, hmantissa', ← hproduct]
    rw [isZero_eq_true_iff, isZero_eq_true_iff, hmantissa, hmantissa', Int.natAbs_eq_zero, Int.natAbs_eq_zero,
      not_or] at hzero
    rw [hneg, hneg', bne_neg_eq hzero.1 hzero.2, ofInt?]

/-! ### The nearest decimal number -/

theorem parts_of_ofParts? {negative : Bool} {m s : Nat} (h : ofParts? negative m s = some d) :
    d.negative = (negative && m != 0) ∧ d.mantissa = m ∧ d.scale = s := by
  unfold ofParts? ofSigned? at h
  split at h
  · cases h
    exact ⟨rfl, rfl, rfl⟩
  · cases h

theorem toRat_of_ofParts? {negative : Bool} {m s : Nat} (h : ofParts? negative m s = some d) :
    d.toRat = withSign negative (m / tenTo s) ∧ d.scale = s := by
  obtain ⟨hnegative, hmantissa, hscale⟩ := parts_of_ofParts? h
  refine ⟨?_, hscale⟩
  rw [toRat_eq_withSign, hnegative, hmantissa, hscale]
  by_cases hm : m = 0
  · simp [hm, withSign]
  · rw [bne_iff_ne.2 hm, Bool.and_true]

theorem ofParts?_eq_none_iff {negative : Bool} {m s : Nat} (hs : s ≤ 28) :
    ofParts? negative m s = none ↔ mantissaBound ≤ m := by
  unfold ofParts? ofSigned?
  by_cases hm : m < mantissaBound
  · simp [hm, hs]
  · simp [hm, Nat.not_lt.1 hm]

/-- What fitting a number to the range leaves: nothing if its integer part does not fit, or else the first form that
fits. -/
theorem fit_cases (negative : Bool) (m s : Nat) :
    (fit negative m s = none ∧ mantissaBound ≤ halfEven m (tenTo s)) ∨
      ∃ k ≤ s, ∃ d, fit negative m s = some d ∧ ofParts? negative (halfEven m (tenTo k)) (s - k) = some d ∧
        s - 28 ≤ k ∧ (k = s - 28 ∨ mantissaBound ≤ halfEven m (tenTo (k - 1))) := by
  unfold fit
  rcases findSome?_range_cases (fun k => ofParts? negative (halfEven m (tenTo k)) (s - k)) (s + 1) with
    ⟨hnone, hall⟩ | ⟨k, hk, hfound, hsome, hbefore⟩
  · left
    refine ⟨hnone, (ofParts?_eq_none_iff ?_).1 (hall s (Nat.lt_succ_self s))⟩
    rw [Nat.sub_self]
    exact Nat.zero_le 28
  · right
    obtain ⟨d, hd⟩ := Option.isSome_iff_exists.1 hsome
    obtain ⟨-, -, hscale⟩ := parts_of_ofParts? hd
    have hplaces := d.scale_le
    refine ⟨k, Nat.le_of_lt_succ hk, d, hfound.trans hd, hd, by omega, ?_⟩
    by_cases hfirst : k = s - 28
    · exact .inl hfirst
    · right
      have hprevious := hbefore (k - 1) (by omega)
      exact (ofParts?_eq_none_iff (by omega)).1 hprevious

/-- The nearest decimal number to a rational number: no digit has been lost, or no further digit would fit. -/
structure IsNearest (d : Decimal) (q : ℚ) : Prop where
  near : |q - d.toRat| ≤ 1 / 2 / tenTo d.scale
  full : d.toRat = q ∨ mantissaBound - 1 / 2 ≤ 10 * |q| * tenTo d.scale

theorem isNearest_self (d : Decimal) : d.IsNearest d.toRat where
  near := by
    have hpos := tenTo_cast_pos d.scale
    rw [sub_self, abs_zero]
    positivity
  full := .inl rfl

theorem IsNearest.abs_sub_le {q : ℚ} (h : d.IsNearest q) : |q - d.toRat| ≤ 1 / 2 := by
  have hone : (1 : ℚ) ≤ tenTo d.scale := by exact_mod_cast tenTo_pos d.scale
  exact h.near.trans (div_le_self (by norm_num) hone)

/-- A number is fitted without loss if its digits fit, and to the nearest number otherwise. -/
theorem isNearest_fit (negative : Bool) (m : Nat) {s : Nat} (hs : s ≤ 28) :
    (fit negative m s = none ∧ mantissaBound - 1 / 2 ≤ |withSign negative (m / tenTo s)|) ∨
      ∃ d, fit negative m s = some d ∧ d.IsNearest (withSign negative (m / tenTo s)) ∧
        (m < mantissaBound → d.toRat = withSign negative (m / tenTo s)) := by
  have hpos := tenTo_cast_pos s
  have hmagnitude : |withSign negative (m / tenTo s)| = m / tenTo s := by
    rw [abs_withSign, abs_of_nonneg (by positivity)]
  rcases fit_cases negative m s with ⟨hnone, hlarge⟩ | ⟨k, hk, d, hd, hparts, -, hfull⟩
  · left
    rw [hmagnitude]
    exact ⟨hnone, sub_half_le_of_le_halfEven (tenTo_pos s) hlarge⟩
  right
  obtain ⟨hrat, hscale⟩ := toRat_of_ofParts? hparts
  rw [Nat.sub_eq_zero_of_le hs] at hfull
  have hposk := tenTo_cast_pos k
  have hposd := tenTo_cast_pos (s - k)
  have hquotient : (m / tenTo s : ℚ) = m / tenTo k / tenTo (s - k) := by
    rw [div_div, ← Nat.cast_mul, tenTo_mul_tenTo_sub hk]
  have hlossless : k = 0 → d.toRat = withSign negative (m / tenTo s) := by
    rintro rfl
    have hone : halfEven m (tenTo 0) = m := by simp [halfEven, tenTo, Nat.mod_one]
    rw [hrat, hone, Nat.sub_zero]
  refine ⟨d, hd, ⟨?near, ?full⟩, fun hsmall => ?exact⟩
  case near =>
    rw [hrat, abs_withSign_sub, hquotient, ← sub_div, abs_div, abs_of_pos hposd, hscale]
    exact div_le_div_of_nonneg_right (abs_sub_halfEven_le m (tenTo_pos k)) hposd.le
  case full =>
    by_cases hzero : k = 0
    · exact .inl (hlossless hzero)
    -- one digit more would not have fitted
    right
    have hten : (m / tenTo (k - 1) : ℚ) = 10 * (m / tenTo k) := by
      obtain ⟨j, rfl⟩ := Nat.exists_eq_succ_of_ne_zero hzero
      rw [Nat.succ_sub_one, Nat.succ_eq_add_one, tenTo_succ]
      push_cast
      field_simp
    rw [hmagnitude, hscale, hquotient, mul_assoc, div_mul_cancel₀ _ hposd.ne', ← hten]
    exact sub_half_le_of_le_halfEven (tenTo_pos _) (hfull.resolve_left hzero)
  case exact =>
    apply hlossless
    by_contra hzero
    have hlarge := hfull.resolve_left hzero
    have hle := halfEven_le m (tenTo_pos (k - 1))
    omega

/-- The product of a value and a decimal number is the nearest decimal number, or its integer part does not fit. -/
theorem mul?_ofValue_cases (v : Value) (factor : Decimal) :
    ((ofValue v).mul? factor = none ∧ mantissaBound - 1 / 2 ≤ |v.toInt * factor.toRat|) ∨
      ∃ product, (ofValue v).mul? factor = some product ∧ product.IsNearest (v.toInt * factor.toRat) ∧
        (v.toInt.natAbs * factor.mantissa < mantissaBound → product.toRat = v.toInt * factor.toRat) := by
  have hscale : (ofValue v).scale + factor.scale = factor.scale := Nat.zero_add _
  have hmantissa : (ofValue v).mantissa = v.toInt.natAbs := rfl
  have hvanishes : (ofValue v).vanishes factor = false := by
    have := factor.scale_le
    simp only [vanishes, hscale, Bool.and_eq_false_iff, decide_eq_false_iff_not]
    omega
  have hproduct : (v.toInt * factor.toRat : ℚ) = withSign ((ofValue v).negative != factor.negative)
      ((v.toInt.natAbs * factor.mantissa : Nat) / tenTo factor.scale) := by
    have hone : (tenTo (ofValue v).scale : ℚ) = 1 := by simp [ofValue, tenTo]
    rw [← toRat_ofValue, toRat_eq_withSign, toRat_eq_withSign, ← withSign_mul, hone, div_one, ← mul_div_assoc,
      Nat.cast_mul, hmantissa]
  unfold mul?
  rw [hvanishes, Bool.or_false]
  by_cases hzero : (ofValue v).isZero = true ∨ factor.isZero = true
  · rw [if_pos (by simpa using hzero)]
    have hnothing : (v.toInt * factor.toRat : ℚ) = zero.toRat := by
      rw [isZero_eq_true_iff, isZero_eq_true_iff, hmantissa] at hzero
      rw [hproduct, Nat.mul_eq_zero.2 hzero, toRat_eq_withSign]
      simp [withSign, zero]
    rw [hnothing]
    exact .inr ⟨zero, rfl, isNearest_self zero, fun _ => rfl⟩
  · rw [if_neg (by simpa using hzero), hscale, hmantissa, hproduct]
    exact isNearest_fit _ _ factor.scale_le

/-- The reciprocal of an integer, to 28 digits after the point. -/
theorem exists_reciprocal {n : ℤ} (hn : n ≠ 0) (hd : ofInt? n = some d) :
    ∃ q, one.div? d = some q ∧ q.toRat = withSign (n < 0) (halfEven (tenTo 28) n.natAbs / tenTo 28) := by
  obtain ⟨hnegative, hmantissa, hscale⟩ := parts_of_ofInt? hd
  have hpos : 1 ≤ n.natAbs := Int.natAbs_pos.2 hn
  have hnonzero : d.isZero = false := by
    have : ¬d.isZero = true := by
      rw [isZero_eq_true_iff, hmantissa]
      omega
    simpa using this
  -- the quotient is at most one, so all 28 digits fit
  have hfits : halfEven (tenTo 28) n.natAbs < mantissaBound := by
    have hle : tenTo 28 / n.natAbs ≤ tenTo 28 := Nat.div_le_self _ _
    have hlt : tenTo 28 + 1 < mantissaBound := by decide
    unfold halfEven
    dsimp only
    split <;> omega
  have hfirst : ofParts? (one.negative != d.negative)
      (halfEven (one.mantissa * tenTo (d.scale + (28 - 0))) (d.mantissa * tenTo one.scale)) (28 - 0) =
      ofParts? (n < 0) (halfEven (tenTo 28) n.natAbs) 28 := by
    rw [hnegative, hmantissa, hscale]
    simp [one, tenTo]
  have hsome : (ofParts? (n < 0) (halfEven (tenTo 28) n.natAbs) 28).isSome = true := by
    rw [Option.isSome_iff_ne_none, Ne, ofParts?_eq_none_iff (Nat.le_refl 28)]
    exact Nat.not_le.2 hfits
  obtain ⟨q, hq⟩ := Option.isSome_iff_exists.1 hsome
  refine ⟨q, ?_, (toRat_of_ofParts? hq).1⟩
  have hone : one.isZero = false := rfl
  rw [div?, hnonzero, hone, if_neg Bool.false_ne_true, if_neg Bool.false_ne_true, List.range_succ_eq_map,
    List.findSome?_cons, hfirst, hq]

end Decimal

end DiceTally
