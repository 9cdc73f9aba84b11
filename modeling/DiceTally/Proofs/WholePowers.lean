import DiceTally.Proofs.Scaling
import Mathlib.Algebra.Order.Group.Unbundled.Int
import Mathlib.Algebra.Ring.Parity
import Mathlib.Data.Nat.Log

/-!
# Powers with whole exponents

A value to a whole power is computed by squaring.  The loop never makes a number that is larger than its result, so it
has the exact power, or none if this is too large for a decimal number (`powerBySquaring_of_ofInt?`).  Exponents that
are no values are only of interest for the bases 0, 1 and -1, for which one with the same sign and parity will do
(`power_cases`).  Hence powers with a natural exponent are exact, or overflow (`power_eq_checked_pow`).
-/

namespace DiceTally

/-! ### The loop -/

/-- A divisor of a number that fits does so too. -/
theorem isSome_ofInt?_of_dvd {m n : ℤ} (hdvd : m ∣ n) (hzero : n = 0 → m = 0)
    (hn : (Decimal.ofInt? n).isSome = true) : (Decimal.ofInt? m).isSome = true := by
  rw [Decimal.isSome_ofInt?_iff] at hn ⊢
  by_cases h : n = 0
  · rw [hzero h]
    decide
  · have hle : m.natAbs ≤ n.natAbs := Nat.le_of_dvd (Int.natAbs_pos.2 h) (Int.natAbs_dvd_natAbs.2 hdvd)
    omega

/-- A round of the loop: the result takes the square where the exponent is odd, and the square is squared for the next
round. -/
theorem powerBySquaring_round (result square : Decimal) {n : ℕ} (hn : n ≠ 0) :
    powerBySquaring result square n =
      (if n % 2 = 1 then result.mul? square else some result).bind fun next =>
        if n / 2 = 0 then some next
        else (square.mul? square).bind fun squared => powerBySquaring next squared (n / 2) := by
  rw [powerBySquaring, dif_neg hn]
  by_cases hodd : n % 2 = 1
  · simp only [if_pos hodd]
    rfl
  · simp only [if_neg hodd]
    rfl

/-- What a round of the loop leaves stands for the same power. -/
theorem round_power_eq (r s : ℤ) (n : ℕ) : r * s ^ (n % 2) * (s * s) ^ (n / 2) = r * s ^ n := by
  rw [mul_assoc, ← pow_two, ← pow_mul, ← pow_add, Nat.mod_add_div]

section Loop

variable {r s : ℤ} {result square : Decimal}

theorem round_result_eq (hresult : Decimal.ofInt? r = some result) (hsquare : Decimal.ofInt? s = some square) (n : ℕ) :
    (if n % 2 = 1 then result.mul? square else some result) = Decimal.ofInt? (r * s ^ (n % 2)) := by
  rcases Nat.mod_two_eq_zero_or_one n with hn | hn
  · rw [hn, if_neg (by decide), pow_zero, mul_one, hresult]
  · rw [hn, if_pos rfl, pow_one, Decimal.mul?_of_ofInt? hresult hsquare]

/-- If the power fits, so does the result of a round. -/
theorem isSome_round_result (hresult : Decimal.ofInt? r = some result) {n : ℕ} (hn : n ≠ 0)
    (hpower : (Decimal.ofInt? (r * s ^ n)).isSome = true) :
    (Decimal.ofInt? (r * s ^ (n % 2))).isSome = true := by
  rcases Nat.mod_two_eq_zero_or_one n with hmod | hmod
  · rw [hmod, pow_zero, mul_one, hresult]
    rfl
  · rw [hmod, pow_one]
    refine isSome_ofInt?_of_dvd (mul_dvd_mul_left r (dvd_pow_self s hn)) (fun hzero => ?_) hpower
    rcases mul_eq_zero.1 hzero with h | h
    · rw [h, zero_mul]
    · rw [eq_zero_of_pow_eq_zero h, mul_zero]

/-- If the power fits, so does the square that is made for the next round. -/
theorem isSome_round_square (hzero : s = 0 ∨ r ≠ 0) {n : ℕ} (hn : n / 2 ≠ 0)
    (hpower : (Decimal.ofInt? (r * s ^ n)).isSome = true) : (Decimal.ofInt? (s * s)).isSome = true := by
  rw [← round_power_eq] at hpower
  refine isSome_ofInt?_of_dvd (Dvd.dvd.mul_left (dvd_pow_self _ hn) _) (fun hvanishes => ?_) hpower
  rw [round_power_eq] at hvanishes
  rcases hzero with h | h
  · rw [h, zero_mul]
  · rw [eq_zero_of_pow_eq_zero ((mul_eq_zero.1 hvanishes).resolve_left h), zero_mul]

theorem round_nonzero (hzero : s = 0 ∨ r ≠ 0) (n : ℕ) : s * s = 0 ∨ r * s ^ (n % 2) ≠ 0 := by
  by_cases hs : s = 0
  · left
    rw [hs, zero_mul]
  · right
    exact mul_ne_zero (hzero.resolve_left hs) (pow_ne_zero _ hs)

/-- The loop has the exact power, or none if the power does not fit. -/
theorem powerBySquaring_of_ofInt? (hresult : Decimal.ofInt? r = some result) (hsquare : Decimal.ofInt? s = some square)
    (hzero : s = 0 ∨ r ≠ 0) (n : ℕ) : powerBySquaring result square n = Decimal.ofInt? (r * s ^ n) := by
  induction n using Nat.strong_induction_on generalizing r s result square with
  | _ n ih =>
    by_cases hn : n = 0
    · rw [powerBySquaring, dif_pos hn, hn, pow_zero, mul_one, hresult]
    rw [powerBySquaring_round result square hn, round_result_eq hresult hsquare]
    cases hnext : Decimal.ofInt? (r * s ^ (n % 2)) with
    | none =>
      symm
      by_contra hpower
      have := isSome_round_result hresult hn (Option.isSome_iff_ne_none.2 hpower)
      simp [hnext] at this
    | some next =>
      rw [Option.bind_some]
      by_cases hlast : n / 2 = 0
      · rw [if_pos hlast, ← round_power_eq, hlast, pow_zero, mul_one, hnext]
      rw [if_neg hlast, Decimal.mul?_of_ofInt? hsquare hsquare]
      cases hsquared : Decimal.ofInt? (s * s) with
      | none =>
        symm
        by_contra hpower
        have := isSome_round_square hzero hlast (Option.isSome_iff_ne_none.2 hpower)
        simp [hsquared] at this
      | some squared =>
        rw [Option.bind_some, ih (n / 2) (by omega) hnext hsquared (round_nonzero hzero n), round_power_eq]

end Loop

/-- The loop of `powerBySquaring` with what each of its squarings makes. -/
def powerRecorded (result square : Decimal) (n : Nat) : Option Decimal × List (Option Decimal) :=
  if _h : n = 0 then (some result, [])
  else
    match if n % 2 = 1 then result.mul? square else some result with
    | none => (none, [])
    | some result =>
      if n / 2 = 0 then (some result, [])
      else
        match square.mul? square with
        | none => (none, [none])
        | some squared =>
          let (raised, made) := powerRecorded result squared (n / 2)
          (raised, some squared :: made)
termination_by n
decreasing_by exact Nat.div_lt_self (Nat.pos_of_ne_zero _h) (by decide)

theorem fst_powerRecorded (result square : Decimal) (n : Nat) :
    (powerRecorded result square n).1 = powerBySquaring result square n := by
  induction n using Nat.strong_induction_on generalizing result square with
  | _ n ih =>
    rw [powerRecorded]
    by_cases hn : n = 0
    · rw [dif_pos hn, powerBySquaring, dif_pos hn]
    rw [dif_neg hn, powerBySquaring_round result square hn]
    cases (if n % 2 = 1 then result.mul? square else some result) with
    | none => rfl
    | some next =>
      rw [Option.bind_some]
      dsimp only
      by_cases hlast : n / 2 = 0
      · rw [if_pos hlast, if_pos hlast]
      rw [if_neg hlast, if_neg hlast]
      cases square.mul? square with
      | none => rfl
      | some squared => exact ih (n / 2) (by omega) next squared

/-- If the power fits, the squarings are exact. -/
theorem snd_powerRecorded {r s : ℤ} {result square : Decimal} (hresult : Decimal.ofInt? r = some result)
    (hsquare : Decimal.ofInt? s = some square) (hzero : s = 0 ∨ r ≠ 0) {n : ℕ}
    (hpower : (Decimal.ofInt? (r * s ^ n)).isSome = true) :
    (powerRecorded result square n).2 = (List.range (Nat.log 2 n)).map fun k => Decimal.ofInt? (s ^ 2 ^ (k + 1)) := by
  induction n using Nat.strong_induction_on generalizing r s result square with
  | _ n ih =>
    rw [powerRecorded]
    by_cases hn : n = 0
    · rw [dif_pos hn, hn]
      rfl
    rw [dif_neg hn, round_result_eq hresult hsquare]
    obtain ⟨next, hnext⟩ := Option.isSome_iff_exists.1 (isSome_round_result hresult hn hpower)
    rw [hnext]
    dsimp only
    by_cases hlast : n / 2 = 0
    · have hone : n = 1 := by omega
      rw [if_pos hlast, hone]
      rfl
    rw [if_neg hlast, Decimal.mul?_of_ofInt? hsquare hsquare]
    obtain ⟨squared, hsquared⟩ := Option.isSome_iff_exists.1 (isSome_round_square hzero hlast hpower)
    rw [← round_power_eq] at hpower
    rw [hsquared]
    dsimp only
    rw [ih (n / 2) (by omega) hnext hsquared (round_nonzero hzero n) hpower,
      Nat.log_of_one_lt_of_le (by decide) (by omega : 2 ≤ n), List.range_succ_eq_map, List.map_cons, List.map_map]
    congr 1
    · rw [zero_add, pow_one, pow_two, hsquared]
    · refine List.map_congr_left fun k _ => ?_
      rw [Function.comp_apply, Nat.succ_eq_add_one, ← pow_two, ← pow_mul, ← pow_succ']

/-! ### Exponents -/

theorem ofInt?_one : Decimal.ofInt? 1 = some .one := by decide

/-- The loop for a value starts with one and the value. -/
theorem powerBySquaring_ofValue (base : Value) (n : ℕ) :
    powerBySquaring .one (.ofValue base) n = Decimal.ofInt? (base.toInt ^ n) := by
  rw [powerBySquaring_of_ofInt? ofInt?_one (Decimal.ofInt?_toInt base) (.inr one_ne_zero), one_mul]

theorem integralPower_of_nonneg (base : Value) {k : ℤ} (hk : 0 ≤ k) :
    integralPower (.ofValue base) k =
      match Decimal.ofInt? (base.toInt ^ k.natAbs) with
      | some d => .ok d
      | none => .error (.overflow "exp") := by
  have hk' : ¬k < 0 := not_lt.2 hk
  unfold integralPower
  rw [if_neg (fun h => hk' h.1), powerBySquaring_ofValue]
  dsimp only
  cases Decimal.ofInt? (base.toInt ^ k.natAbs) with
  | some d => simp only [if_neg hk']
  | none => simp only [if_neg hk']

theorem integralPower_of_neg {base : Value} (hbase : base ≠ 0) {k : ℤ} (hk : k < 0) :
    integralPower (.ofValue base) k =
      match (Decimal.ofInt? (base.toInt ^ k.natAbs)).bind Decimal.one.div? with
      | some d => .ok d
      | none => .error (.overflow "exp") := by
  have hzero : (Decimal.ofValue base).isZero ≠ true := by
    rw [Ne, Decimal.isZero_eq_true_iff]
    exact Int.natAbs_ne_zero.2 (Value.toInt_ne_zero hbase)
  unfold integralPower
  rw [if_neg (fun h => hzero h.2), powerBySquaring_ofValue]
  dsimp only
  cases (Decimal.ofInt? (base.toInt ^ k.natAbs)).bind Decimal.one.div? with
  | some d => simp only [if_pos hk]
  | none => simp only [if_pos hk]

theorem isUnitOrZero_ofValue (base : Value) :
    isUnitOrZero (.ofValue base) = decide (base.toInt.natAbs ≤ 1) := by
  rw [isUnitOrZero, Decimal.isWhole_ofValue, Bool.true_and, Decimal.toInt_of_toRat (Decimal.toRat_ofValue base)]

/-- The reduced exponent has the sign and the parity of the exponent. -/
theorem reducedExponent_of_toRat {exponent : Decimal} {z : ℤ} (hz : exponent.toRat = z) (hzero : z ≠ 0) :
    reducedExponent exponent ≠ 0 ∧ (reducedExponent exponent < 0 ↔ z < 0) ∧ reducedExponent exponent % 2 = z % 2 := by
  unfold reducedExponent
  rw [Decimal.toInt_of_toRat hz]
  rcases lt_or_gt_of_ne hzero with hneg | hpos
  · have : exponent.negative = true := Decimal.negative_of_toRat_lt (by rw [hz]; exact_mod_cast hneg)
    rw [if_pos this]
    split <;> omega
  · have : exponent.negative = false := Decimal.negative_of_lt_toRat (by rw [hz]; exact_mod_cast hpos)
    rw [if_neg (by simp [this])]
    split <;> omega

/-- The powers of 0, 1 and -1 depend on the parity of the exponent only, and on whether it is zero. -/
theorem pow_natAbs_congr {b k z : ℤ} (hb : b.natAbs ≤ 1) (hk : k ≠ 0) (hz : z ≠ 0) (hparity : k % 2 = z % 2) :
    b ^ k.natAbs = b ^ z.natAbs := by
  have hcases : b = 0 ∨ b = 1 ∨ b = -1 := by omega
  rcases hcases with rfl | rfl | rfl
  · rw [zero_pow (Int.natAbs_ne_zero.2 hk), zero_pow (Int.natAbs_ne_zero.2 hz)]
  · rw [one_pow, one_pow]
  · have hmod : k.natAbs % 2 = z.natAbs % 2 := by omega
    rw [neg_one_pow_eq_pow_mod_two, hmod, ← neg_one_pow_eq_pow_mod_two]

/-- A power with a whole exponent is computed with this exponent, or one of the same sign that gives the same power.
Where the exponent is no value and the base has larger and larger powers there is an overflow. -/
theorem power_cases (base : Value) {exponent : Decimal} {z : ℤ} (hz : exponent.toRat = z) (mode : Rounding) :
    (∃ k : ℤ, (k < 0 ↔ z < 0) ∧ base.toInt ^ k.natAbs = base.toInt ^ z.natAbs ∧
        power (.ofValue base) exponent mode =
          (integralPower (.ofValue base) k).bind fun raised => roundToValue "exp" mode raised) ∨
      (2 ≤ base.toInt.natAbs ∧ 2 ^ 63 ≤ z.natAbs ∧
        power (.ofValue base) exponent mode = .error (.overflow "exp")) := by
  unfold power
  rw [Decimal.isWhole_of_toRat hz, Decimal.toInt_of_toRat hz, if_pos rfl]
  cases hvalue : Value.ofInt? z with
  | some n =>
    left
    rw [← Value.toInt_of_ofInt? hvalue]
    exact ⟨n.toInt, Iff.rfl, rfl, rfl⟩
  | none =>
    have hlarge : 2 ^ 63 ≤ z.natAbs := by
      by_contra hsmall
      rw [Value.ofInt?_of_range (by simp only [Value.bound]; omega) (by simp only [Value.bound]; omega)] at hvalue
      cases hvalue
    by_cases hbase : base.toInt.natAbs ≤ 1
    · left
      have hzero : z ≠ 0 := by omega
      obtain ⟨hreduced, hsign, hparity⟩ := reducedExponent_of_toRat hz hzero
      refine ⟨reducedExponent exponent, hsign, pow_natAbs_congr hbase hreduced hzero hparity, ?_⟩
      simp only [isUnitOrZero_ofValue, hbase, decide_true, if_true]
      rfl
    · right
      refine ⟨by omega, hlarge, ?_⟩
      simp only [isUnitOrZero_ofValue, hbase, decide_false, Bool.false_eq_true, if_false]
      rfl

/-! ### Natural exponents -/

theorem checked_of_large {n : ℤ} (hn : 2 ^ 63 < n.natAbs) (operation : String) :
    checked operation n = .error (.overflow operation) := by
  rcases checked_cases operation n with ⟨⟨hlow, hhigh⟩, -⟩ | ⟨-, herror⟩
  · simp only [Value.bound] at hlow hhigh
    omega
  · exact herror

/-- A base of two or more has powers that grow beyond their exponents. -/
theorem lt_natAbs_pow {b : ℤ} (hb : 2 ≤ b.natAbs) (n : ℕ) : n < (b ^ n).natAbs := by
  rw [Int.natAbs_pow]
  exact Nat.lt_of_lt_of_le Nat.lt_two_pow_self (Nat.pow_le_pow_left hb n)

/-- Where a power of a value fits, the loop makes the squares of the value, all of them exact. -/
theorem squarings_exact (base : Value) {n : ℕ} (hfits : (Decimal.ofInt? (base.toInt ^ n)).isSome = true) :
    List.Forall₂ (fun k made => ∃ d, made = some d ∧ d.toRat = (base.toInt : ℚ) ^ 2 ^ (k + 1))
      (List.range (Nat.log 2 n)) (powerRecorded .one (.ofValue base) n).2 := by
  have hpower : (Decimal.ofInt? (1 * base.toInt ^ n)).isSome = true := by rwa [one_mul]
  rw [snd_powerRecorded ofInt?_one (Decimal.ofInt?_toInt base) (.inr one_ne_zero) hpower, List.forall₂_map_right_iff,
    List.forall₂_same]
  intro k hk
  have hlog : k < Nat.log 2 n := List.mem_range.1 hk
  have hpos : n ≠ 0 := by
    rintro rfl
    exact absurd hlog (Nat.not_lt_zero k)
  have hle : 2 ^ (k + 1) ≤ n := (Nat.le_log_iff_pow_le (by decide) hpos).1 hlog
  have hsquare : (Decimal.ofInt? (base.toInt ^ 2 ^ (k + 1))).isSome = true := by
    refine isSome_ofInt?_of_dvd (pow_dvd_pow _ hle) (fun hzero => ?_) hfits
    rw [eq_zero_of_pow_eq_zero hzero, zero_pow (by positivity)]
  obtain ⟨d, hd⟩ := Option.isSome_iff_exists.1 hsquare
  refine ⟨d, hd, ?_⟩
  rw [Decimal.toRat_of_ofInt? hd, Int.cast_pow]

/-- A power with a natural exponent, however large, is the exact one if this is a value, and overflows otherwise.
Whenever the power is a value, every square that is made on the way is exact. -/
theorem power_eq_checked_pow (base : Value) {exponent : Decimal} {n : ℕ} (hn : exponent.toRat = n) (mode : Rounding) :
    power (.ofValue base) exponent mode = checked "exp" (base.toInt ^ n) ∧
      ∀ m : ℕ, (Value.ofInt? (base.toInt ^ m)).isSome = true →
        (powerRecorded .one (.ofValue base) m).1 = powerBySquaring .one (.ofValue base) m ∧
          List.Forall₂ (fun k made => ∃ d, made = some d ∧ d.toRat = (base.toInt : ℚ) ^ 2 ^ (k + 1))
            (List.range (Nat.log 2 m)) (powerRecorded .one (.ofValue base) m).2 := by
  constructor
  · have hz : exponent.toRat = (n : ℤ) := hn
    rcases power_cases base hz mode with ⟨k, hsign, hpow, hpower⟩ | ⟨hbase, hlarge, hpower⟩
    · rw [Int.natAbs_natCast] at hpow
      rw [hpower, integralPower_of_nonneg base (by omega), hpow]
      cases hfits : Decimal.ofInt? (base.toInt ^ n) with
      | some d =>
        show roundToValue "exp" mode d = _
        rw [roundToValue_eq_checked, Decimal.toRat_of_ofInt? hfits, Rounding.ofRat_intCast]
      | none =>
        have hbound := Decimal.ofInt?_eq_none_iff.1 hfits
        rw [checked_of_large (Nat.lt_of_lt_of_le (by decide) hbound)]
        rfl
    · have hgrows := lt_natAbs_pow hbase n
      rw [Int.natAbs_natCast] at hlarge
      rw [hpower, checked_of_large (Nat.lt_of_le_of_lt hlarge hgrows)]
  · intro m hvalue
    obtain ⟨v, hv⟩ := Option.isSome_iff_exists.1 hvalue
    refine ⟨fst_powerRecorded .one (.ofValue base) m, squarings_exact base ?_⟩
    rw [← Value.toInt_of_ofInt? hv, Decimal.ofInt?_toInt]
    rfl

/-- The least value is a power, and no square on the way to it is lost. -/
theorem power_eq_checked_pow_least :
    (Decimal.ofValue 63).toRat = (63 : ℕ) ∧
      power (.ofValue (-2)) (.ofValue 63) .floor = .ok (-9223372036854775808) ∧
      (Value.ofInt? ((-2 : Value).toInt ^ 63)).isSome = true ∧
      List.Forall₂ (fun k made => ∃ d, made = some d ∧ d.toRat = ((-2 : Value).toInt : ℚ) ^ 2 ^ (k + 1))
        [0, 1, 2, 3, 4] (powerRecorded .one (.ofValue (-2)) 63).2 := by
  have hexponent : (Decimal.ofValue 63).toRat = (63 : ℕ) := Decimal.toRat_ofValue 63
  have hfits : (Value.ofInt? ((-2 : Value).toInt ^ 63)).isSome = true := by decide
  obtain ⟨hpower, hsquares⟩ := power_eq_checked_pow (-2) hexponent .floor
  refine ⟨hexponent, ?_, hfits, (hsquares 63 hfits).2⟩
  rw [hpower]
  decide

end DiceTally
