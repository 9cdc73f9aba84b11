import DiceTally.Proofs.Decimal.Sign

/-!
# The order of decimal numbers

Decimal numbers are ordered like the rational numbers that they stand for.  Rounding keeps this order: a decimal number
that is not above a rational number is not above its nearest decimal number either (`IsNearest.le_of_le`).  So a sum of
numbers that are not negative is not below any of them (`le_addSaturating_left`, `le_addSaturating_right`).
-/

namespace DiceTally

namespace Decimal

variable {a b d x : Decimal} {q : ℚ}

theorem toRat_eq_units (d : Decimal) : d.toRat = d.units / tenTo 28 := by
  have hscale := tenTo_mul_tenTo_sub d.scale_le
  have hpos := tenTo_cast_pos (28 - d.scale)
  rw [toRat, units, ← hscale]
  push_cast
  exact (mul_div_mul_right _ _ hpos.ne').symm

theorem toRat_lt_iff : a.toRat < b.toRat ↔ a.units < b.units := by
  rw [toRat_eq_units, toRat_eq_units, div_lt_div_iff_of_pos_right (tenTo_cast_pos 28), Int.cast_lt]

theorem isBelowZero_eq_false_iff : d.isBelowZero = false ↔ 0 ≤ d.toRat := by
  rw [isBelowZero, decide_eq_false_iff_not, not_lt, toRat_eq_units, le_div_iff₀ (tenTo_cast_pos 28), zero_mul,
    Int.cast_nonneg_iff]

theorem isZero_iff_toRat : d.isZero = true ↔ d.toRat = 0 := by
  rw [isZero_eq_true_iff, ← natAbs_signed, Int.natAbs_eq_zero, toRat, div_eq_zero_iff,
    or_iff_left (tenTo_cast_pos d.scale).ne', Int.cast_eq_zero]

/-- Of the numbers that are not negative only a zero may have a sign. -/
theorem unsigned_of_nonneg (h : 0 ≤ d.toRat) (hzero : ¬d.isZero = true) : d.Unsigned :=
  negative_of_lt_toRat (lt_of_le_of_ne h fun heq => hzero (isZero_iff_toRat.2 heq.symm))

theorem toRat_le_max (d : Decimal) : d.toRat ≤ max.toRat := by
  have hmax : max.toRat = (mantissaBound - 1 : ℕ) := by
    rw [unsigned_max.toRat_eq]
    simp [max, tenTo]
  have hle : d.toRat ≤ d.mantissa := by
    have hone : (1 : ℚ) ≤ tenTo d.scale := by exact_mod_cast tenTo_pos d.scale
    refine (le_abs_self _).trans ?_
    rw [toRat_eq_withSign, abs_withSign, abs_of_nonneg (by positivity)]
    exact div_le_self (Nat.cast_nonneg _) hone
  have hlt : (d.mantissa : ℚ) ≤ (mantissaBound - 1 : ℕ) := by exact_mod_cast Nat.le_sub_one_of_lt d.mantissa_lt
  rw [hmax]
  exact hle.trans hlt

/-! ### Rounding keeps the order -/

/-- With as many digits after the point as a number has or more, it is an integer number of units. -/
theorem exists_toRat_mul_eq {s : Nat} (h : d.scale ≤ s) : ∃ n : ℤ, d.toRat * tenTo s = n := by
  refine ⟨d.signed * tenTo (s - d.scale), ?_⟩
  have hpos := tenTo_cast_pos d.scale
  rw [toRat, ← tenTo_mul_tenTo_sub h]
  push_cast
  field_simp

/-- What is moved by at most half a unit does not pass an integer number of units. -/
theorem le_of_near {p : ℚ} {s : Nat} (hnear : |q - d.toRat| ≤ 1 / 2 / tenTo s) (hd : ∃ n : ℤ, d.toRat * tenTo s = n)
    (hp : ∃ n : ℤ, p * tenTo s = n) : (p ≤ q → p ≤ d.toRat) ∧ (q ≤ p → d.toRat ≤ p) := by
  have hpos := tenTo_cast_pos s
  obtain ⟨m, hm⟩ := hd
  obtain ⟨n, hn⟩ := hp
  have hmoved : |q * tenTo s - m| ≤ 1 / 2 := by
    rw [le_div_iff₀ hpos] at hnear
    rwa [← hm, ← sub_mul, abs_mul, abs_of_pos hpos]
  obtain ⟨hlow, hhigh⟩ := abs_le.1 hmoved
  have hinteger {i j : ℤ} (h : (i : ℚ) < j + 1) : (i : ℚ) ≤ j := by
    exact_mod_cast Int.lt_add_one_iff.1 (by exact_mod_cast h)
  constructor <;> intro h <;> have hscaled := mul_le_mul_of_nonneg_right h hpos.le <;> rw [hn] at hscaled <;>
    refine le_of_mul_le_mul_right ?_ hpos <;> rw [hn, hm]
  · exact hinteger (by linarith)
  · exact hinteger (by linarith)

/-- Rounding does not pass a natural number. -/
theorem le_natCast_of_near (hnear : |q - d.toRat| ≤ 1 / 2 / tenTo d.scale) (n : ℕ) :
    (n ≤ q → n ≤ d.toRat) ∧ (q ≤ n → d.toRat ≤ n) :=
  le_of_near hnear (exists_toRat_mul_eq le_rfl) ⟨n * tenTo d.scale, by push_cast; rfl⟩

/-- Rounding to the nearest decimal number does not pass a decimal number below. -/
theorem IsNearest.le_of_le (h : d.IsNearest q) (hx : 0 ≤ x.toRat) (hle : x.toRat ≤ q) : x.toRat ≤ d.toRat := by
  rcases h.full with heq | hfull
  · rw [heq]
    exact hle
  have hd := exists_toRat_mul_eq (le_refl d.scale)
  by_cases hscale : x.scale ≤ d.scale
  · exact (le_of_near h.near hd (exists_toRat_mul_eq hscale)).1 hle
  -- all mantissas with one digit more are smaller than that of the nearest number
  have hpos := tenTo_cast_pos d.scale
  have hpos' := tenTo_cast_pos x.scale
  have hsmall : 10 * (x.toRat * tenTo d.scale) ≤ mantissaBound - 1 := by
    have hdigit : 10 * (tenTo d.scale : ℚ) ≤ tenTo x.scale := by
      rw [← Nat.cast_ofNat, ← Nat.cast_mul, ← tenTo_succ]
      exact_mod_cast Nat.pow_le_pow_right (by decide) (not_le.1 hscale)
    have hmantissa : x.toRat * tenTo x.scale ≤ mantissaBound - 1 := by
      have hsigned : x.signed ≤ mantissaBound - 1 := by
        have hlt := x.mantissa_lt
        have habs := natAbs_signed x
        omega
      rw [toRat, div_mul_cancel₀ _ hpos'.ne']
      exact_mod_cast hsigned
    calc 10 * (x.toRat * tenTo d.scale) = x.toRat * (10 * tenTo d.scale) := by ring
      _ ≤ x.toRat * tenTo x.scale := mul_le_mul_of_nonneg_left hdigit hx
      _ ≤ mantissaBound - 1 := hmantissa
  obtain ⟨m, hm⟩ := hd
  have hlow : q * tenTo d.scale - 1 / 2 ≤ m := by
    have hnear := (abs_le.1 h.near).2
    rw [le_div_iff₀ hpos, sub_mul, hm] at hnear
    linarith
  rw [abs_of_nonneg (hx.trans hle)] at hfull
  have hbound : (mantissaBound : ℚ) = 79228162514264337593543950336 := by norm_num [mantissaBound]
  rw [hbound] at hfull hsmall
  have hlarge : (7922816251426433759354395033 : ℚ) < m := by linarith
  have hnext : (7922816251426433759354395034 : ℤ) ≤ m := by exact_mod_cast hlarge
  have hnext' : (7922816251426433759354395034 : ℚ) ≤ m := by exact_mod_cast hnext
  refine le_of_mul_le_mul_right ?_ hpos
  rw [hm]
  linarith

/-! ### Sums -/

/-- A sum of numbers that are not negative is the nearest number, or the largest number where it is out of range. -/
theorem addSaturating_cases (ha : 0 ≤ a.toRat) (hb : 0 ≤ b.toRat) :
    a.addSaturating b = max ∨ (a.addSaturating b).IsNearest (a.toRat + b.toRat) := by
  unfold addSaturating add?
  by_cases hazero : a.isZero = true
  · right
    rw [if_pos hazero, Option.getD_some, isZero_iff_toRat.1 hazero, zero_add]
    exact isNearest_self b
  by_cases hbzero : b.isZero = true
  · right
    rw [if_neg hazero, if_pos hbzero, Option.getD_some, isZero_iff_toRat.1 hbzero, add_zero]
    exact isNearest_self a
  rw [if_neg hazero, if_neg hbzero]
  dsimp only
  have hle : Nat.max a.scale b.scale ≤ 28 := Nat.max_le.2 ⟨a.scale_le, b.scale_le⟩
  have hpos := tenTo_cast_pos (Nat.max a.scale b.scale)
  have hshift {c : Decimal} (hc : c.Unsigned) (hscale : c.scale ≤ Nat.max a.scale b.scale) :
      c.signed * tenTo (Nat.max a.scale b.scale - c.scale) =
          (c.mantissa * tenTo (Nat.max a.scale b.scale - c.scale) : ℕ) ∧
        ((c.mantissa * tenTo (Nat.max a.scale b.scale - c.scale) : ℕ) : ℚ) =
          c.toRat * tenTo (Nat.max a.scale b.scale) := by
    have hcpos := tenTo_cast_pos c.scale
    refine ⟨by rw [signed, hc, if_neg Bool.false_ne_true, Nat.cast_mul], ?_⟩
    rw [hc.toRat_eq, ← tenTo_mul_tenTo_sub hscale]
    push_cast
    field_simp
  obtain ⟨hasigned, harat⟩ := hshift (unsigned_of_nonneg ha hazero) (Nat.le_max_left ..)
  obtain ⟨hbsigned, hbrat⟩ := hshift (unsigned_of_nonneg hb hbzero) (Nat.le_max_right ..)
  rw [hasigned, hbsigned, ← Nat.cast_add, Int.natAbs_natCast, decide_eq_false (Int.natCast_nonneg _).not_gt]
  have hsum : withSign false ((a.mantissa * tenTo (Nat.max a.scale b.scale - a.scale) +
      b.mantissa * tenTo (Nat.max a.scale b.scale - b.scale) : ℕ) / tenTo (Nat.max a.scale b.scale)) =
      a.toRat + b.toRat := by
    rw [withSign, if_neg Bool.false_ne_true, Nat.cast_add, harat, hbrat, ← add_mul, mul_div_cancel_right₀ _ hpos.ne']
  rcases isNearest_fit false (a.mantissa * tenTo (Nat.max a.scale b.scale - a.scale) +
      b.mantissa * tenTo (Nat.max a.scale b.scale - b.scale)) hle with ⟨hnone, -⟩ | ⟨d, hd, hnearest, -⟩
  · left
    rw [hnone, Option.getD_none]
  · right
    rw [hsum] at hnearest
    rw [hd, Option.getD_some]
    exact hnearest

/-- A sum is not below its first number. -/
theorem le_addSaturating_left (ha : 0 ≤ a.toRat) (hb : 0 ≤ b.toRat) : a.toRat ≤ (a.addSaturating b).toRat := by
  rcases addSaturating_cases ha hb with h | h
  · rw [h]
    exact a.toRat_le_max
  · exact h.le_of_le ha (le_add_of_nonneg_right hb)

/-- A sum is not below its second number. -/
theorem le_addSaturating_right (ha : 0 ≤ a.toRat) (hb : 0 ≤ b.toRat) : b.toRat ≤ (a.addSaturating b).toRat := by
  rcases addSaturating_cases ha hb with h | h
  · rw [h]
    exact b.toRat_le_max
  · exact h.le_of_le hb (le_add_of_nonneg_left ha)

/-- A running sum is not below what it starts with, and not below any number on the way. -/
theorem le_foldl_addSaturating {weights : List Decimal} (ha : 0 ≤ a.toRat) (h : ∀ w ∈ weights, 0 ≤ w.toRat) :
    a.toRat ≤ (weights.foldl addSaturating a).toRat ∧
      ∀ w ∈ weights, w.toRat ≤ (weights.foldl addSaturating a).toRat := by
  induction weights generalizing a with
  | nil => simp
  | cons w weights ih =>
    obtain ⟨hw, hweights⟩ := List.forall_mem_cons.1 h
    have hstep := le_addSaturating_left ha hw
    obtain ⟨hstart, hrest⟩ := ih (ha.trans hstep) hweights
    rw [List.foldl_cons, List.forall_mem_cons]
    exact ⟨hstep.trans hstart, (le_addSaturating_right ha hw).trans hstart, hrest⟩

end Decimal

end DiceTally
