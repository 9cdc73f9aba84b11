import DiceTally.Proofs.Decimal.Natural

/-!
# Whole numbers in any form

A natural number has several forms as a decimal number (`3`, `3.00`).  Its value is what the units say (`IsNat`), and
the saturating sum of natural numbers is a natural number in some form, the same one whatever their forms
(`IsNat.addSaturating`).
-/

namespace DiceTally

theorem tenTo_pos (n : Nat) : 0 < tenTo n := Nat.pow_pos (by decide)

theorem tenTo_succ (n : Nat) : tenTo (n + 1) = 10 * tenTo n := by
  unfold tenTo
  rw [Nat.pow_eq, Nat.pow_eq, Nat.pow_succ, Nat.mul_comm]

theorem tenTo_mul_tenTo_sub {k n : Nat} (h : k ≤ n) : tenTo k * tenTo (n - k) = tenTo n := by
  unfold tenTo
  rw [Nat.pow_eq, Nat.pow_eq, ← Nat.pow_add, Nat.add_sub_cancel' h]
  rfl

/-- A multiple is divided without rounding. -/
theorem halfEven_mul (n : Nat) {d : Nat} (hd : 0 < d) : halfEven (n * d) d = n := by
  simp [halfEven, Nat.mul_div_cancel n hd, Nat.ne_of_lt hd]

namespace Decimal

/-- A decimal number that is a natural number, in some form. -/
def IsNat (d : Decimal) (n : Nat) : Prop := d.units = (n * tenTo 28 : Nat)

variable {a b d : Decimal} {m n : Nat}

theorem natAbs_signed (d : Decimal) : d.signed.natAbs = d.mantissa := by
  unfold signed
  split <;> simp

/-- The value is read off the mantissa with its sign. -/
theorem isNat_iff : d.IsNat n ↔ d.signed = (n * tenTo d.scale : Nat) := by
  have hpos : (tenTo (28 - d.scale) : Int) ≠ 0 := Int.natCast_ne_zero.2 (Nat.ne_of_gt (tenTo_pos _))
  have hunit : (n * tenTo 28 : Nat) = ((n * tenTo d.scale : Nat) : Int) * tenTo (28 - d.scale) := by
    rw [← Int.natCast_mul, Nat.mul_assoc, tenTo_mul_tenTo_sub d.scale_le]
  rw [IsNat, units, hunit]
  exact Int.mul_eq_mul_right_iff hpos

theorem IsNat.mantissa_eq (h : d.IsNat n) : d.mantissa = n * tenTo d.scale := by
  rw [← natAbs_signed, isNat_iff.1 h, Int.natAbs_natCast]

theorem IsNat.lt (h : d.IsNat n) : n < mantissaBound := by
  have hle : n * 1 ≤ n * tenTo d.scale := Nat.mul_le_mul_left n (tenTo_pos _)
  have hlt := d.mantissa_lt
  rw [h.mantissa_eq] at hlt
  omega

theorem IsNat.isZero_iff (h : d.IsNat n) : d.isZero = true ↔ n = 0 := by
  rw [isZero_eq_true_iff, h.mantissa_eq, Nat.mul_eq_zero, or_iff_left (Nat.ne_of_gt (tenTo_pos _))]

theorem IsNat.toInt_eq (h : d.IsNat n) : d.toInt = n := by
  have hmagnitude : Rounding.truncate.divide d.negative d.mantissa (tenTo d.scale) = n := by
    rw [h.mantissa_eq]
    simp [Rounding.divide, Rounding.away, Nat.mul_div_cancel n (tenTo_pos _)]
  have hsigned := isNat_iff.1 h
  unfold signed at hsigned
  rw [toInt, round, hmagnitude]
  cases hnegative : d.negative with
  | false => rfl
  | true =>
    -- only a zero can have a sign
    rw [hnegative, if_pos rfl, h.mantissa_eq] at hsigned
    have hzero : n * tenTo d.scale = 0 := by omega
    obtain rfl := (Nat.mul_eq_zero.1 hzero).resolve_right (Nat.ne_of_gt (tenTo_pos _))
    rfl

theorem isNat_ofNat (h : n < mantissaBound) : (ofNat n).IsNat n := by
  rw [isNat_iff, signed_ofNat, mantissa_ofNat_of_lt h, scale_ofNat]
  simp [tenTo]

/-- Whole numbers that are not below zero are natural numbers. -/
theorem isNat_of_isWhole (hwhole : d.isWhole = true) (hsign : d.isBelowZero = false) :
    d.IsNat (d.mantissa / tenTo d.scale) := by
  have hmod : d.mantissa % tenTo d.scale = 0 := eq_of_beq hwhole
  have hnonneg : 0 ≤ d.signed := by
    have hunits : 0 ≤ d.units := Int.not_lt.1 (of_decide_eq_false hsign)
    exact Int.nonneg_of_mul_nonneg_left hunits (Int.natCast_pos.2 (tenTo_pos _))
  rw [isNat_iff, Nat.div_mul_cancel (Nat.dvd_of_mod_eq_zero hmod), ← natAbs_signed]
  exact (Int.natAbs_of_nonneg hnonneg).symm

/-- A natural number without digits after the point; a zero may have a sign. -/
structure IsNatural (d : Decimal) : Prop where
  scale_eq : d.scale = 0
  isBelowZero_eq : d.isBelowZero = false

theorem isNatural_ofNat (n : Nat) : (ofNat n).IsNatural := ⟨scale_ofNat n, isBelowZero_ofNat n⟩

theorem IsNatural.isNat (h : d.IsNatural) : d.IsNat d.mantissa := by
  have hwhole : d.isWhole = true := by simp [isWhole, h.scale_eq, tenTo, Nat.mod_one]
  simpa [h.scale_eq, tenTo] using isNat_of_isWhole hwhole h.isBelowZero_eq

/-- A factor is used without its form: by a zero the product is zero, whatever the sign of the zero. -/
theorem IsNatural.mulSaturating_eq (h : d.IsNatural) (a : Decimal) :
    a.mulSaturating d = a.mulSaturating (ofNat d.mantissa) := by
  by_cases hzero : d.mantissa = 0
  · have hproduct {b : Decimal} (hb : b.isZero = true) : a.mul? b = some zero := by simp [mul?, hb]
    rw [mulSaturating, mulSaturating, hproduct (isZero_eq_true_iff.2 hzero), hproduct (isZero_ofNat.2 hzero)]
  · have hnegative : d.negative = false := by
      have hsigned := isNat_iff.1 h.isNat
      rw [h.scale_eq, signed] at hsigned
      cases hsign : d.negative with
      | false => rfl
      | true =>
        simp only [hsign, if_true, tenTo] at hsigned
        omega
    rw [← eq_ofNat hnegative h.scale_eq]

theorem signed_of_ofInt? {n : Int} (h : ofInt? n = some d) : d.scale = 0 ∧ d.signed = n := by
  unfold ofInt? ofParts? ofSigned? at h
  split at h
  · cases h
    refine ⟨rfl, ?_⟩
    unfold signed
    dsimp only
    split
    · rename_i hnegative
      have hn : n < 0 := of_decide_eq_true (Bool.and_eq_true_iff.1 hnegative).1
      omega
    · rename_i hnegative
      have hn : ¬(n < 0 ∧ n.natAbs ≠ 0) := by simpa using hnegative
      omega
  · cases h

/-! ### Sums -/

theorem isNat_of_ofParts? {s : Nat} (h : ofParts? false (n * tenTo s) s = some d) : d.IsNat n := by
  unfold ofParts? ofSigned? at h
  split at h
  · cases h
    exact isNat_iff.2 rfl
  · cases h

/-- Only zeros are dropped when a natural number is fitted. -/
theorem isNat_fit (n s : Nat) :
    ((fit false (n * tenTo s) s).getD max).IsNat (min n (mantissaBound - 1)) := by
  have hpart {k : Nat} (hk : k ≤ s) : halfEven (n * tenTo s) (tenTo k) = n * tenTo (s - k) := by
    rw [← tenTo_mul_tenTo_sub hk, Nat.mul_comm (tenTo k), ← Nat.mul_assoc, halfEven_mul _ (tenTo_pos k)]
  cases hfit : fit false (n * tenTo s) s with
  | some d =>
    obtain ⟨k, hk, hparts⟩ := List.exists_of_findSome?_eq_some hfit
    have hle : k ≤ s := Nat.le_of_lt_succ (List.mem_range.1 hk)
    rw [hpart hle] at hparts
    have hd : d.IsNat n := isNat_of_ofParts? hparts
    rw [Nat.min_eq_left (Nat.le_sub_one_of_lt hd.lt)]
    exact hd
  | none =>
    have hparts := List.findSome?_eq_none_iff.1 hfit s (List.mem_range.2 (Nat.lt_succ_self s))
    rw [hpart (Nat.le_refl s), Nat.sub_self] at hparts
    have hlarge : mantissaBound ≤ n * tenTo 0 := by
      by_contra hsmall
      simp [ofParts?, ofSigned?, Nat.not_le.1 hsmall] at hparts
    rw [Nat.min_eq_right (Nat.le_trans (Nat.sub_le ..) (by simpa [tenTo] using hlarge))]
    exact isNat_iff.2 (by decide)

theorem IsNat.addSaturating (ha : a.IsNat m) (hb : b.IsNat n) :
    (a.addSaturating b).IsNat (min (m + n) (mantissaBound - 1)) := by
  unfold Decimal.addSaturating add?
  by_cases hm : a.isZero = true
  · rw [if_pos hm, Option.getD_some, ha.isZero_iff.1 hm, Nat.zero_add, Nat.min_eq_left (Nat.le_sub_one_of_lt hb.lt)]
    exact hb
  by_cases hn : b.isZero = true
  · rw [if_neg hm, if_pos hn, Option.getD_some, hb.isZero_iff.1 hn, Nat.add_zero,
      Nat.min_eq_left (Nat.le_sub_one_of_lt ha.lt)]
    exact ha
  rw [if_neg hm, if_neg hn]
  dsimp only
  have hshift {d : Decimal} {k : Nat} (hd : d.IsNat k) (hle : d.scale ≤ Nat.max a.scale b.scale) :
      d.signed * tenTo (Nat.max a.scale b.scale - d.scale) = (k * tenTo (Nat.max a.scale b.scale) : Nat) := by
    rw [isNat_iff.1 hd, ← Int.natCast_mul, Nat.mul_assoc, tenTo_mul_tenTo_sub hle]
  rw [hshift ha (Nat.le_max_left ..), hshift hb (Nat.le_max_right ..), ← Int.natCast_add, ← Nat.add_mul,
    Int.natAbs_natCast, decide_eq_false (Int.not_lt.2 (Int.natCast_nonneg _))]
  exact isNat_fit (m + n) _

/-- Sums of the same natural numbers in other forms are the same. -/
theorem exists_isNat_foldl {weights weights' : List Decimal}
    (h : List.Forall₂ (fun w w' => ∃ n, w.IsNat n ∧ w'.IsNat n) weights weights') (ha : a.IsNat n) (hb : b.IsNat n) :
    ∃ k, (weights.foldl Decimal.addSaturating a).IsNat k ∧ (weights'.foldl Decimal.addSaturating b).IsNat k := by
  induction h generalizing a b n with
  | nil => exact ⟨n, ha, hb⟩
  | cons hfirst _ ih =>
    obtain ⟨k, hw, hw'⟩ := hfirst
    exact ih (ha.addSaturating hw) (hb.addSaturating hw')

/-! ### Plain form -/

/-- A natural number written without digits after the point. -/
def plain (d : Decimal) : Decimal := ofNat d.toInt.toNat

theorem IsNat.plain_eq (h : d.IsNat n) : d.plain = ofNat n := by
  rw [plain, h.toInt_eq, Int.toNat_natCast]

theorem IsNat.isNat_plain (h : d.IsNat n) : d.plain.IsNat n := h.plain_eq ▸ isNat_ofNat h.lt

theorem IsNat.plain_addSaturating (ha : a.IsNat m) (hb : b.IsNat n) :
    (a.addSaturating b).plain = a.plain.addSaturating b.plain := by
  rw [(ha.addSaturating hb).plain_eq, ha.plain_eq, hb.plain_eq, addSaturating_ofNat]
  exact ofNat_congr (by omega)

end Decimal

/-- The product of natural numbers in their forms. -/
theorem weightProduct_eq_ofNat {weights : List Decimal} (h : ∀ w ∈ weights, w.IsNatural) :
    weightProduct weights = .ofNat (weights.map (·.mantissa)).prod := by
  rw [← weightProduct_ofNat, weightProduct, weightProduct, List.foldl_map, List.foldl_map]
  exact List.foldl_ext _ _ _ fun a w hw => (h w hw).mulSaturating_eq a

end DiceTally
