import DiceTally.Decimal.Double
import DiceTally.Proofs.Decimal.Whole

/-!
# Natural numbers from doubles

A double has at most 53 binary digits, and so has a natural number that a double is turned into, apart from zeros at
the end (`exists_bits_of_ofFloat?`).
-/

namespace DiceTally

theorem Binary.mantissa_lt {f : Float} {b : Binary} (h : Binary.ofFloat? f = some b) : b.mantissa < 2 ^ 53 := by
  have hbound : 2 ^ 53 = 2 * fractionBound := by decide
  have hfraction : f.toBits.toNat % fractionBound < fractionBound := Nat.mod_lt _ (by decide)
  unfold Binary.ofFloat? at h
  dsimp only at h
  split at h
  · cases h
  · split at h <;> cases h <;> dsimp only <;> omega

namespace Decimal

/-! ### Small numbers -/

section Bounds

variable {bound : Nat}

/-- Halvings bring a number with `p` digits after the point no further up. -/
theorem expandHalves_le (n m p : Nat) (hp : n ≤ p) (hm : m * 5 ^ n ≤ bound * tenTo p) :
    ∃ p' : Nat, (expandHalves n m (-p)).2 = -p' ∧ (expandHalves n m (-p)).1 ≤ bound * tenTo p' := by
  induction n generalizing m p with
  | zero => exact ⟨p, rfl, by simpa [expandHalves] using hm⟩
  | succ n ih =>
    rw [Nat.pow_succ] at hm
    -- half the number with one digit less
    have hhalf : ∃ p' : Nat, (expandHalves n (m / 2) (-p + 1)).2 = -p' ∧
        (expandHalves n (m / 2) (-p + 1)).1 ≤ bound * tenTo p' := by
      obtain ⟨q, rfl⟩ : ∃ q, p = q + 1 := ⟨p - 1, by omega⟩
      have hexponent : -((q + 1 : Nat) : Int) + 1 = -(q : Int) := by omega
      rw [hexponent]
      refine ih (m / 2) q (by omega) ?_
      have htwice : 2 * (m / 2) * 5 ^ n ≤ m * 5 ^ n := Nat.mul_le_mul_right _ (Nat.mul_div_le m 2)
      rw [tenTo_succ] at hm
      rw [Nat.mul_assoc] at htwice
      have hm : 5 * (m * 5 ^ n) ≤ 10 * (bound * tenTo q) := by
        calc 5 * (m * 5 ^ n) = m * (5 ^ n * 5) := by rw [Nat.mul_left_comm, Nat.mul_comm 5]
          _ ≤ bound * (10 * tenTo q) := hm
          _ = 10 * (bound * tenTo q) := Nat.mul_left_comm ..
      omega
    unfold expandHalves
    split
    · exact hhalf
    · split
      · refine ih (5 * m) p (by omega) ?_
        rwa [Nat.mul_comm 5 m, Nat.mul_assoc, Nat.mul_comm 5]
      · exact hhalf

theorem dropDigit_le {m p : Nat} (h : m ≤ bound * tenTo (p + 1)) : dropDigit m ≤ bound * tenTo p := by
  rw [tenTo_succ, Nat.mul_left_comm] at h
  unfold dropDigit
  split <;> omega

theorem dropDigits_le (n m p : Nat) (h : m ≤ bound * tenTo p) (hp : n ≤ p) :
    (dropDigits n m p).1 ≤ bound * tenTo (dropDigits n m p).2 := by
  induction n generalizing m p with
  | zero => exact h
  | succ n ih =>
    obtain ⟨q, rfl⟩ : ∃ q, p = q + 1 := ⟨p - 1, by omega⟩
    unfold dropDigits
    split
    · exact Nat.zero_le _
    · exact ih (dropDigit m) q (dropDigit_le h) (by omega)

theorem dropNoise_le (p m : Nat) (h : m ≤ bound * tenTo p) :
    (dropNoise p m).1 ≤ bound * tenTo (dropNoise p m).2 := by
  induction p generalizing m with
  | zero => exact h
  | succ p ih =>
    unfold dropNoise
    split
    · exact ih (dropDigit m) (dropDigit_le h)
    · exact h

theorem dropZeros_le (p m : Nat) (h : m ≤ bound * tenTo p) :
    (dropZeros p m).1 ≤ bound * tenTo (dropZeros p m).2 := by
  induction p generalizing m with
  | zero => exact h
  | succ p ih =>
    unfold dropZeros
    split
    · refine ih (m / 10) ?_
      rw [tenTo_succ, Nat.mul_left_comm] at h
      omega
    · exact h

theorem significantDigits_le (m p : Nat) (h : m ≤ bound * tenTo p) :
    (significantDigits m p).1 ≤ bound * tenTo (significantDigits m p).2 :=
  dropZeros_le _ _ (dropNoise_le _ _ (dropDigits_le (p - 28) m p h (Nat.sub_le ..)))

end Bounds

/-! ### Large numbers -/

/-- Doublings are exact, or the number is out of range. -/
theorem expandDoubles_eq {n m : Nat} {r : Nat × Int} (h : expandDoubles n m n = some r) : r = (m * 2 ^ n, 0) := by
  induction n generalizing m with
  | zero =>
    cases h
    simp
  | succ n ih =>
    have hexponent : ((n + 1 : Nat) : Int) - 1 = n := by omega
    unfold expandDoubles at h
    rw [hexponent] at h
    split at h
    · rw [ih h, Nat.pow_succ, Nat.mul_comm 2 m, Nat.mul_assoc, Nat.mul_comm 2]
    · rw [if_pos (by omega)] at h
      cases h

/-! ### All doubles -/

theorem isNat_mantissa_of_ofSigned? {negative : Bool} {mantissa places n : Nat} {d : Decimal}
    (h : ofSigned? negative mantissa places = some d) (hn : d.IsNat n) : mantissa = n * tenTo places := by
  unfold ofSigned? at h
  split at h
  · cases h
    exact hn.mantissa_eq
  · cases h

/-- A natural number from a double has at most 53 binary digits, apart from zeros at the end. -/
theorem exists_bits_of_ofFloat? {f : Float} {d : Decimal} (h : ofFloat? f = some d) {n : Nat} (hn : d.IsNat n) :
    ∃ m e : Nat, m < 2 ^ 53 ∧ n = m * 2 ^ e := by
  obtain ⟨b, hb, h⟩ := Option.bind_eq_some_iff.1 h
  have hmantissa := Binary.mantissa_lt hb
  unfold ofBinary? at h
  dsimp only at h
  split at h
  · -- the number is at most the mantissa
    rename_i hexponent
    obtain ⟨k, hk⟩ : ∃ k : Nat, b.exponent = -k := ⟨(-b.exponent).toNat, by omega⟩
    have hfive : b.mantissa * 5 ^ k ≤ 2 ^ 53 * tenTo k :=
      Nat.mul_le_mul (Nat.le_of_lt hmantissa) (Nat.pow_le_pow_left (by decide) k)
    obtain ⟨p, hp, hle⟩ := expandHalves_le k b.mantissa k (Nat.le_refl k) hfive
    have hsteps : (-(-(k : Int))).toNat = k := by omega
    have hnone : (-(p : Int)).toNat = 0 := by omega
    have hplaces : (-(-(p : Int))).toNat = p := by omega
    rw [hk, hsteps] at h
    simp only [Option.bind_some, hp, hnone, hplaces, expandTens] at h
    have hsmall := significantDigits_le _ p hle
    rw [isNat_mantissa_of_ofSigned? h hn] at hsmall
    have hbound : n ≤ 2 ^ 53 := Nat.le_of_mul_le_mul_right hsmall (tenTo_pos _)
    by_cases hlt : n < 2 ^ 53
    · exact ⟨n, 0, hlt, by simp⟩
    · exact ⟨1, 53, by decide, by omega⟩
  · rename_i hexponent
    obtain ⟨k, hk⟩ : ∃ k : Nat, b.exponent = k := ⟨b.exponent.toNat, by omega⟩
    rw [hk, Int.toNat_natCast] at h
    obtain ⟨r, hr, h⟩ := Option.bind_eq_some_iff.1 h
    rw [expandDoubles_eq hr] at h
    have hzero : (-(0 : Int)).toNat = 0 := rfl
    simp only [Int.toNat_zero, expandTens, Option.bind_some, hzero] at h
    have hmantissa' := isNat_mantissa_of_ofSigned? h hn
    refine ⟨b.mantissa, k, hmantissa, ?_⟩
    have hsame : significantDigits (b.mantissa * 2 ^ k) 0 = (b.mantissa * 2 ^ k, 0) := rfl
    rw [hsame] at hmantissa'
    simpa [tenTo] using hmantissa'.symm

end Decimal

end DiceTally
