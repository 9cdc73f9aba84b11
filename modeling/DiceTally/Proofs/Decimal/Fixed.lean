import DiceTally.Proofs.Decimal.Order
import DiceTally.Proofs.Decimal.Text

/-!
# Decimal numbers with a fixed number of digits

The texts of decimal numbers consist of digits, a point and a sign (`isNumberText_fixed`, `isNumberText_text`).
Rounding to a number of places does not lift a number above a hundred (`roundPlaces_near`), so a percentage with
`places` digits after the point takes `places + 4` characters at most (`length_fixed_le`).
-/

namespace DiceTally

namespace Decimal

variable {d : Decimal}

/-! ### Rounding to places -/

/-- At most so many digits are left after the point, and the number is moved by at most half a unit of the last one. -/
theorem roundPlaces_near (d : Decimal) {places : Nat} (hplaces : places ≤ 28) :
    (d.roundPlaces places).scale ≤ places ∧ (d.Unsigned → (d.roundPlaces places).Unsigned) ∧
      |d.toRat - (d.roundPlaces places).toRat| ≤ 1 / 2 / tenTo (d.roundPlaces places).scale := by
  unfold roundPlaces
  by_cases hscale : d.scale ≤ places
  · have hpos := tenTo_cast_pos d.scale
    rw [if_pos hscale, sub_self, abs_zero]
    exact ⟨hscale, id, by positivity⟩
  rw [if_neg hscale]
  have hfits : ofParts? d.negative (halfEven d.mantissa (tenTo (d.scale - places))) places ≠ none := by
    rw [Ne, ofParts?_eq_none_iff hplaces, Nat.not_le]
    exact (halfEven_le d.mantissa (tenTo_pos _)).trans_lt d.mantissa_lt
  obtain ⟨r, hr⟩ := Option.ne_none_iff_exists'.1 hfits
  obtain ⟨hnegative, -, -⟩ := parts_of_ofParts? hr
  obtain ⟨hrat, hrscale⟩ := toRat_of_ofParts? hr
  rw [hr, Option.getD_some]
  refine ⟨hrscale.le, fun hsign => ?_, ?_⟩
  · rw [Unsigned, hnegative, hsign, Bool.false_and]
  · have hpos := tenTo_cast_pos places
    have hquotient : (d.mantissa / tenTo d.scale : ℚ) = d.mantissa / tenTo (d.scale - places) / tenTo places := by
      rw [div_div, ← Nat.cast_mul, Nat.mul_comm, tenTo_mul_tenTo_sub (Nat.le_of_not_le hscale)]
    rw [toRat_eq_withSign, hrat, abs_withSign_sub, hquotient, ← sub_div, abs_div, abs_of_pos hpos, hrscale]
    exact div_le_div_of_nonneg_right (abs_sub_halfEven_le d.mantissa (tenTo_pos _)) hpos.le

/-! ### Widths -/

/-- A number up to a hundred has three digits before the point at most. -/
theorem length_wholeDigits_le (hsign : d.Unsigned) (hle : d.toRat ≤ 100) : d.wholeDigits.length ≤ 3 := by
  have hmantissa : d.mantissa ≤ 100 * tenTo d.scale := by
    rw [hsign.toRat_eq, div_le_iff₀ (tenTo_cast_pos d.scale)] at hle
    exact_mod_cast hle
  have hlt : d.mantissa < 10 ^ (d.scale + 3) := by
    have hpos := tenTo_pos d.scale
    have hpower : 10 ^ (d.scale + 3) = 1000 * tenTo d.scale := by
      rw [pow_add, Nat.mul_comm]
      rfl
    omega
  have hdigits := (Nat.length_toDigits_le_iff (by decide) (Nat.succ_pos _)).2 hlt
  rw [wholeDigits, List.length_take, digits, List.length_append, List.length_replicate]
  omega

/-- A percentage has a known width at most. -/
theorem length_fixed_le (places : Nat) (hsign : d.Unsigned) (hle : d.toRat ≤ 100) :
    (d.fixed places).length ≤ 4 + places := by
  have hmin : Nat.min places 28 ≤ 28 := Nat.min_le_right places 28
  obtain ⟨hscale, hkept, hnear⟩ := d.roundPlaces_near hmin
  have hround := hkept hsign
  have hsmall := (le_natCast_of_near hnear 100).2 (by exact_mod_cast hle)
  have hwhole := length_wholeDigits_le hround (by exact_mod_cast hsmall)
  have hplaces := hscale.trans (Nat.min_le_left places 28)
  unfold fixed
  dsimp only
  rw [signText, hround, if_neg Bool.false_ne_true, String.empty_append, String.length_ofList, List.length_append]
  split
  · rw [List.length_nil]
    omega
  · rw [List.length_cons, List.length_append, length_fractionDigits, List.length_replicate]
    omega

end Decimal

/-! ### Characters -/

/-- A text of digits, points and minus signs, not empty. -/
structure IsNumberText (s : String) : Prop where
  ne_nil : s.toList ≠ []
  chars : ∀ c ∈ s.toList, c.isDigit = true ∨ c = '.' ∨ c = '-'

theorem Value.isNumberText_text (v : Value) : IsNumberText v.text where
  ne_nil := by
    rw [toList_text]
    exact signedDigits_ne_nil _
  chars := by
    intro c hc
    rw [toList_text] at hc
    exact (mem_signedDigits hc).imp_right .inr

namespace Decimal

theorem isNumberText_text (d : Decimal) : IsNumberText d.text where
  ne_nil := by
    rw [toList_text]
    simp [magnitudeChars, d.wholeDigits_ne_nil]
  chars := by
    intro c hc
    rw [toList_text] at hc
    rcases List.mem_append.1 hc with h | h
    · split at h
      · exact .inr (.inr (List.mem_singleton.1 h))
      · cases h
    · exact (d.mem_magnitudeChars h).imp_right .inl

theorem isNumberText_fixed (places : Nat) (d : Decimal) : IsNumberText (d.fixed places) := by
  obtain ⟨r, hr⟩ : ∃ r, d.roundPlaces (Nat.min places 28) = r := ⟨_, rfl⟩
  have htext : (d.fixed places).toList = r.signText.toList ++ (r.wholeDigits ++
      if places = 0 then [] else '.' :: (r.fractionDigits ++ List.replicate (places - r.scale) '0')) := by
    rw [← hr, fixed, String.toList_append, String.toList_ofList]
  constructor
  · rw [htext]
    simp [r.wholeDigits_ne_nil]
  · intro c hc
    rw [htext] at hc
    rcases List.mem_append.1 hc with h | h
    · unfold signText at h
      split at h
      · exact .inr (.inr (by simpa using h))
      · simp at h
    rcases List.mem_append.1 h with h | h
    · exact .inl (r.isDigit_of_mem_digits (List.mem_of_mem_take h))
    split at h
    · cases h
    rcases List.mem_cons.1 h with rfl | h
    · exact .inr (.inl rfl)
    rcases List.mem_append.1 h with h | h
    · exact .inl (r.isDigit_of_mem_digits (List.mem_of_mem_drop h))
    · rw [(List.mem_replicate.1 h).2]
      exact .inl rfl

end Decimal

end DiceTally
