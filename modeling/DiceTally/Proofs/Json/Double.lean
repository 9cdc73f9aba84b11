import DiceTally.Proofs.Json.Text

/-!
# Doubles in a text

A double is written as a number with a point or an exponent (`exists_chars_text`), or as `null` where it is not
finite.  Where this is read, all of it is read, as a double or as `null` again (`readValue_double`).
-/

namespace DiceTally

/-! ### Writing -/

theorem isDigits_zero : IsDigits ['0'] := ⟨List.cons_ne_nil _ _, List.all_eq_true.1 (by decide)⟩

/-- Zeros may stand before digits and behind them. -/
theorem isDigit_of_mem_padded {digits : List Char} (h : IsDigits digits) {n : Nat} {c : Char}
    (hc : c ∈ List.replicate n '0' ∨ c ∈ digits) : c.isDigit = true := by
  rcases hc with hc | hc
  · rw [(List.mem_replicate.1 hc).2]
    decide
  · exact h.2 c hc

section Digits

variable {digits : List Char} (h : IsDigits digits)

include h

theorem exists_positionalDigits (pointAt : Int) :
    ∃ whole fraction, IsDigits whole ∧ IsDigits fraction ∧
      positionalDigits digits pointAt = whole ++ '.' :: fraction := by
  unfold positionalDigits
  dsimp only
  by_cases hpoint : pointAt ≤ 0
  · rw [if_pos hpoint]
    refine ⟨['0'], _, isDigits_zero, ⟨?_, fun c hc => ?_⟩, rfl⟩
    · simp [h.1]
    · exact isDigit_of_mem_padded h (List.mem_append.1 hc)
  · rw [if_neg hpoint]
    generalize hpadded : digits ++ List.replicate (pointAt - digits.length).toNat '0' = padded
    have hdigits : ∀ c ∈ padded, c.isDigit = true := by
      intro c hc
      rw [← hpadded, List.mem_append] at hc
      exact isDigit_of_mem_padded h hc.symm
    have hwhole : padded.take pointAt.toNat ≠ [] := by
      have hpositive : pointAt.toNat ≠ 0 := by omega
      simp [List.take_eq_nil_iff, hpositive, ← hpadded, h.1]
    refine ⟨_, _, ⟨hwhole, fun c hc => hdigits c (List.mem_of_mem_take hc)⟩, ?_, rfl⟩
    split
    · exact isDigits_zero
    · rename_i hfraction
      exact ⟨by simpa using hfraction, fun c hc => hdigits c (List.mem_of_mem_drop hc)⟩

theorem exists_exponentDigits (exponent : Int) :
    ∃ t : NumberText, t.InDigits ∧ t.negative = false ∧ t.exponent = some exponent ∧
      exponentDigits digits exponent = t.chars := by
  have hwhole : IsDigits (digits.take 1) := ⟨by simp [h.1], fun c hc => h.2 c (List.mem_of_mem_take hc)⟩
  unfold exponentDigits
  by_cases hlength : digits.length ≤ 1
  · refine ⟨⟨false, digits.take 1, none, some exponent⟩, ⟨hwhole, by simp⟩, rfl, rfl, ?_⟩
    simp [NumberText.chars, NumberText.signChars, NumberText.fractionChars, NumberText.exponentChars, hlength]
  · have hfraction : IsDigits (digits.drop 1) :=
      ⟨by rw [Ne, List.drop_eq_nil_iff]; exact hlength, fun c hc => h.2 c (List.mem_of_mem_drop hc)⟩
    refine ⟨⟨false, digits.take 1, some (digits.drop 1), some exponent⟩, ⟨hwhole, by simpa using hfraction⟩,
      rfl, rfl, ?_⟩
    simp [NumberText.chars, NumberText.signChars, NumberText.fractionChars, NumberText.exponentChars, hlength]

end Digits

/-- A finite double is written as a number with a point or an exponent. -/
theorem exists_chars_text (b : Binary) :
    ∃ t : NumberText, t.InDigits ∧ (t.fraction.isNone && t.exponent.isNone) = false ∧
      (jsonFloat.text b).toList = t.chars := by
  have hsign : (if b.negative then "-" else "").toList = if b.negative then ['-'] else [] := by
    cases b.negative <;> decide
  have hpositional {whole fraction : List Char} (hwhole : IsDigits whole) (hfraction : IsDigits fraction) :
      ∃ t : NumberText, t.InDigits ∧ (t.fraction.isNone && t.exponent.isNone) = false ∧
        (if b.negative then ['-'] else []) ++ (whole ++ '.' :: fraction) = t.chars :=
    ⟨⟨b.negative, whole, some fraction, none⟩, ⟨hwhole, by simpa using hfraction⟩, rfl, by
      simp [NumberText.chars, NumberText.signChars, NumberText.fractionChars, NumberText.exponentChars]⟩
  unfold FloatFormat.text
  dsimp only
  by_cases hzero : b.mantissa = 0
  · rw [if_pos hzero, String.toList_append, hsign]
    exact hpositional isDigits_zero isDigits_zero
  · have hdigits := isDigits_toDigits (Shortest.ofBinary b.mantissa b.exponent).digits
    rw [if_neg hzero, String.toList_append, hsign, String.toList_ofList]
    generalize (Shortest.ofBinary b.mantissa b.exponent).place + _ - 1 = exponent
    by_cases hrange : (jsonFloat.low ≤ exponent && exponent < jsonFloat.high) = true
    · obtain ⟨whole, fraction, hwhole, hfraction, heq⟩ := exists_positionalDigits hdigits (exponent + 1)
      rw [if_pos hrange, heq]
      exact hpositional hwhole hfraction
    · obtain ⟨t, ht, hnegative, hexponent, heq⟩ := exists_exponentDigits hdigits exponent
      rw [if_neg hrange, heq]
      refine ⟨{ t with negative := b.negative }, ⟨ht.whole, ht.fraction⟩, by simp [hexponent], ?_⟩
      simp [NumberText.chars, NumberText.signChars, hnegative, NumberText.fractionChars, NumberText.exponentChars]

/-! ### Reading -/

/-- What is read where a double stands is a double, or `null`. -/
theorem readValue_double (f : Float) :
    ∃ read : Option Json, (∀ value ∈ read, value = .null ∨ ∃ g, value = .number (.float g)) ∧
      ∀ {blanks rest : List Char}, (∀ b ∈ blanks, isJsonBlank b = true) → EndsNumber rest → ∀ depth,
        Json.readValue depth (blanks ++ ((JsonNumber.float f).text.toList ++ rest)) =
          read.map fun value => (value, rest) := by
  cases hbinary : Binary.ofFloat? f with
  | none =>
    have htext : (JsonNumber.float f).text.toList = 'n' :: ['u', 'l', 'l'] := by
      rw [JsonNumber.text, hbinary]
      decide
    refine ⟨some .null, by simp, fun hblanks _ depth => ?_⟩
    rw [htext, List.cons_append, readValue_scalar (by decide) (by decide) _ hblanks]
    rfl
  | some b =>
    obtain ⟨t, ht, hdouble, hchars⟩ := exists_chars_text b
    have htext : (JsonNumber.float f).text.toList = t.chars := by rw [JsonNumber.text, hbinary, ← hchars]
    have hnumber : t.toNumber? = t.toFloat?.map .float := by
      rw [NumberText.toNumber?, hdouble]
      rfl
    refine ⟨if 1 < t.whole.length && t.whole.head? == some '0' then none
      else t.toFloat?.map fun g => .number (.float g), fun value hvalue => ?_, fun hblanks hrest depth => ?_⟩
    · split at hvalue
      · cases hvalue
      · obtain ⟨g, -, rfl⟩ := Option.map_eq_some_iff.1 hvalue
        exact .inr ⟨g, rfl⟩
    · obtain ⟨c, cs, hcons, hc⟩ := NumberText.exists_cons_of_chars ht
      have hread := NumberText.readNumberText_chars ht hrest
      rw [htext]
      rw [hcons, List.cons_append] at hread ⊢
      rw [readValue_number hc _ hblanks, hread]
      split
      · rfl
      · rw [Option.bind_eq_bind, Option.bind_some]
        dsimp only
        rw [hnumber]
        cases t.toFloat? <;> rfl

end DiceTally
