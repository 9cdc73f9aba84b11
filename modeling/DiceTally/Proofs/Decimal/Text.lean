import DiceTally.Decimal.Text
import DiceTally.Proofs.Value

/-!
# Decimal numbers as text

The digits that are written for a decimal number are read back with the same mantissa and scale; only the sign of
a zero is lost (`ofText?_text`).
-/

namespace DiceTally

namespace Decimal

/-- The same number, a zero without a sign. -/
def dropZeroSign (d : Decimal) : Decimal :=
  ⟨d.negative && d.mantissa != 0, d.mantissa, d.scale, d.mantissa_lt, d.scale_le⟩

theorem dropZeroSign_eq_self {d : Decimal} (h : d.negative = true → d.mantissa ≠ 0) : d.dropZeroSign = d := by
  unfold dropZeroSign
  ext
  · cases hneg : d.negative with
    | false => rfl
    | true => simpa using h hneg
  · rfl
  · rfl

theorem le_ofDigitChars (cs : List Char) (m : Nat) : m ≤ Nat.ofDigitChars 10 cs m := by
  induction cs generalizing m with
  | nil => exact Nat.le_refl m
  | cons c cs ih =>
    rw [Nat.ofDigitChars_cons]
    have := ih (10 * m + (c.toNat - '0'.toNat))
    omega

/-! ### Reading digits -/

theorem ofDigitChars_cons (c : Char) (cs : List Char) (m : Nat) :
    Nat.ofDigitChars 10 (c :: cs) m = Nat.ofDigitChars 10 cs (10 * m + digitOf c) := Nat.ofDigitChars_cons

/-- Digits before the point. -/
theorem readDigits_whole {ws : List Char} (hws : ∀ c ∈ ws, c.isDigit = true) (seen : Bool) {m : Nat}
    (hm : Nat.ofDigitChars 10 ws m < mantissaBound) (cs : List Char) :
    readDigits seen false m 0 (ws ++ cs) = readDigits (seen || !ws.isEmpty) false (Nat.ofDigitChars 10 ws m) 0 cs := by
  induction ws generalizing seen m with
  | nil => simp
  | cons c ws ih =>
    rw [ofDigitChars_cons] at hm ⊢
    have hnext : 10 * m + digitOf c < mantissaBound := Nat.lt_of_le_of_lt (le_ofDigitChars ws _) hm
    have hdigit := hws c List.mem_cons_self
    rw [List.cons_append, readDigits, if_neg (by simp), if_pos hdigit, if_pos hnext, if_neg (by simp),
      ih (fun d hd => hws d (List.mem_cons_of_mem c hd)) true hm]
    simp

/-- Digits after the point. -/
theorem readDigits_fraction {fs : List Char} (hfs : ∀ c ∈ fs, c.isDigit = true) {m s : Nat}
    (hs : s + fs.length ≤ 28) (hm : Nat.ofDigitChars 10 fs m < mantissaBound) :
    readDigits true true m s fs = some (Nat.ofDigitChars 10 fs m, s + fs.length) := by
  induction fs generalizing m s with
  | nil => rfl
  | cons c fs ih =>
    rw [ofDigitChars_cons] at hm ⊢
    have hnext : 10 * m + digitOf c < mantissaBound := Nat.lt_of_le_of_lt (le_ofDigitChars fs _) hm
    have hdigit := hfs c List.mem_cons_self
    have hscale : ¬ (true && decide (28 ≤ s)) = true := by
      rw [List.length_cons] at hs
      simp
      omega
    rw [List.length_cons] at hs ⊢
    have hs : s + 1 + fs.length ≤ 28 := by omega
    rw [readDigits, if_neg hscale, if_pos hdigit, if_pos hnext, if_pos rfl,
      ih (fun d hd => hfs d (List.mem_cons_of_mem c hd)) hs hm, Nat.add_assoc, Nat.add_comm 1]

/-! ### The digits of a number -/

variable (d : Decimal)

theorem isDigit_of_mem_digits {c : Char} (h : c ∈ d.digits) : c.isDigit = true := by
  rcases List.mem_append.1 h with h | h
  · rw [(List.mem_replicate.1 h).2]
    rfl
  · exact Nat.isDigit_of_mem_toDigits (by decide) (by decide) h

theorem scale_lt_length_digits : d.scale < d.digits.length := by
  unfold digits
  simp only [List.length_append, List.length_replicate]
  omega

theorem ofDigitChars_digits : Nat.ofDigitChars 10 d.digits 0 = d.mantissa := by
  unfold digits
  rw [Nat.ofDigitChars_append, Nat.ofDigitChars_replicate_zero, Nat.mul_zero, Nat.ofDigitChars_ten_toDigits]

theorem wholeDigits_append_fractionDigits : d.wholeDigits ++ d.fractionDigits = d.digits :=
  List.take_append_drop ..

theorem wholeDigits_ne_nil : d.wholeDigits ≠ [] := by
  have := d.scale_lt_length_digits
  unfold wholeDigits
  rw [Ne, List.take_eq_nil_iff]
  rintro (h | h)
  · omega
  · simp [h] at this

theorem length_fractionDigits : d.fractionDigits.length = d.scale := by
  have := d.scale_lt_length_digits
  unfold fractionDigits
  rw [List.length_drop]
  omega

/-- The text without the sign. -/
def magnitudeChars : List Char :=
  d.wholeDigits ++ if d.scale = 0 then [] else '.' :: d.fractionDigits

theorem toList_text : d.text.toList = (if d.negative then ['-'] else []) ++ d.magnitudeChars := by
  unfold text signText magnitudeChars
  rw [String.toList_append, String.toList_ofList]
  split <;> rfl

theorem mem_magnitudeChars {c : Char} (h : c ∈ d.magnitudeChars) : c.isDigit = true ∨ c = '.' := by
  have hwhole {c : Char} (hc : c ∈ d.wholeDigits) : c.isDigit = true :=
    d.isDigit_of_mem_digits (List.mem_of_mem_take hc)
  unfold magnitudeChars at h
  rcases List.mem_append.1 h with h | h
  · exact .inl (hwhole h)
  · split at h
    · cases h
    · rcases List.mem_cons.1 h with rfl | h
      · exact .inr rfl
      · exact .inl (d.isDigit_of_mem_digits (List.mem_of_mem_drop h))

theorem readDigits_magnitudeChars : readDigits false false 0 0 d.magnitudeChars = some (d.mantissa, d.scale) := by
  have hall := d.ofDigitChars_digits
  have hlt := d.mantissa_lt
  rw [← d.wholeDigits_append_fractionDigits, Nat.ofDigitChars_append] at hall
  have hwhole : ∀ c ∈ d.wholeDigits, c.isDigit = true := fun c hc => d.isDigit_of_mem_digits (List.mem_of_mem_take hc)
  have hfraction : ∀ c ∈ d.fractionDigits, c.isDigit = true :=
    fun c hc => d.isDigit_of_mem_digits (List.mem_of_mem_drop hc)
  have hwholelt : Nat.ofDigitChars 10 d.wholeDigits 0 < mantissaBound :=
    Nat.lt_of_le_of_lt (le_ofDigitChars d.fractionDigits _) (hall ▸ hlt)
  have hseen : (false || !d.wholeDigits.isEmpty) = true := by simp [d.wholeDigits_ne_nil]
  rw [magnitudeChars, readDigits_whole hwhole false hwholelt, hseen]
  have hlength := d.length_fractionDigits
  split
  · rename_i hscale
    rw [hscale] at hlength
    rw [List.eq_nil_of_length_eq_zero hlength, Nat.ofDigitChars_nil] at hall
    rw [readDigits, if_pos rfl, hall, hscale]
  · rw [readDigits, if_neg (by simp), if_neg (by decide), if_pos (by decide),
      readDigits_fraction hfraction (by have := d.scale_le; omega) (hall ▸ hlt), hall, hlength, Nat.zero_add]

/-- The text of a number is read back, a zero without its sign. -/
theorem ofText?_text : ofText? d.text = some d.dropZeroSign := by
  have hsplit : splitSign d.text.toList = (d.negative, d.magnitudeChars) := by
    rw [toList_text]
    cases hneg : d.negative with
    | true => rfl
    | false =>
      obtain ⟨c, cs, hcs⟩ := List.exists_cons_of_ne_nil
        (show d.magnitudeChars ≠ [] by simp [magnitudeChars, d.wholeDigits_ne_nil])
      have hc := d.mem_magnitudeChars (hcs ▸ List.mem_cons_self)
      simp only [Bool.false_eq_true, if_false, List.nil_append, hcs]
      unfold splitSign
      split
      · rename_i heq
        cases heq
        exact absurd hc (by decide)
      · rename_i heq
        cases heq
        exact absurd hc (by decide)
      · rfl
  have hplain : readPlain? d.text.toList = some d.dropZeroSign := by
    rw [readPlain?, hsplit]
    simp only [readDigits_magnitudeChars, Option.bind_some]
    rw [ofParts?, ofSigned?, dif_pos ⟨d.mantissa_lt, d.scale_le⟩]
    rfl
  rw [ofText?, hplain]
  rfl

end Decimal

end DiceTally
