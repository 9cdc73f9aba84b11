import DiceTally.Proofs.Json.Text
import Mathlib.Data.List.TakeWhile

/-!
# Integers in JSON

`IsLiteral` are the integers of JSON as they are written.  Behind blanks a reader of values takes a literal for the
integer that it writes, if this is in range (`readValue_literal`), and takes nothing else for an integer
(`literal_of_readValue`); it takes an array for what stands between brackets (`array_of_readValue`).
-/

namespace DiceTally

open Json (readValue readScalar)

/-- White space of JSON only. -/
def IsBlank (cs : List Char) : Prop := ∀ b ∈ cs, isJsonBlank b = true

/-- What is skipped is blank. -/
theorem exists_skipped (cs : List Char) : ∃ front, IsBlank front ∧ front ++ skipJsonBlank cs = cs :=
  ⟨cs.takeWhile isJsonBlank, fun _ hb => List.mem_takeWhile_imp hb, List.takeWhile_append_dropWhile⟩

theorem skipJsonBlank_eq_nil_iff {cs : List Char} : skipJsonBlank cs = [] ↔ IsBlank cs :=
  List.dropWhile_eq_nil_iff

theorem readValue_blanks {blanks : List Char} (h : IsBlank blanks) (depth : Nat) (cs : List Char) :
    readValue depth (blanks ++ cs) = readValue depth cs := by
  cases depth <;> rw [readValue, readValue, skipJsonBlank_append h]

/-! ### Literals -/

/-- Digits with a zero in front of no other digit. -/
structure IsNumeral (digits : List Char) : Prop where
  isDigits : IsDigits digits
  no_zero : digits.head? = some '0' → digits = ['0']

/-- An integer as JSON writes it: a numeral, or a minus sign and a numeral other than zero. -/
inductive IsLiteral : List Char → Int → Prop where
  | natural {digits : List Char} (h : IsNumeral digits) : IsLiteral digits (Nat.ofDigitChars 10 digits 0)
  | negative {digits : List Char} (h : IsNumeral digits) (hpos : 0 < Nat.ofDigitChars 10 digits 0) :
    IsLiteral ('-' :: digits) (-(Nat.ofDigitChars 10 digits 0 : Int))

variable {cs rest : List Char} {n : Int} {depth : Nat}

theorem isNumeral_iff {digits : List Char} :
    IsNumeral digits ↔ IsDigits digits ∧ ¬(1 < digits.length && digits.head? == some '0') = true := by
  constructor
  · rintro ⟨hdigits, hzero⟩
    refine ⟨hdigits, fun h => ?_⟩
    rw [Bool.and_eq_true, decide_eq_true_eq, beq_iff_eq] at h
    rw [hzero h.2] at h
    exact absurd h.1 (by decide)
  · rintro ⟨hdigits, hzero⟩
    refine ⟨hdigits, fun hhead => ?_⟩
    rw [hhead] at hzero
    cases digits with
    | nil => cases hhead
    | cons d ds =>
      obtain rfl := Option.some.inj hhead
      cases ds with
      | nil => rfl
      | cons e es => simp at hzero

/-- A literal as the parts of a number. -/
theorem IsLiteral.exists_numberText (h : IsLiteral cs n) :
    ∃ t : NumberText, t.chars = cs ∧ IsNumeral t.whole ∧ t.fraction = none ∧ t.exponent = none ∧
      (-Value.bound ≤ n → n < bound64 → t.toNumber? = some (.int n)) := by
  cases h with
  | natural h =>
    refine ⟨⟨false, cs, none, none⟩, ?_, h, rfl, rfl, fun _ hhigh => ?_⟩
    · simp [NumberText.chars, NumberText.signChars, NumberText.fractionChars, NumberText.exponentChars]
    · have hrange : Nat.ofDigitChars 10 cs 0 < bound64 := by omega
      simp [NumberText.toNumber?, hrange]
  | @negative digits h hpos =>
    refine ⟨⟨true, digits, none, none⟩, ?_, h, rfl, rfl, fun hlow _ => ?_⟩
    · simp [NumberText.chars, NumberText.signChars, NumberText.fractionChars, NumberText.exponentChars]
    · have hrange : (Nat.ofDigitChars 10 digits 0 : Int) ≤ Value.bound := by omega
      simp [NumberText.toNumber?, hpos, hrange]

theorem IsLiteral.exists_cons (h : IsLiteral cs n) : ∃ c more, cs = c :: more ∧ (c.isDigit = true ∨ c = '-') := by
  obtain ⟨t, rfl, hwhole, hfraction, -⟩ := h.exists_numberText
  exact NumberText.exists_cons_of_chars ⟨hwhole.isDigits, by simp [hfraction]⟩

/-- A literal in range is read as the integer that it writes. -/
theorem readValue_literal (h : IsLiteral cs n) (hlow : -Value.bound ≤ n) (hhigh : n < bound64) {blanks : List Char}
    (hblanks : IsBlank blanks) (hrest : EndsNumber rest) (depth : Nat) :
    readValue depth (blanks ++ (cs ++ rest)) = some (.number (.int n), rest) := by
  obtain ⟨t, rfl, hwhole, hfraction, -, hnumber⟩ := h.exists_numberText
  have hdigits : t.InDigits := ⟨hwhole.isDigits, by simp [hfraction]⟩
  have hread := NumberText.readNumberText_chars hdigits hrest
  rw [if_neg (isNumeral_iff.1 hwhole).2] at hread
  obtain ⟨c, more, hchars, hc⟩ := NumberText.exists_cons_of_chars hdigits
  rw [hchars, List.cons_append] at hread ⊢
  rw [readValue_number hc _ hblanks, hread]
  simp [hnumber hlow hhigh]

theorem readDigitRun_eq_some {digits : List Char} (h : readDigitRun cs = some (digits, rest)) :
    IsDigits digits ∧ digits ++ rest = cs := by
  unfold readDigitRun at h
  dsimp only at h
  split at h
  · cases h
  · rename_i hne
    cases h
    exact ⟨⟨by simpa using hne, fun c hc => List.mem_takeWhile_imp hc⟩, List.takeWhile_append_dropWhile⟩

theorem readFraction_eq_none (h : readFraction cs = some (none, rest)) : rest = cs := by
  unfold readFraction at h
  split at h
  · simp at h
  · cases h
    rfl

theorem readExponent_eq_none (h : readExponent cs = some (none, rest)) : rest = cs := by
  cases cs with
  | nil =>
    cases h
    rfl
  | cons c cs =>
    change (if (c == 'e' || c == 'E') = true then _ else _) = _ at h
    split at h
    · simp at h
    · cases h
      rfl

/-- What is cut off as a number without fraction and exponent is a numeral with its sign. -/
theorem readNumberText_eq_some {t : NumberText} (h : readNumberText cs = some (t, rest)) (hfraction : t.fraction = none)
    (hexponent : t.exponent = none) : IsNumeral t.whole ∧ t.signChars ++ t.whole ++ rest = cs := by
  unfold readNumberText at h
  split at h
  rename_i negative cs' hcut
  obtain ⟨⟨whole, cs₁⟩, hwhole, h⟩ := Option.bind_eq_some_iff.1 h
  dsimp only at h
  split at h
  · cases h
  rename_i hzero
  obtain ⟨⟨fraction, cs₂⟩, hfrac, h⟩ := Option.bind_eq_some_iff.1 h
  obtain ⟨⟨exponent, cs₃⟩, hexp, h⟩ := Option.bind_eq_some_iff.1 h
  cases h
  obtain rfl : fraction = none := hfraction
  obtain rfl : exponent = none := hexponent
  obtain ⟨hdigits, hrest⟩ := readDigitRun_eq_some hwhole
  obtain rfl := readExponent_eq_none hexp
  obtain rfl := readFraction_eq_none hfrac
  refine ⟨isNumeral_iff.2 ⟨hdigits, hzero⟩, ?_⟩
  unfold NumberText.signChars
  split at hcut
  · cases hcut
    rw [if_pos rfl, ← hrest]
    rfl
  · cases hcut
    rw [if_neg Bool.false_ne_true, ← hrest]
    rfl

/-- An integer has neither fraction nor exponent, and is written by its literal. -/
theorem NumberText.toNumber?_eq_int {t : NumberText} (h : t.toNumber? = some (.int n)) :
    t.fraction = none ∧ t.exponent = none ∧ (IsNumeral t.whole → IsLiteral (t.signChars ++ t.whole) n) := by
  unfold toNumber? at h
  dsimp only at h
  have hfloat {x : Option Float} : x.map JsonNumber.float ≠ some (.int n) := by
    cases x <;> simp
  cases hnegative : t.negative with
  | false =>
    rw [hnegative, if_neg Bool.false_ne_true, if_neg Bool.false_ne_true] at h
    split at h
    · rename_i hint
      cases h
      simp only [Bool.and_eq_true, Option.isNone_iff_eq_none, decide_eq_true_eq] at hint
      refine ⟨hint.1.1, hint.1.2, fun hwhole => ?_⟩
      rw [signChars, hnegative, if_neg Bool.false_ne_true, List.nil_append]
      exact .natural hwhole
    · exact absurd h hfloat
  | true =>
    rw [hnegative, if_pos rfl, if_pos rfl] at h
    split at h
    · rename_i hint
      cases h
      simp only [Bool.and_eq_true, Option.isNone_iff_eq_none, decide_eq_true_eq] at hint
      refine ⟨hint.1.1, hint.1.2, fun hwhole => ?_⟩
      rw [signChars, hnegative, if_pos rfl, List.singleton_append]
      exact .negative hwhole hint.2.1
    · exact absurd h hfloat

/-! ### Values -/

/-- What stands alone is a string, a word or a number. -/
theorem readScalar_eq_some {value : Json} (h : readScalar cs = some (value, rest)) :
    (∃ s, value = .string s) ∨ (∃ b, value = .bool b) ∨ value = .null ∨
      ∃ t number, readNumberText cs = some (t, rest) ∧ t.toNumber? = some number ∧ value = .number number := by
  have hword {word : String} {v : Json} {cs : List Char} (h : readWord word v cs = some (value, rest)) : value = v := by
    unfold readWord at h
    split at h
    · cases h
      rfl
    · cases h
  unfold readScalar at h
  split at h
  · obtain ⟨r, -, hr⟩ := Option.map_eq_some_iff.1 h
    cases hr
    exact .inl ⟨_, rfl⟩
  · exact .inr (.inl ⟨true, hword h⟩)
  · exact .inr (.inl ⟨false, hword h⟩)
  · exact .inr (.inr (.inl (hword h)))
  · obtain ⟨⟨t, rest'⟩, ht, h⟩ := Option.bind_eq_some_iff.1 h
    obtain ⟨number, hnumber, h⟩ := Option.bind_eq_some_iff.1 h
    cases h
    exact .inr (.inr (.inr ⟨t, number, ht, hnumber, rfl⟩))

/-- A value is the array or the object of a bracket, or stands alone. -/
theorem readValue_eq_some {value : Json} (h : readValue depth cs = some (value, rest)) :
    (∃ depth' cs' items, depth = depth' + 1 ∧ skipJsonBlank cs = '[' :: cs' ∧
      readItems (readValue depth') ']' cs' = some (items, rest) ∧ value = .array items) ∨
    (∃ members, value = .object members) ∨ readScalar (skipJsonBlank cs) = some (value, rest) := by
  cases depth with
  | zero =>
    rw [readValue] at h
    split at h
    · cases h
    · cases h
    · exact .inr (.inr h)
  | succ depth =>
    rw [readValue] at h
    split at h
    · rename_i cs' hskip
      obtain ⟨⟨items, rest'⟩, hitems, hvalue⟩ := Option.map_eq_some_iff.1 h
      cases hvalue
      exact .inl ⟨depth, cs', items, rfl, hskip, hitems, rfl⟩
    · obtain ⟨r, -, hvalue⟩ := Option.map_eq_some_iff.1 h
      cases hvalue
      exact .inr (.inl ⟨_, rfl⟩)
    · exact .inr (.inr h)

/-- What is read as an integer is a literal behind blanks. -/
theorem literal_of_readValue (h : readValue depth cs = some (.number (.int n), rest)) :
    ∃ blanks literal, IsBlank blanks ∧ IsLiteral literal n ∧ blanks ++ literal ++ rest = cs := by
  have hscalar : readScalar (skipJsonBlank cs) = some (.number (.int n), rest) := by
    rcases readValue_eq_some h with ⟨_, _, _, -, -, -, hvalue⟩ | ⟨_, hvalue⟩ | hscalar
    · cases hvalue
    · cases hvalue
    · exact hscalar
  obtain ⟨t, number, ht, hnumber, hvalue⟩ : ∃ t number, readNumberText (skipJsonBlank cs) = some (t, rest) ∧
      t.toNumber? = some number ∧ (Json.number (.int n)) = .number number := by
    rcases readScalar_eq_some hscalar with ⟨_, hvalue⟩ | ⟨_, hvalue⟩ | hvalue | hread
    · cases hvalue
    · cases hvalue
    · cases hvalue
    · exact hread
  obtain rfl : JsonNumber.int n = number := Json.number.inj hvalue
  obtain ⟨hfraction, hexponent, hliteral⟩ := NumberText.toNumber?_eq_int hnumber
  obtain ⟨hwhole, hrest⟩ := readNumberText_eq_some ht hfraction hexponent
  obtain ⟨blanks, hblanks, hcs⟩ := exists_skipped cs
  exact ⟨blanks, t.signChars ++ t.whole, hblanks, hliteral hwhole, by rw [List.append_assoc, hrest, hcs]⟩

theorem array_of_readValue {items : List Json} (h : readValue depth cs = some (.array items, rest)) :
    ∃ blanks cs' depth', IsBlank blanks ∧ blanks ++ '[' :: cs' = cs ∧
      readItems (readValue depth') ']' cs' = some (items, rest) := by
  rcases readValue_eq_some h with ⟨depth', cs', items', -, hskip, hitems, hvalue⟩ | ⟨_, hvalue⟩ | hscalar
  · cases hvalue
    obtain ⟨blanks, hblanks, hcs⟩ := exists_skipped cs
    rw [hskip] at hcs
    exact ⟨blanks, cs', depth', hblanks, hcs, hitems⟩
  · cases hvalue
  · rcases readScalar_eq_some hscalar with ⟨_, hvalue⟩ | ⟨_, hvalue⟩ | hvalue | ⟨_, _, -, -, hvalue⟩ <;> cases hvalue

end DiceTally
