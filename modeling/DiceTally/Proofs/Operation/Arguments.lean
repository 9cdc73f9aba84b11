import DiceTally.Proofs.Operation.Words
import DiceTally.Proofs.Operation.Wrapping

/-!
# Parameters read back

A parameter is written as a word and read from it again.  Integers and texts come back as they were, and so do
numbers, but for those that are written without a point and lie in the range of the values: they come back as
integers (`same_reread_iff`).
-/

namespace DiceTally

/-! ### Numbers written without a point -/

namespace Decimal

variable (d : Decimal)

theorem natOfChars?_magnitudeChars :
    natOfChars? d.magnitudeChars = if d.scale = 0 then some d.mantissa else none := by
  unfold natOfChars?
  by_cases hscale : d.scale = 0
  · have hdigits : d.magnitudeChars = d.digits := by simp [magnitudeChars, hscale, wholeDigits]
    have hne : d.digits ≠ [] := List.ne_nil_of_length_pos (Nat.zero_lt_of_lt d.scale_lt_length_digits)
    have hall : d.digits.all Char.isDigit = true := List.all_eq_true.2 fun c => d.isDigit_of_mem_digits
    rw [if_pos hscale, hdigits, if_neg (by simp [hne, hall]), ofDigitChars_digits]
  · have hpoint : d.magnitudeChars.all Char.isDigit = false :=
      List.all_eq_false.2 ⟨'.', by simp [magnitudeChars, hscale], by decide⟩
    rw [if_neg hscale, if_pos (by simp [hpoint])]

/-- Without a point the text is that of an integer. -/
theorem intOfChars?_text : intOfChars? d.text.toList = if d.scale = 0 then some d.signed else none := by
  have hnat := d.natOfChars?_magnitudeChars
  rw [toList_text, signed]
  cases hnegative : d.negative with
  | true =>
    rw [if_pos rfl, List.singleton_append, intOfChars?, hnat]
    split <;> rfl
  | false =>
    obtain ⟨c, cs, hcs⟩ := List.exists_cons_of_ne_nil
      (show d.magnitudeChars ≠ [] by simp [magnitudeChars, d.wholeDigits_ne_nil])
    have hc := d.mem_magnitudeChars (hcs ▸ List.mem_cons_self)
    rw [if_neg (by simp), List.nil_append, hcs, intOfChars?.eq_3]
    · rw [← hcs, hnat]
      split <;> rfl
    · rintro rest ⟨⟩
      exact absurd hc (by decide)
    · rintro rest ⟨⟩
      exact absurd hc (by decide)

/-- The value as which a number is read back. -/
def written? : Option Value := if d.scale = 0 then Value.ofInt? d.signed else none

theorem ofText?_text_value : Value.ofText? d.text = d.written? := by
  rw [Value.ofText?, intOfChars?_text, written?]
  split <;> rfl

theorem written?_eq_none_iff :
    d.written? = none ↔ ¬(d.scale = 0 ∧ -Value.bound ≤ d.signed ∧ d.signed < Value.bound) := by
  unfold written? Value.ofInt?
  split
  · rename_i hscale
    simp [hscale]
  · rename_i hscale
    simp [hscale]

@[simp] theorem units_dropZeroSign : d.dropZeroSign.units = d.units := by
  unfold units signed dropZeroSign
  by_cases hzero : d.mantissa = 0
  · simp [hzero]
  · simp [hzero]

end Decimal

/-! ### Parameters -/

namespace Param

/-- The parameter that is read from the word of a parameter. -/
def reread (p : Param) : Param := ofToken p.render

/-- The same parameter; numbers are compared as numbers. -/
def Same : Param → Param → Prop
  | int m, int n => m = n
  | number d, number e => d.units = e.units
  | text s, text t => s = t
  | _, _ => False

/-- A number that is written without a point and lies in the range of the values. -/
def LooksWhole (p : Param) : Prop :=
  ∃ d, p = number d ∧ d.scale = 0 ∧ -Value.bound ≤ d.signed ∧ d.signed < Value.bound

theorem reread_int (n : Value) : (int n).reread = int n := by
  simp [reread, render, ofToken, n.ofText?_text]

theorem reread_number (d : Decimal) :
    (number d).reread = match d.written? with
      | some v => int v
      | none => number d.dropZeroSign := by
  cases hwritten : d.written? with
  | none => simp [reread, render, ofToken, d.ofText?_text_value, d.ofText?_text, hwritten]
  | some v => simp [reread, render, ofToken, d.ofText?_text_value, hwritten]

/-- A token that is no number comes back as it was. -/
theorem reread_of_ofToken_eq_text {t s : String} (h : ofToken t = text s) : (text s).reread = text s := by
  unfold ofToken at h
  split at h
  · cases h
  · split at h
    · cases h
    · cases h
      simp [reread, render, ofToken, *]

theorem looksWhole_number_iff {d : Decimal} : (number d).LooksWhole ↔ d.written? ≠ none := by
  rw [Ne, d.written?_eq_none_iff, not_not]
  exact ⟨fun ⟨_, rfl, h⟩ => h, fun h => ⟨d, rfl, h⟩⟩

/-- A number that is written like an integer comes back as this integer. -/
theorem LooksWhole.reread_number {d : Decimal} (h : (number d).LooksWhole) :
    ∃ v : Value, (number d).reread = int v ∧ v.toInt = d.signed := by
  obtain ⟨v, hv⟩ := Option.ne_none_iff_exists'.1 (looksWhole_number_iff.1 h)
  refine ⟨v, by rw [Param.reread_number, hv], ?_⟩
  unfold Decimal.written? at hv
  split at hv
  · exact Value.toInt_of_ofInt? hv
  · cases hv

/-- What is read from the word of a parameter is the same parameter, unless a number looks like an integer. -/
theorem same_reread_iff (t : String) : (ofToken t).reread.Same (ofToken t) ↔ ¬(ofToken t).LooksWhole := by
  cases h : ofToken t with
  | int n => simp [reread_int, Same, LooksWhole]
  | number d =>
    rw [looksWhole_number_iff, not_not, reread_number]
    cases d.written? with
    | none => simp [Same]
    | some v => simp [Same]
  | text s => simp [reread_of_ofToken_eq_text h, Same, LooksWhole]

end Param

/-! ### Operations -/

namespace Operation

/-- The operation with all parameters of named operations changed. -/
def mapParams (f : Param → Param) : Operation → Operation
  | primitive step => primitive step
  | sliceApply size inner outer => sliceApply size (inner.mapParams f) (outer.mapParams f)
  | conditional condition taken otherwise => conditional condition (taken.mapParams f) (otherwise.mapParams f)
  | native name params function => native name (params.map f) function
  | defined name params pipeline => defined name (params.map f) pipeline
  | andThen first next => andThen (first.mapParams f) (next.mapParams f)
  | validated inner => validated (inner.mapParams f)
  | memoized slot inner => memoized slot (inner.mapParams f)

variable (f : Param → Param)

@[simp] theorem isIdentity_mapParams (op : Operation) : (op.mapParams f).isIdentity = op.isIdentity := by
  induction op with
  | validated inner ih => exact ih
  | memoized slot inner ih => exact ih
  | _ => rfl

theorem wrapped_mapParams (options : ParseOptions) (top : Bool) (op : Operation) (slot : Nat) :
    wrapped options top (op.mapParams f) slot = (wrapped options top op slot).map (mapParams f) id := by
  unfold wrapped
  dsimp only
  split <;> split <;> rfl

/-- Which parameters a named operation has does not matter for the wrapping. -/
theorem wrapLevels_mapParams (options : ParseOptions) (top : Bool) (op : Operation) (slot : Nat) :
    (op.mapParams f).wrapLevels options top slot = (op.wrapLevels options top slot).map (mapParams f) id := by
  induction op generalizing top slot with
  | sliceApply size inner outer ihinner ihouter => simp [wrapLevels, mapParams, ihinner, ihouter]
  | conditional condition taken otherwise ihtaken ihotherwise =>
    simp [wrapLevels, mapParams, ihtaken, ihotherwise]
  | andThen first next ihfirst ihnext => simp [wrapLevels, mapParams, ihfirst, ihnext]
  | validated inner ih => simp [wrapLevels, mapParams, ih, wrapped_mapParams]
  | memoized _ inner ih => exact ih false slot
  | _ => rfl

end Operation

end DiceTally
