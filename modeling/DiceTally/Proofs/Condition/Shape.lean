import DiceTally.Proofs.Condition.Sentence

/-!
# The shape of conditions

What holds of every condition that has been read: comparisons have operands, `mod` has divisors that are not zero
and stands in front of a comparison, and `always` is only ever a whole condition.
-/

namespace DiceTally

namespace Condition

/-- A comparison, or a comparison behind `mod`. -/
def isLeaf : Condition → Bool
  | compare _ _ | modulo _ _ => true
  | _ => false

/-- The conditions that can be written with at least one token. -/
def WellFormed : Condition → Prop
  | always => False
  | compare _ operands => operands ≠ []
  | modulo divisors inner => divisors ≠ [] ∧ 0 ∉ divisors ∧ inner.isLeaf = true ∧ inner.WellFormed
  | not inner => inner.WellFormed
  | and left right => left.WellFormed ∧ right.WellFormed
  | or left right => left.WellFormed ∧ right.WellFormed

theorem ne_nil_of_forall₂ {tokens : List String} {values : List Value} (hne : tokens ≠ [])
    (h : List.Forall₂ Writes tokens values) : values ≠ [] := by
  rintro rfl
  exact hne (List.forall₂_nil_right_iff.1 h)

theorem Leaf.wellFormed {tokens : List String} {c : Condition} (h : Leaf tokens c) :
    c.isLeaf = true ∧ c.WellFormed := by
  induction h with
  | compare _ hne hvalues => exact ⟨rfl, ne_nil_of_forall₂ hne hvalues⟩
  | modulo hne hvalues hzero _ ih => exact ⟨rfl, ne_nil_of_forall₂ hne hvalues, hzero, ih⟩

theorem Derives.wellFormed {level : Level} {tokens : List String} {c : Condition} (h : Derives level tokens c) :
    c.WellFormed := by
  induction h with
  | leaf h => exact h.wellFormed.2
  | brackets _ ih => exact ih
  | plain _ ih => exact ih
  | not _ ih => exact ih
  | conjunct _ ih => exact ih
  | and _ _ ihl ihr => exact ⟨ihl, ihr⟩
  | disjunct _ ih => exact ih
  | or _ _ ihl ihr => exact ⟨ihl, ihr⟩

/-- A condition that has been read is `always`, and then nothing was written, or it is well formed. -/
theorem wellFormed_of_parse {tokens : List String} {c : Condition} (h : parse tokens = .ok c) :
    c = .always ∨ c.WellFormed := by
  cases sentence_of_parse h with
  | empty => exact .inl rfl
  | written h => exact .inr h.wellFormed

end Condition

end DiceTally
