import DiceTally.Proofs.Condition.Shape
import DiceTally.Proofs.Value

/-!
# Conditions read back

The words of a condition derive the condition again, unless a negation stands directly under a negation
(`parse_tokens`).
-/

namespace DiceTally

theorem forall₂_writes_text (values : List Value) : List.Forall₂ Condition.Writes (values.map Value.text) values := by
  rw [List.forall₂_map_left_iff, List.forall₂_same]
  exact fun v _ => v.ofText?_text

namespace Condition

/-- No negation stands directly under a negation. -/
def NoDoubleNot : Condition → Prop
  | always | compare _ _ => True
  | modulo _ inner => inner.NoDoubleNot
  | not inner => (∀ c, inner ≠ .not c) ∧ inner.NoDoubleNot
  | and left right => left.NoDoubleNot ∧ right.NoDoubleNot
  | or left right => left.NoDoubleNot ∧ right.NoDoubleNot

theorem leaf_tokens {c : Condition} (hc : c.WellFormed) (h : c.isLeaf = true) : Leaf c.tokens c := by
  induction c with
  | compare comparison operands =>
    have hne : operands ≠ [] := hc
    exact .compare comparison (by simpa using hne) (forall₂_writes_text operands)
  | modulo divisors inner ih =>
    obtain ⟨hne, hzero, hleaf, hinner⟩ := hc
    exact .modulo (by simpa using hne) (forall₂_writes_text divisors) hzero (ih hinner hleaf)
  | _ => cases h

/-- What the words of a condition derive, by themselves and as an operand. -/
structure ReadsBack (c : Condition) : Prop where
  whole : Derives .disjunction c.tokens c
  operand : Derives .negation (c.bracketed c.tokens) c
  negated : (∀ inner, c ≠ .not inner) → Derives .atom (c.bracketed c.tokens) c

theorem ReadsBack.of_atom {c : Condition} (hcompound : c.isCompound = false) (h : Derives .atom c.tokens c) :
    c.ReadsBack := by
  have hbracketed : c.bracketed c.tokens = c.tokens := by simp [bracketed, hcompound]
  refine ⟨.disjunct (.conjunct (.plain h)), ?_, fun _ => ?_⟩
  · rw [hbracketed]
    exact .plain h
  · rw [hbracketed]
    exact h

theorem ReadsBack.of_compound {c : Condition} (hcompound : c.isCompound = true)
    (h : Derives .disjunction c.tokens c) : c.ReadsBack := by
  have hbracketed : c.bracketed c.tokens = "[" :: c.tokens ++ ["]"] := by simp [bracketed, hcompound]
  refine ⟨h, ?_, fun _ => ?_⟩
  · rw [hbracketed]
    exact .plain (.brackets h)
  · rw [hbracketed]
    exact .brackets h

theorem readsBack {c : Condition} (hc : c.WellFormed) (hnot : c.NoDoubleNot) : c.ReadsBack := by
  induction c with
  | always => cases hc
  | compare comparison operands => exact .of_atom rfl (.leaf (leaf_tokens hc rfl))
  | modulo divisors inner _ => exact .of_atom rfl (.leaf (leaf_tokens hc rfl))
  | not inner ih =>
    have hinner := (ih hc hnot.2).negated hnot.1
    have h : Derives .negation (tokens (.not inner)) (.not inner) := .not hinner
    exact ⟨.disjunct (.conjunct h), h, fun hne => absurd rfl (hne inner)⟩
  | and left right ihleft ihright =>
    have hleft := (ihleft hc.1 hnot.1).operand
    have hright := (ihright hc.2 hnot.2).operand
    exact .of_compound rfl (.disjunct (.and (.conjunct hleft) hright))
  | or left right ihleft ihright =>
    have hleft := (ihleft hc.1 hnot.1).operand
    have hright := (ihright hc.2 hnot.2).operand
    exact .of_compound rfl (.or (.disjunct (.conjunct hleft)) (.conjunct hright))

/-- A condition is read from its words. -/
theorem parse_tokens {c : Condition} (hc : c.WellFormed) (hnot : c.NoDoubleNot) : parse c.tokens = .ok c :=
  parse_of_sentence (.written (readsBack hc hnot).whole)

end Condition

end DiceTally
