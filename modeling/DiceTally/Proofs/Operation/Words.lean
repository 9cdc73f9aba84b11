import DiceTally.Proofs.Decimal.Text
import DiceTally.Proofs.Registry
import DiceTally.Proofs.Token
import DiceTally.Pipeline.Cut

/-!
# Numbers, names and parameters as words

A number is one token, no word of the language and no name, so it stays a parameter where it is written
(`stopsParams_of_isNumeric`).  The parameters of a named operation are read back from their words if each number
among them is (`ofToken_render_ofToken`).
-/

namespace DiceTally

/-! ### The vocabulary -/

namespace Token

/-- All words that the language keeps for itself. -/
def reserved : List String :=
  operations ++ ["if", "else", "then", "mod"] ++ comparisons ++ connectives ++ ["[", "]"] ++ roundingTags ++ ["as-base"]

theorem isReserved_eq_true_iff {t : String} : isReserved t = true ↔ t ∈ reserved := by
  simp only [isReserved, isOperation, isLogic, isComparing, isBracket, reserved, Bool.or_eq_true,
    List.contains_iff_mem, beq_iff_eq, List.mem_append, List.mem_cons, List.not_mem_nil, or_false]
  grind

theorem isReserved_of_isNumeric {t : String} (h : isNumeric t = true) : isReserved t = false := by
  have hnone : ∀ w ∈ reserved, isNumeric w = false := by decide +kernel
  refine Bool.eq_false_iff.2 fun hreserved => ?_
  rw [hnone t (isReserved_eq_true_iff.1 hreserved)] at h
  cases h

end Token

theorem Token.isToken_of_mem_reserved {t : String} (h : t ∈ reserved) : IsToken t := by
  have hall : ∀ w ∈ reserved, w = "[" ∨ w = "]" ∨ (w ≠ "" ∧ splitsApart w = false) := by decide +kernel
  exact hall t h

/-! ### Words that no list of parameters ends at -/

section

variable {registry : Registry} (hregistry : registry.Built)

include hregistry

/-- A registered name is not reserved. -/
theorem contains_of_isReserved {t : String} (h : Token.isReserved t = true) : registry.contains t = false :=
  hregistry.namesFree.contains (.inr h)

theorem get?_of_isReserved {t : String} (h : Token.isReserved t = true) : registry.get? t = none :=
  hregistry.namesFree t (.inr h)

theorem stopsParams_of_isNumeric {t : String} (h : isNumeric t = true) : stopsParams registry t = false := by
  have hreserved := Token.isReserved_of_isNumeric h
  have hcontains : registry.contains t = false := hregistry.namesFree.contains (.inl h)
  simp only [Token.isReserved, Bool.or_eq_false_iff] at hreserved
  simp [stopsParams, hreserved, hcontains]

theorem stopsParams_tag (rounding : Rounding) : stopsParams registry rounding.tag = false := by
  have hcontains : registry.contains rounding.tag = false :=
    contains_of_isReserved hregistry (by cases rounding <;> decide)
  cases rounding <;> simp [stopsParams, hcontains] <;> decide

theorem stopsParams_asBase : stopsParams registry "as-base" = false := by
  have hcontains : registry.contains "as-base" = false := contains_of_isReserved hregistry (by decide)
  simp [stopsParams, hcontains]
  decide

end

/-! ### Numbers -/

theorem isNumeric_text (v : Value) : isNumeric v.text = true := by
  simp [isNumeric, v.ofText?_text]

theorem isNumeric_decimalText (d : Decimal) : isNumeric d.text = true := by
  simp [isNumeric, d.ofText?_text]

/-- What is read as a value is one token, with or without a sign. -/
theorem isToken_of_ofText? {t : String} {v : Value} (h : Value.ofText? t = some v) : Token.IsToken t := by
  obtain ⟨n, hn, -⟩ := Option.bind_eq_some_iff.1 h
  have hchars : t.toList ≠ [] ∧ ∀ c ∈ t.toList, c.isDigit = true ∨ c ∈ ['-', '+', '.'] := by
    unfold intOfChars? at hn
    split at hn
    case h_3 =>
      obtain ⟨_, hm, _⟩ := Option.map_eq_some_iff.1 hn
      obtain ⟨m, hm, -⟩ := Option.bind_eq_some_iff.1 hm
      obtain ⟨hne, hdigits⟩ := all_isDigit_of_natOfChars? hm
      exact ⟨hne, fun c hc => .inl (hdigits c hc)⟩
    all_goals
      rename_i cs hcs
      obtain ⟨_, hm, _⟩ := Option.map_eq_some_iff.1 hn
      obtain ⟨m, hm, -⟩ := Option.bind_eq_some_iff.1 hm
      have hdigits := (all_isDigit_of_natOfChars? hm).2
      rw [hcs]
      exact ⟨List.cons_ne_nil _ _, List.forall_mem_cons.2 ⟨.inr (by decide), fun c hc => .inl (hdigits c hc)⟩⟩
  refine Token.isToken_of_number ?_ hchars.2
  rintro rfl
  exact hchars.1 rfl

theorem isToken_text (v : Value) : Token.IsToken v.text := isToken_of_ofText? v.ofText?_text

theorem isToken_decimalText (d : Decimal) : Token.IsToken d.text := by
  refine Token.isToken_of_number ?_ fun c hc => ?_
  · intro h
    have hnil := d.toList_text
    rw [h] at hnil
    have hne : d.magnitudeChars ≠ [] := by simp [Decimal.magnitudeChars, d.wholeDigits_ne_nil]
    exact hne (List.append_eq_nil_iff.1 hnil.symm).2
  · rw [d.toList_text] at hc
    rcases List.mem_append.1 hc with hc | hc
    · split at hc
      · exact .inr (by simp [List.mem_singleton.1 hc])
      · cases hc
    · exact (d.mem_magnitudeChars hc).imp_right fun h => by simp [h]

/-! ### Parameters of named operations -/

namespace Param

/-- A number that is read back as the same number, and not as an integer. -/
def ReadsBack : Param → Prop
  | number d => Value.ofText? d.text = none ∧ Decimal.ofText? d.text = some d
  | _ => True

theorem ofToken_render_ofToken {t : String} (h : (ofToken t).ReadsBack) : ofToken (ofToken t).render = ofToken t := by
  cases hint : Value.ofText? t with
  | some n => simp [ofToken, hint, render, n.ofText?_text]
  | none =>
    cases hnumber : Decimal.ofText? t with
    | some d =>
      have hof : ofToken t = number d := by simp [ofToken, hint, hnumber]
      rw [hof] at h ⊢
      simp [ofToken, render, h.1, h.2]
    | none =>
      have hof : ofToken t = text t := by simp [ofToken, hint, hnumber]
      rw [hof, render, hof]

/-- The word of a parameter is one token. -/
theorem isToken_render_ofToken {t : String} (ht : Token.IsToken t) : Token.IsToken (ofToken t).render := by
  unfold ofToken
  split
  · exact isToken_text _
  · split
    · exact isToken_decimalText _
    · exact ht

/-- The word of a parameter is a parameter again. -/
theorem stopsParams_render_ofToken {registry : Registry} (hregistry : registry.Built) {t : String}
    (h : stopsParams registry t = false) : stopsParams registry (ofToken t).render = false := by
  unfold ofToken
  split
  · exact stopsParams_of_isNumeric hregistry (isNumeric_text _)
  · split
    · exact stopsParams_of_isNumeric hregistry (isNumeric_decimalText _)
    · exact h

end Param

end DiceTally
