import DiceTally.Proofs.Operation.Words
import DiceTally.Proofs.Pipeline.WellFormed

/-!
# The words of an operation are tokens

All words that are written for an operation that has been read are tokens (`isToken_of_mem_tokens`), so they stay
what they are when they are written with spaces between them.
-/

namespace DiceTally

namespace Operation

/-! ### Words and lists of numbers -/

theorem isToken_of_mem_values {values : List Value} {t : String} (h : t ∈ values.map Value.text) :
    Token.IsToken t := by
  obtain ⟨v, -, rfl⟩ := List.mem_map.1 h
  exact isToken_text v

theorem isToken_of_mem_decimals {numbers : List Decimal} {t : String} (h : t ∈ numbers.map Decimal.text) :
    Token.IsToken t := by
  obtain ⟨d, -, rfl⟩ := List.mem_map.1 h
  exact isToken_decimalText d

theorem isToken_of_mem_word_values {word : String} (hword : word ∈ Token.reserved) {values : List Value} {t : String}
    (h : t ∈ word :: values.map Value.text) : Token.IsToken t := by
  rcases List.mem_cons.1 h with rfl | hvalue
  · exact Token.isToken_of_mem_reserved hword
  · exact isToken_of_mem_values hvalue

theorem isToken_toString (size : Nat) : Token.IsToken (toString size) := by
  have hlist : (toString size).toList = Nat.toDigits 10 size := by
    rw [Nat.toString_eq_ofList_toDigits, String.toList_ofList]
  refine Token.isToken_of_number ?_ fun c hc => .inl ?_
  · intro hnil
    rw [hnil] at hlist
    exact Nat.toDigits_ne_nil hlist.symm
  · rw [hlist] at hc
    exact Nat.isDigit_of_mem_toDigits (by decide) (by decide) hc

/-! ### Conditions -/

theorem isToken_of_mem_bracketed {inner : Condition} {t : String} (ih : t ∈ inner.tokens → Token.IsToken t)
    (h : t ∈ inner.bracketed inner.tokens) : Token.IsToken t := by
  unfold Condition.bracketed at h
  split at h
  · simp only [List.cons_append, List.mem_cons, List.mem_append, List.not_mem_nil, or_false] at h
    rcases h with rfl | hinner | rfl
    · exact Token.isToken_of_mem_reserved (by decide)
    · exact ih hinner
    · exact Token.isToken_of_mem_reserved (by decide)
  · exact ih h

/-- Two conditions with a word between them, in brackets where these are needed. -/
theorem isToken_of_mem_connected {left right : Condition} {word t : String} (hword : word ∈ Token.reserved)
    (ihleft : t ∈ left.tokens → Token.IsToken t) (ihright : t ∈ right.tokens → Token.IsToken t)
    (h : t ∈ left.bracketed left.tokens ++ word :: right.bracketed right.tokens) : Token.IsToken t := by
  rcases List.mem_append.1 h with hleft | hright
  · exact isToken_of_mem_bracketed ihleft hleft
  · rcases List.mem_cons.1 hright with rfl | hright
    · exact Token.isToken_of_mem_reserved hword
    · exact isToken_of_mem_bracketed ihright hright

theorem isToken_of_mem_conditionTokens {c : Condition} {t : String} (h : t ∈ c.tokens) : Token.IsToken t := by
  induction c with
  | always =>
    obtain rfl := List.mem_singleton.1 h
    exact .inr (.inr (by decide))
  | compare comparison operands => exact isToken_of_mem_word_values (by cases comparison <;> decide) h
  | modulo divisors inner ih =>
    rcases List.mem_append.1 h with hdivisor | hinner
    · exact isToken_of_mem_word_values (by decide) hdivisor
    · exact ih hinner
  | not inner ih =>
    rcases List.mem_cons.1 h with rfl | hinner
    · exact Token.isToken_of_mem_reserved (by decide)
    · exact isToken_of_mem_bracketed ih hinner
  | and left right ihleft ihright =>
    have hword : "and" ∈ Token.reserved := by decide
    exact isToken_of_mem_connected hword ihleft ihright h
  | or left right ihleft ihright =>
    have hword : "or" ∈ Token.reserved := by decide
    exact isToken_of_mem_connected hword ihleft ihright h

/-! ### Steps -/

theorem isToken_of_mem_stepTokens {step : Primitive} {t : String} (h : t ∈ step.tokens) : Token.IsToken t := by
  have hword {w : String} (hw : w ∈ Token.reserved) : Token.IsToken w := Token.isToken_of_mem_reserved hw
  have htag (rounding : Rounding) : rounding.tag ∈ Token.reserved := by cases rounding <;> decide
  cases step with
  | identity => exact hword (List.mem_singleton.1 h ▸ by decide)
  | reduce reduction => exact hword (List.mem_singleton.1 h ▸ by cases reduction <;> decide)
  | sort => exact hword (List.mem_singleton.1 h ▸ by decide)
  | add values => exact isToken_of_mem_word_values (by decide) h
  | setTo values => exact isToken_of_mem_word_values (by decide) h
  | scale factors rounding =>
    simp only [Primitive.tokens, List.mem_cons] at h
    rcases h with rfl | rfl | h
    · exact hword (by decide)
    · exact hword (htag rounding)
    · exact isToken_of_mem_decimals h
  | exp exponents asBase rounding =>
    simp only [Primitive.tokens, List.cons_append, List.mem_cons, List.mem_append] at h
    rcases h with rfl | h | rfl | h
    · exact hword (by decide)
    · split at h
      · obtain rfl := List.mem_singleton.1 h
        exact hword (by decide)
      · cases h
    · exact hword (htag rounding)
    · exact isToken_of_mem_decimals h
  | bound pairs =>
    rcases List.mem_cons.1 h with rfl | h
    · exact hword (by decide)
    · obtain ⟨⟨lower, upper⟩, -, h⟩ := List.mem_flatMap.1 h
      simp only [List.mem_cons, List.not_mem_nil, or_false] at h
      rcases h with rfl | rfl
      · exact isToken_text _
      · exact isToken_text _
  | reroll c =>
    by_cases hc : c = .always
    · subst hc
      exact hword (List.mem_singleton.1 h ▸ by decide)
    · have htokens : (Primitive.reroll c).tokens = "reroll" :: "if" :: c.tokens := by
        cases c <;> first
          | rfl
          | exact absurd rfl hc
      rw [htokens] at h
      simp only [List.mem_cons] at h
      rcases h with rfl | rfl | h
      · exact hword (by decide)
      · exact hword (by decide)
      · exact isToken_of_mem_conditionTokens h
  | select indices => exact isToken_of_mem_word_values (by decide) h

/-! ### Operations -/

/-- All words of an operation are tokens if those are that it was read from. -/
theorem isToken_of_mem_tokens {registry : Registry} (hregistry : registry.Built) {all : List String}
    (hall : ∀ t ∈ all, Token.IsToken t) {op : Operation} (hop : op.WellFormed registry all) {t : String}
    (h : t ∈ op.tokens) : Token.IsToken t := by
  have hword {w : String} (hw : w ∈ Token.reserved) : Token.IsToken w := Token.isToken_of_mem_reserved hw
  have hcall {name : String} {callable : Callable} (hget : registry.get? name = some callable) {params : List Param}
      (hfrom : ParamsFrom registry all params) (h : t ∈ name :: params.map Param.render) : Token.IsToken t := by
    rcases List.mem_cons.1 h with rfl | h
    · have hentry := hregistry.entry hget
      exact .inr (.inr ⟨hentry.name_ne, hentry.not_splitsApart⟩)
    · obtain ⟨words, rfl, hwords⟩ := hfrom
      simp only [List.map_map, List.mem_map] at h
      obtain ⟨w, hw, rfl⟩ := h
      exact Param.isToken_render_ofToken (hall w (hwords w hw).1)
  induction op with
  | primitive step => exact isToken_of_mem_stepTokens h
  | sliceApply size inner outer ihinner ihouter =>
    simp only [tokens, List.cons_append, List.nil_append, List.mem_cons, List.mem_append, List.not_mem_nil,
      or_false] at h
    rcases h with rfl | rfl | rfl | (h | rfl) | h
    · exact hword (by decide)
    · exact isToken_toString size
    · exact hword (by decide)
    · exact ihinner hop.2.2.1 h
    · exact hword (by decide)
    · split at h
      · cases h
      · exact ihouter hop.2.2.2 h
  | conditional c taken otherwise ihtaken ihotherwise =>
    simp only [tokens, List.cons_append, List.nil_append, List.mem_cons, List.mem_append, List.not_mem_nil,
      or_false] at h
    rcases h with rfl | ((h | rfl | rfl) | h) | h
    · exact hword (by decide)
    · exact ihtaken hop.2.1 h
    · exact hword (by decide)
    · exact hword (by decide)
    · exact isToken_of_mem_conditionTokens h
    · split at h
      · cases h
      · simp only [List.mem_cons, List.mem_append, List.not_mem_nil, or_false] at h
        rcases h with rfl | rfl | h | rfl
        · exact hword (by decide)
        · exact hword (by decide)
        · exact ihotherwise hop.2.2 h
        · exact hword (by decide)
  | native name params function => exact hcall hop.1 hop.2 h
  | defined name params pipeline => exact hcall hop.1 hop.2 h
  | andThen first next ihfirst ihnext =>
    simp only [tokens, List.mem_append] at h
    rcases h with (h | h) | h
    · exact ihfirst hop.1 h
    · split at h
      · obtain rfl := List.mem_singleton.1 h
        exact hword (by decide)
      · cases h
    · exact ihnext hop.2 h
  | validated inner ih => exact ih hop h
  | memoized slot inner ih => exact ih hop h

end Operation

end DiceTally
