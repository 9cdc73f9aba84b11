import DiceTally.Condition.Parser
import DiceTally.Proofs.Except

/-!
# The grammar of conditions

A condition is nothing at all, or conjunctions joined by `or`; a conjunction is negations joined by `and`; a
negation is an atom with or without `not` in front; an atom is a comparison or a disjunction between brackets.
`Sentence` is the whole grammar with the tree that belongs to each derivation: `and` and `or` group to the left and
brackets leave no node.

`leaf_of_Leaf` and `Leaf_of_leaf` say that `leaf` reads the comparisons of the grammar.
-/

namespace DiceTally

namespace Condition

/-- A token that writes a value. -/
def Writes (token : String) (v : Value) : Prop := Value.ofText? token = some v

/-- A comparison with its operands, behind any number of `mod` with divisors. -/
inductive Leaf : List String → Condition → Prop
  | compare {tokens : List String} {operands : List Value} (comparison : Comparison) :
    tokens ≠ [] → List.Forall₂ Writes tokens operands →
      Leaf (comparison.keyword :: tokens) (.compare comparison operands)
  | modulo {tokens rest : List String} {divisors : List Value} {inner : Condition} :
    tokens ≠ [] → List.Forall₂ Writes tokens divisors → 0 ∉ divisors → Leaf rest inner →
      Leaf ("mod" :: tokens ++ rest) (.modulo divisors inner)

/-- How tightly the parts of a condition bind. -/
inductive Level where
  | atom
  | negation
  | conjunction
  | disjunction

/-- The tokens of a condition of each level. -/
inductive Derives : Level → List String → Condition → Prop
  | leaf {tokens : List String} {c : Condition} : Leaf tokens c → Derives .atom tokens c
  | brackets {tokens : List String} {c : Condition} :
    Derives .disjunction tokens c → Derives .atom ("[" :: tokens ++ ["]"]) c
  | plain {tokens : List String} {c : Condition} : Derives .atom tokens c → Derives .negation tokens c
  | not {tokens : List String} {c : Condition} : Derives .atom tokens c → Derives .negation ("not" :: tokens) (.not c)
  | conjunct {tokens : List String} {c : Condition} : Derives .negation tokens c → Derives .conjunction tokens c
  | and {before after : List String} {l r : Condition} :
    Derives .conjunction before l → Derives .negation after r →
      Derives .conjunction (before ++ "and" :: after) (.and l r)
  | disjunct {tokens : List String} {c : Condition} : Derives .conjunction tokens c → Derives .disjunction tokens c
  | or {before after : List String} {l r : Condition} :
    Derives .disjunction before l → Derives .conjunction after r →
      Derives .disjunction (before ++ "or" :: after) (.or l r)

/-- A whole condition. -/
inductive Sentence : List String → Condition → Prop
  | empty : Sentence [] .always
  | written {tokens : List String} {c : Condition} : Derives .disjunction tokens c → Sentence tokens c

/-! ### Values -/

theorem readValues_eq_ok_iff {operation : String} {tokens : List String} {values : List Value} :
    readValues operation tokens = .ok values ↔ List.Forall₂ Writes tokens values := by
  unfold readValues
  rw [mapM_eq_ok_iff]
  constructor
  · refine List.Forall₂.imp fun t v h => ?_
    cases htext : Value.ofText? t with
    | none => simp [htext] at h
    | some w => simpa [Writes, htext] using h
  · refine List.Forall₂.imp fun t v h => ?_
    simp [show Value.ofText? t = some v from h]

/-- The words that have a meaning of their own in a condition. -/
def keywords : List String := "[" :: "]" :: "mod" :: Token.comparisons ++ Token.connectives

/-- No keyword writes a value. -/
theorem Writes.not_mem_keywords {t : String} {v : Value} (h : Writes t v) : t ∉ keywords := by
  have hnone : ∀ k ∈ keywords, Value.ofText? k = none := by decide
  intro ht
  rw [Writes, hnone t ht] at h
  cases h

theorem exists_writes_of_mem {tokens : List String} {values : List Value} (h : List.Forall₂ Writes tokens values)
    {t : String} (ht : t ∈ tokens) : ∃ v, Writes t v := by
  obtain ⟨v, -, hv⟩ := exists_of_mem_forall₂ h ht
  exact ⟨v, hv⟩

/-! ### Comparisons -/

theorem ofKeyword?_keyword (comparison : Comparison) :
    Comparison.ofKeyword? comparison.keyword = some comparison := by
  cases comparison <;> decide

theorem keyword_of_ofKeyword? {word : String} {comparison : Comparison}
    (h : Comparison.ofKeyword? word = some comparison) : comparison.keyword = word := by
  have := List.find?_some h
  simpa using this

/-- A comparison begins with a word that ends a list of divisors. -/
theorem Leaf.isComparing_head {tokens : List String} {c : Condition} (h : Leaf tokens c) :
    ∃ t ts, tokens = t :: ts ∧ Token.isComparing t = true := by
  cases h with
  | compare comparison _ _ => exact ⟨_, _, rfl, by cases comparison <;> decide⟩
  | modulo _ _ _ _ => exact ⟨_, _, rfl, by decide⟩

theorem not_isComparing_of_writes {t : String} {v : Value} (h : Writes t v) : Token.isComparing t = false := by
  have hk := h.not_mem_keywords
  simp only [keywords, List.cons_append, List.mem_cons, List.mem_append, not_or] at hk
  obtain ⟨-, -, hmod, hcomparison, hconnective⟩ := hk
  simp [Token.isComparing, hmod, hcomparison, hconnective]

/-- The divisors of a `mod` are all the values after it. -/
theorem span_divisors {tokens rest : List String} {values : List Value} {c : Condition}
    (h : List.Forall₂ Writes tokens values) (hrest : Leaf rest c) :
    (tokens ++ rest).takeWhile (fun t => !Token.isComparing t) = tokens ∧
      (tokens ++ rest).dropWhile (fun t => !Token.isComparing t) = rest := by
  obtain ⟨t, ts, rfl, ht⟩ := hrest.isComparing_head
  have hall : ∀ u ∈ tokens, (!Token.isComparing u) = true := by
    refine ((List.forall₂_and_left tokens values).1 (h.imp fun u v huv => ⟨?_, huv⟩)).1
    simp [not_isComparing_of_writes huv]
  rw [List.takeWhile_append_of_pos hall, List.dropWhile_append_of_pos hall]
  simp [List.takeWhile, List.dropWhile, ht]

/-- The words that a comparison is made of. -/
theorem Leaf.mem {tokens : List String} {c : Condition} (h : Leaf tokens c) {t : String} (ht : t ∈ tokens) :
    t = "mod" ∨ (∃ comparison : Comparison, t = comparison.keyword) ∨ ∃ v, Writes t v := by
  induction h with
  | compare comparison _ hvalues =>
    rcases List.mem_cons.1 ht with rfl | ht
    · exact .inr (.inl ⟨comparison, rfl⟩)
    · exact .inr (.inr (exists_writes_of_mem hvalues ht))
  | modulo _ hvalues _ _ ih =>
    rcases List.mem_append.1 ht with ht | ht
    · rcases List.mem_cons.1 ht with rfl | ht
      · exact .inl rfl
      · exact .inr (.inr (exists_writes_of_mem hvalues ht))
    · exact ih ht

/-- The words that a condition is made of. -/
theorem Derives.mem {level : Level} {tokens : List String} {c : Condition} (h : Derives level tokens c) {t : String}
    (ht : t ∈ tokens) : t ∈ keywords ∨ ∃ v, Writes t v := by
  have hkeyword : "[" ∈ keywords ∧ "]" ∈ keywords ∧ "not" ∈ keywords ∧ "and" ∈ keywords ∧ "or" ∈ keywords := by decide
  induction h with
  | leaf h =>
    rcases h.mem ht with rfl | ⟨comparison, rfl⟩ | hv
    · exact .inl (by decide)
    · exact .inl (by cases comparison <;> decide)
    · exact .inr hv
  | brackets _ ih =>
    rcases List.mem_append.1 ht with ht | ht
    · rcases List.mem_cons.1 ht with rfl | ht
      · exact .inl hkeyword.1
      · exact ih ht
    · exact .inl (List.mem_singleton.1 ht ▸ hkeyword.2.1)
  | plain _ ih => exact ih ht
  | not _ ih =>
    rcases List.mem_cons.1 ht with rfl | ht
    · exact .inl hkeyword.2.2.1
    · exact ih ht
  | conjunct _ ih => exact ih ht
  | and _ _ ihl ihr =>
    rcases List.mem_append.1 ht with ht | ht
    · exact ihl ht
    · rcases List.mem_cons.1 ht with rfl | ht
      · exact .inl hkeyword.2.2.2.1
      · exact ihr ht
  | disjunct _ ih => exact ih ht
  | or _ _ ihl ihr =>
    rcases List.mem_append.1 ht with ht | ht
    · exact ihl ht
    · rcases List.mem_cons.1 ht with rfl | ht
      · exact .inl hkeyword.2.2.2.2
      · exact ihr ht

theorem leaf_of_Leaf {tokens : List String} {c : Condition} (h : Leaf tokens c) : leaf tokens = .ok c := by
  induction h with
  | @compare tokens operands comparison hne hvalues =>
    have hkeyword : comparison.keyword ≠ "mod" := by cases comparison <;> decide
    rw [leaf]
    simp only [if_neg hkeyword, ofKeyword?_keyword]
    rw [if_neg (by simpa using hne), readValues_eq_ok_iff.2 hvalues]
    rfl
  | @modulo tokens rest divisors inner hne hvalues hzero hrest ih =>
    obtain ⟨htake, hdrop⟩ := span_divisors hvalues hrest
    obtain ⟨t, ts, rfl, -⟩ := hrest.isComparing_head
    rw [List.cons_append, leaf]
    simp only [if_true, htake, hdrop, readValues_eq_ok_iff.2 hvalues]
    simp [hne, hzero, ih, bind, Except.bind, pure, Except.pure]

theorem Leaf_of_leaf {tokens : List String} {c : Condition} (h : leaf tokens = .ok c) : Leaf tokens c := by
  fun_induction leaf tokens generalizing c with
  | case1 => cases h
  | case2 => cases h
  | case3 rest divisors inner hne =>
    rename_i ih
    obtain ⟨values, hvalues, h⟩ := bind_eq_ok_iff.1 h
    split at h
    · cases h
    · rename_i hzero
      split at h
      · cases h
      · obtain ⟨c', hc', h⟩ := bind_eq_ok_iff.1 h
        cases h
        rw [show rest = divisors ++ inner from List.takeWhile_append_dropWhile.symm]
        exact .modulo (by simpa using hne) (readValues_eq_ok_iff.1 hvalues) (by simpa using hzero) (ih hc')
  | case4 => cases h
  | case5 => cases h
  | case6 word rest hmod comparison hcomparison hne =>
    obtain ⟨operands, hoperands, rfl⟩ := map_eq_ok_iff.1 h
    rw [← keyword_of_ofKeyword? hcomparison]
    exact .compare comparison (by simpa using hne) (readValues_eq_ok_iff.1 hoperands)

end Condition

end DiceTally
