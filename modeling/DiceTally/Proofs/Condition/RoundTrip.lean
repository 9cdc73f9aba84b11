import DiceTally.Proofs.Condition.Render
import DiceTally.Proofs.Operation.Tokens
import Mathlib

/-!
# Which conditions read back

Brackets are written around `and` and `or` only.  So a negation of a negation is written as `not not`, which no
condition contains (`Derives.notsApart`), and the empty condition is written with a word that the language does not
have.  All other conditions are read back from their text, and these two are refused (`rendered_reads_back`); no
text is read as another condition.
-/

namespace DiceTally

namespace Condition

/-- No `not` stands directly behind a `not`. -/
def NotsApart (tokens : List String) : Prop := tokens.IsChain fun t u => ¬(t = "not" ∧ u = "not")

theorem NotsApart.of_not_mem {ts : List String} (h : "not" ∉ ts) : NotsApart ts := by
  refine (List.pairwise_of_forall_mem_list fun t ht u _ => ?_).isChain
  rintro ⟨rfl, -⟩
  exact h ht

theorem NotsApart.cons {t : String} {ts : List String} (h : NotsApart ts) (ht : t ≠ "not" ∨ ts.head? ≠ some "not") :
    NotsApart (t :: ts) := by
  refine List.isChain_cons.2 ⟨?_, h⟩
  rintro u hu ⟨rfl, rfl⟩
  exact ht.elim (· rfl) (· hu)

/-- Another word may join what it stands between. -/
theorem NotsApart.join {t : String} {ts us : List String} (hts : NotsApart ts) (ht : t ≠ "not") (hus : NotsApart us) :
    NotsApart (ts ++ t :: us) := by
  refine List.isChain_append.2 ⟨hts, hus.cons (.inl ht), ?_⟩
  rintro x - u hu ⟨-, rfl⟩
  exact ht (Option.some.inj hu)

theorem NotsApart.part {ts us : List String} (h : NotsApart us) (hpart : ts <:+: us) : NotsApart ts :=
  List.IsChain.infix h hpart

/-! ### What is read -/

theorem Leaf.not_mem_not {ts : List String} {c : Condition} (h : Leaf ts c) : "not" ∉ ts := by
  intro hmem
  have := h.marker? "not" hmem
  cases this

/-- An atom starts with a comparison or a bracket. -/
theorem Derives.head_ne_not {ts : List String} {c : Condition} (h : Derives .atom ts c) : ts.head? ≠ some "not" := by
  cases h with
  | leaf h => exact fun hhead => h.not_mem_not (List.mem_of_head? hhead)
  | brackets => simp

theorem Derives.notsApart {level : Level} {ts : List String} {c : Condition} (h : Derives level ts c) :
    NotsApart ts := by
  induction h with
  | leaf h => exact .of_not_mem h.not_mem_not
  | brackets _ ih =>
    exact (ih.join (by decide) .nil).cons (.inl (by decide))
  | plain _ ih => exact ih
  | not h ih => exact ih.cons (.inr h.head_ne_not)
  | conjunct _ ih => exact ih
  | and _ _ ihl ihr => exact ihl.join (by decide) ihr
  | disjunct _ ih => exact ih
  | or _ _ ihl ihr => exact ihl.join (by decide) ihr

theorem notsApart_of_parse {ts : List String} {c : Condition} (h : parse ts = .ok c) : NotsApart ts := by
  cases sentence_of_parse h with
  | empty => exact .nil
  | written h => exact h.notsApart

/-! ### What is written -/

/-- The words of an operand stand together, in brackets or not. -/
theorem tokens_infix_bracketed (c : Condition) : c.tokens <:+: c.bracketed c.tokens := by
  unfold bracketed
  split
  · exact ⟨["["], ["]"], rfl⟩
  · exact List.infix_rfl

theorem tokens_infix_connected (left right : Condition) (word : String) :
    left.tokens <:+: left.bracketed left.tokens ++ word :: right.bracketed right.tokens ∧
      right.tokens <:+: left.bracketed left.tokens ++ word :: right.bracketed right.tokens :=
  ⟨(tokens_infix_bracketed left).trans (List.prefix_append _ _).isInfix,
    ((tokens_infix_bracketed right).trans (List.suffix_cons _ _).isInfix).trans (List.suffix_append _ _).isInfix⟩

/-- A negation of a negation is written as `not not`, wherever it stands. -/
theorem noDoubleNot_of_notsApart {c : Condition} (h : NotsApart c.tokens) : c.NoDoubleNot := by
  induction c with
  | always | compare => trivial
  | modulo divisors inner ih => exact ih (h.part (List.suffix_append _ _).isInfix)
  | not inner ih =>
    refine ⟨?_, ih (h.part ((tokens_infix_bracketed inner).trans (List.suffix_cons _ _).isInfix))⟩
    rintro c rfl
    exact (List.isChain_cons_cons.1 h).1 ⟨rfl, rfl⟩
  | and left right ihleft ihright =>
    obtain ⟨hleft, hright⟩ := tokens_infix_connected left right "and"
    exact ⟨ihleft (h.part hleft), ihright (h.part hright)⟩
  | or left right ihleft ihright =>
    obtain ⟨hleft, hright⟩ := tokens_infix_connected left right "or"
    exact ⟨ihleft (h.part hleft), ihright (h.part hright)⟩

theorem normalize_render (c : Condition) : Token.normalize [c.render] = c.tokens :=
  Token.normalize_unwords fun _ ht => Operation.isToken_of_mem_conditionTokens ht

theorem parse_tokens_always : parse (tokens .always) = .error (.unknownComparison "always") := by
  cbv

/-- The text of a condition that has been read is read as the same condition, but for the empty condition and for
conditions in which a negation stands under a negation: their texts are refused. -/
theorem rendered_reads_back {tokens : List String} {c : Condition} (h : parse tokens = .ok c) :
    (c ≠ .always ∧ c.NoDoubleNot → parse (Token.normalize [c.render]) = .ok c) ∧
    (c = .always ∨ ¬c.NoDoubleNot → ∃ e, parse (Token.normalize [c.render]) = .error e) := by
  rw [normalize_render]
  constructor
  · rintro ⟨hwritten, hnot⟩
    exact parse_tokens ((wellFormed_of_parse h).resolve_left hwritten) hnot
  · rintro (rfl | hnot)
    · exact ⟨_, parse_tokens_always⟩
    · rw [exists_eq_error_iff]
      rintro ⟨c', hc'⟩
      exact hnot (noDoubleNot_of_notsApart (notsApart_of_parse hc'))

theorem rendered_reads_back_negated :
    parse ["not", "[", "[", "not", "eq", "1", "]", "or", "ge", "3", "]"] =
      .ok (.not (.or (.not (.compare .eq [1])) (.compare .ge [3]))) ∧
    parse (Token.normalize [render (.not (.or (.not (.compare .eq [1])) (.compare .ge [3])))]) =
      .ok (.not (.or (.not (.compare .eq [1])) (.compare .ge [3]))) := by
  have hparse : parse ["not", "[", "[", "not", "eq", "1", "]", "or", "ge", "3", "]"] =
      .ok (.not (.or (.not (.compare .eq [1])) (.compare .ge [3]))) := by cbv
  refine ⟨hparse, (rendered_reads_back hparse).1 ⟨by decide, ?_⟩⟩
  simp [NoDoubleNot]

/-- A negation of a negation, and the empty condition. -/
theorem refused_as_rendered :
    parse ["not", "[", "not", "eq", "1", "]"] = .ok (.not (.not (.compare .eq [1]))) ∧
    render (.not (.not (.compare .eq [1]))) = "not not eq 1" ∧
    parse (Token.normalize ["not not eq 1"]) = .error (.condition .doubleNegation) ∧
    parse [] = .ok .always ∧ render .always = "always" ∧
    parse (Token.normalize ["always"]) = .error (.unknownComparison "always") := by
  refine ⟨?_, ?_, ?_, ?_, ?_, ?_⟩ <;> cbv

end Condition

end DiceTally
