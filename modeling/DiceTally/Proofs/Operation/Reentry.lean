import DiceTally.Proofs.Condition.RoundTrip
import DiceTally.Proofs.Operation.Render
import DiceTally.Proofs.Pipeline.BlockSizes
import DiceTally.Proofs.Pipeline.Composition

/-!
# Rendered pipelines entered again

What is written for a pipeline can be entered in its place if the pipeline is legible, and is refused otherwise
(`exists_parse_render_iff`).  Each of its named operations then receives the parameters that are read from the words
of its own (`parse_render_reread`).  These are the same parameters, but for the numbers that look like integers
(`reread_laws`).
-/

namespace DiceTally

/-! ### Written words -/

/-- Balanced tokens none of which belongs to an `if` block: a condition can consist of them. -/
structure Inert (tokens : List String) : Prop where
  balanced : Balanced tokens
  not_logic : ∀ t ∈ tokens, Token.isLogic t = false

namespace Inert

variable {ts us : List String}

theorem cons {t : String} (hbracket : Token.isBracket t = false) (hlogic : Token.isLogic t = false) (hts : Inert ts) :
    Inert (t :: ts) :=
  ⟨hts.balanced.cons hbracket, List.forall_mem_cons.2 ⟨hlogic, hts.not_logic⟩⟩

theorem append (hts : Inert ts) (hus : Inert us) : Inert (ts ++ us) :=
  ⟨hts.balanced.append hus.balanced, List.forall_mem_append.2 ⟨hts.not_logic, hus.not_logic⟩⟩

theorem brackets (hts : Inert ts) : Inert ("[" :: ts ++ ["]"]) := by
  refine ⟨hts.balanced.brackets, fun t ht => ?_⟩
  simp only [List.cons_append, List.mem_cons, List.mem_append, List.not_mem_nil, or_false] at ht
  rcases ht with rfl | ht | rfl
  · decide
  · exact hts.not_logic t ht
  · decide

theorem values (values : List Value) : Inert (values.map Value.text) := by
  have hfree : ∀ t ∈ values.map Value.text, Token.isReserved t = false := by
    intro t ht
    obtain ⟨v, -, rfl⟩ := List.mem_map.1 ht
    exact Token.isReserved_of_isNumeric (isNumeric_text v)
  simp only [Token.isReserved, Bool.or_eq_false_iff] at hfree
  exact ⟨.of_words fun t ht => (hfree t ht).1.1.2, fun t ht => (hfree t ht).1.1.1.1.2⟩

theorem passes (hts : Inert ts) : Passes Guard.endsCondition ts := by
  refine .of_balanced hts.balanced fun t ht => ?_
  have hlogic := hts.not_logic t ht
  simp only [Token.isLogic, Bool.or_eq_false_iff] at hlogic
  simp [hlogic]

end Inert

namespace Condition

theorem inert_bracketed {c : Condition} (h : Inert c.tokens) : Inert (c.bracketed c.tokens) := by
  unfold bracketed
  split
  · exact h.brackets
  · exact h

/-- The words of a condition, whether they can be read or not. -/
theorem inert_tokens (c : Condition) : Inert c.tokens := by
  induction c with
  | always => exact .cons (by decide) (by decide) (.values [])
  | compare comparison operands =>
    exact .cons (by cases comparison <;> decide) (by cases comparison <;> decide) (.values operands)
  | modulo divisors inner ih => exact ((Inert.values divisors).append ih).cons (by decide) (by decide)
  | not inner ih => exact (inert_bracketed ih).cons (by decide) (by decide)
  | and left right ihleft ihright =>
    exact (inert_bracketed ihleft).append ((inert_bracketed ihright).cons (by decide) (by decide))
  | or left right ihleft ihright =>
    exact (inert_bracketed ihleft).append ((inert_bracketed ihright).cons (by decide) (by decide))

/-- A condition whose words can be read. -/
theorem legible_of_parse_tokens {c c' : Condition} (h : parse c.tokens = .ok c') : c ≠ .always ∧ c.NoDoubleNot := by
  refine ⟨?_, noDoubleNot_of_notsApart (notsApart_of_parse h)⟩
  rintro rfl
  cases parse_tokens_always.symm.trans h

end Condition

namespace Operation

/-- The words of an operation are balanced and begin a stage, whether they can be read or not. -/
structure Written (registry : Registry) (op : Operation) : Prop where
  balanced : Balanced op.tokens
  starts : ∃ head tail, op.tokens = head :: tail ∧ StartsStage registry head

theorem Written.ne_nil {registry : Registry} {op : Operation} (h : Written registry op) : op.tokens ≠ [] := by
  obtain ⟨head, tail, hhead, -⟩ := h.starts
  simp [hhead]

section

variable {registry : Registry} (hregistry : registry.Built)

include hregistry

theorem written_step {step : Primitive} (hstep : step.WellFormed) : Written registry (primitive step) := by
  by_cases hreroll : ∃ c, step = .reroll c
  · obtain ⟨c, rfl⟩ := hreroll
    by_cases hc : c = .always
    · subst hc
      exact ⟨Balanced.nil.cons (by decide), _, _, rfl, .inr (.inl (by decide))⟩
    · obtain ⟨htokens, -⟩ := reroll_of_ne_always hc
      refine ⟨?_, _, _, htokens, .inr (.inl (by decide))⟩
      rw [htokens]
      exact (c.inert_tokens.balanced.cons (by decide)).cons (by decide)
  · obtain ⟨name, params, built, htokens, hname, -, hparams, -⟩ :=
      exists_ofWords_tokens hregistry hstep fun c hc => hreroll ⟨c, hc⟩
    have hwords : ∀ w ∈ Token.operations, Token.isBracket w = false ∧ Token.isOperation w = true := by decide
    refine ⟨?_, name, params, htokens, .inr (.inl (hwords name hname).2)⟩
    rw [tokens, htokens]
    exact (Balanced.of_params hparams).cons (hwords name hname).1

theorem written_call {name : String} {callable : Callable} (hget : registry.get? name = some callable)
    {all : List String} {params : List Param} (hfrom : ParamsFrom registry all params) :
    Written registry (callable.call name params) := by
  obtain ⟨htokens, -⟩ := words_call name params callable
  refine ⟨?_, name, _, htokens, .inr (.inr (Registry.contains_eq_true_iff.2 ⟨callable, hget⟩))⟩
  rw [htokens]
  exact (Balanced.of_params (hfrom.stopsParams hregistry)).cons (word_of_registered hregistry hget).1

theorem written {all : List String} {op : Operation} (hop : op.WellFormed registry all) (hplain : op.Unwrapped) :
    Written registry op := by
  induction op with
  | primitive step => exact written_step hregistry hop
  | sliceApply size inner outer ihinner ihouter =>
    have hsize := stopsParams_of_isNumeric hregistry
      (isNumeric_of_readBlockSize (readBlockSize_toString hop.1 hop.2.1 "slice-apply"))
    have hparam : ∀ p ∈ [toString size], stopsParams registry p = false := by simpa using hsize
    have hwords : Balanced ["slice-apply", toString size] := (Balanced.of_params hparam).cons (by decide)
    have hinner := hwords.append (ihinner hop.2.2.1 hplain.1).balanced.brackets
    refine ⟨?_, _, _, rfl, .inr (.inl (by decide))⟩
    cases hidentity : outer.isIdentity with
    | true => simpa [tokens, hidentity] using hinner
    | false => simpa [tokens, hidentity] using hinner.append (ihouter hop.2.2.2 hplain.2).balanced
  | conditional c taken otherwise ihtaken ihotherwise =>
    have hif : Balanced ("if" :: c.tokens) := c.inert_tokens.balanced.cons (by decide)
    have htaken := (ihtaken hop.2.1 hplain.1).balanced.group hif
    refine ⟨?_, _, _, rfl, .inl rfl⟩
    cases hidentity : otherwise.isIdentity with
    | true => simpa [tokens, hidentity] using htaken
    | false =>
      have helse : Balanced ("else" :: ("[" :: otherwise.tokens ++ ["]"])) :=
        (ihotherwise hop.2.2 hplain.2).balanced.brackets.cons (by decide)
      simpa [tokens, hidentity] using htaken.append helse
  | native name params function => exact written_call hregistry hop.1 hop.2
  | defined name params pipeline => exact written_call hregistry hop.1 hop.2
  | andThen first next ihfirst ihnext =>
    obtain ⟨hfirst, head, tail, hhead, hstarts⟩ := ihfirst hop.1 hplain.1
    have hnext := (ihnext hop.2 hplain.2).balanced
    refine ⟨?_, head, _, by rw [tokens, hhead, List.append_assoc, List.cons_append], hstarts⟩
    rw [tokens]
    refine (hfirst.append ?_).append hnext
    split
    · exact Balanced.nil.cons (by decide)
    · exact .nil
  | validated inner _ => exact hplain.elim
  | memoized slot inner _ => exact hplain.elim

end

/-! ### What is read has been legible -/

/-- What can be said of an operation if its words are read, in front of what follows them. -/
def Enters (registry : Registry) (op : Operation) : Prop :=
  ∀ after rest read, Closes registry op.openEnded after rest → Means registry (op.tokens ++ after) read →
    op.Legible ∧ ∃ next, Continues registry rest next

theorem Enters.of_stage {registry : Registry} {op : Operation}
    (h : ∀ after rest rest' first, Closes registry op.openEnded after rest →
      StageMeans registry (op.tokens ++ after) rest' first → op.Legible ∧ rest' = rest) : Enters registry op := by
  intro after rest read hclose hmeans
  obtain ⟨rest', first, next, hfirst, hnext, -⟩ := hmeans.exists_stageMeans
  obtain ⟨hlegible, rfl⟩ := h after rest rest' first hclose hfirst
  exact ⟨hlegible, next, hnext⟩

theorem Enters.alone {registry : Registry} {op read : Operation} (h : Enters registry op)
    (hmeans : Means registry op.tokens read) : op.Legible := by
  rw [← List.append_nil op.tokens] at hmeans
  exact (h [] [] read .nothing hmeans).1

theorem Continues.means {registry : Registry} {tokens : List String} {op : Operation}
    (h : Continues registry tokens op) (hne : tokens ≠ []) : Means registry tokens op := by
  cases h with
  | nothing => exact absurd rfl hne
  | next h => exact h

/-- A pipeline between brackets, and the `if` block after it. -/
theorem means_of_group {registry : Registry} {body after rest' : List String} {first : Operation}
    (hbody : Balanced body) (hne : body ≠ []) (h : StageMeans registry ("[" :: body ++ "]" :: after) rest' first) :
    rest' = (splitGuard after).2 ∧ (∃ inner, Means registry body inner) ∧
      ∀ guard, (splitGuard after).1 = some guard → (∃ c, Condition.parse guard.condition = .ok c) ∧
        ∀ branch, guard.otherwise = some branch → ∃ other, Means registry branch other := by
  obtain ⟨cut, hcut, rfl, read, -, hreads⟩ := h
  rw [Cut.ofTokens_group registry hbody hne after] at hcut
  cases hcut
  refine ⟨rfl, ?_⟩
  generalize (splitGuard after).1 = block at hreads
  obtain ⟨k, hread⟩ : ∃ k, Reads ⟨registry, .plain⟩ (.stage ⟨.group body block, (splitGuard after).2⟩) 0 read k :=
    ⟨0, hreads 0⟩
  cases hread with
  | group hinner hop =>
    refine ⟨⟨_, means_of_reads hinner⟩, ?_⟩
    rintro guard rfl
    cases hop with
    | guarded hcondition => exact ⟨⟨_, hcondition⟩, fun _ h => by cases h⟩
    | branched hcondition hother =>
      refine ⟨⟨_, hcondition⟩, ?_⟩
      rintro _ ⟨⟩
      cases hother with
      | branch _ hbranch => exact ⟨_, means_of_reads hbranch⟩

section

variable {registry : Registry} (hregistry : registry.Built)

include hregistry

/-- A stage without brackets and `if` block leaves what it is followed by. -/
theorem rest_of_word {head : String} (hbracket : Token.isBracket head = false) (hlogic : Token.isLogic head = false)
    (hslices : head ≠ "slice-apply") {params : List String} (hparams : ∀ p ∈ params, stopsParams registry p = false)
    {after rest rest' : List String} {first : Operation} (hclose : Closes registry false after rest)
    (h : StageMeans registry (head :: params ++ after) rest' first) : rest' = rest := by
  obtain ⟨cut, hcut, rfl, -⟩ := h
  rw [Cut.ofTokens_word registry hbracket hlogic params hparams hclose.endsParams, if_neg hslices,
    hclose.splitGuard hregistry] at hcut
  cases hcut
  rfl

theorem enters_step {step : Primitive} (hstep : step.WellFormed) (hreroll : ∀ c, step ≠ .reroll c) :
    Enters registry (primitive step) := by
  refine .of_stage fun after rest rest' first hclose h => ?_
  obtain ⟨name, params, built, htokens, hname, -, hparams, hbuilt, -⟩ :=
    exists_ofWords_tokens hregistry hstep hreroll
  have hplain : (primitive step).openEnded = false ∧ (primitive step).Legible := by
    cases step <;> first
      | exact ⟨rfl, trivial⟩
      | exact absurd rfl (hreroll _)
  have hwords : ∀ w ∈ Token.operations, Token.isBracket w = false ∧ Token.isLogic w = false := by decide
  have hslices : name ≠ "slice-apply" := by
    rintro rfl
    cases hbuilt
  rw [hplain.1] at hclose
  rw [tokens, htokens] at h
  exact ⟨hplain.2, rest_of_word hregistry (hwords name hname).1 (hwords name hname).2 hslices hparams hclose h⟩

theorem enters_reroll (c : Condition) : Enters registry (primitive (.reroll c)) := by
  refine .of_stage fun after rest rest' first hclose h => ?_
  by_cases hc : c = .always
  · subst hc
    have hword := @rest_of_word _ hregistry "reroll" (by decide) (by decide) (by decide) [] (by simp)
    exact ⟨trivial, hword hclose h⟩
  · obtain ⟨htokens, hopen⟩ := reroll_of_ne_always hc
    rw [hopen] at hclose
    rw [htokens] at h
    have hif : EndsParams registry ("if" :: c.tokens ++ after) := .of_isLogic (by decide) registry _
    have hword := @Cut.ofTokens_word registry "reroll" (by decide) (by decide) [] _ (by simp) hif
    obtain ⟨cut, hcut, rfl, read, -, hreads⟩ := h
    rw [if_neg (by decide), hclose.splitGuard_if c.inert_tokens.passes] at hword
    cases hword.symm.trans hcut
    refine ⟨?_, rfl⟩
    obtain ⟨k, hread⟩ : ∃ k, Reads ⟨registry, .plain⟩ (.stage ⟨.call "reroll" [] (some ⟨c.tokens, none⟩), rest⟩) 0
      read k := ⟨0, hreads 0⟩
    cases hread with
    | rerollIf _ hcondition => exact (Condition.legible_of_parse_tokens hcondition).2
    | builtIn _ hname => exact absurd rfl hname

theorem enters_call {name : String} {callable : Callable} (hget : registry.get? name = some callable)
    {all : List String} {params : List Param} (hfrom : ParamsFrom registry all params) :
    Enters registry (callable.call name params) := by
  refine .of_stage fun after rest rest' first hclose h => ?_
  obtain ⟨hbracket, hlogic, hslices⟩ := word_of_registered hregistry hget
  obtain ⟨htokens, hopen, hlegible⟩ := words_call name params callable
  rw [hopen] at hclose
  rw [htokens] at h
  exact ⟨hlegible, rest_of_word hregistry hbracket hlogic hslices (hfrom.stopsParams hregistry) hclose h⟩

omit hregistry in
theorem legible_of_isIdentity {op : Operation} (h : op.isIdentity = true) : op.Legible := by
  induction op with
  | primitive step => cases step <;> trivial
  | validated inner ih => exact ih h
  | memoized _ inner ih => exact ih h
  | _ => cases h

theorem enters_sliceApply {size : Nat} (hpos : 0 < size) (hlt : (size : Int) < Value.bound) {inner outer : Operation}
    (hwritten : Written registry inner) (hstarts : Written registry outer) (hinner : Enters registry inner)
    (houter : Enters registry outer) : Enters registry (sliceApply size inner outer) := by
  intro after rest read hclose h
  have hstop := stopsParams_of_isNumeric hregistry
    (isNumeric_of_readBlockSize (readBlockSize_toString hpos hlt "slice-apply"))
  obtain ⟨rest₀, first, next, hfirst, -⟩ := h.exists_stageMeans
  -- the words of the outer operation, if it is written, and what comes after it
  have hblock {more : List String} (hmore : Closes registry false more more)
      (hfirst : StageMeans registry ("slice-apply" :: toString size :: ("[" :: inner.tokens ++ "]" :: more)) rest₀
        first) : inner.Legible ∧ ∃ outer', Continues registry more outer' := by
    obtain ⟨-, _, after', inner', outer', -, hgroup, houter', -⟩ :=
      hfirst.of_slices hstop (.of_startsStage (.inl rfl) _)
    obtain ⟨rfl, ⟨body, hbody⟩, -⟩ := means_of_group hwritten.balanced hwritten.ne_nil hgroup
    rw [hmore.splitGuard hregistry] at houter'
    exact ⟨hinner.alone hbody, outer', houter'⟩
  cases hidentity : outer.isIdentity with
  | true =>
    rw [openEnded, openEnded_of_isIdentity hidentity] at hclose
    have hafter : after = rest := by cases hclose <;> rfl
    subst hafter
    obtain ⟨hlegible, hrest⟩ := hblock hclose (by simpa [tokens, hidentity] using hfirst)
    exact ⟨⟨hlegible, legible_of_isIdentity hidentity⟩, hrest⟩
  | false =>
    obtain ⟨head, tail, hhead, hstart⟩ := hstarts.starts
    have hmore : Closes registry false (outer.tokens ++ after) (outer.tokens ++ after) := by
      rw [hhead]
      exact .next hstart
    obtain ⟨hlegible, outer', houter'⟩ := hblock hmore (by simpa [tokens, hidentity] using hfirst)
    obtain ⟨houterLegible, hrest⟩ := houter after rest outer' hclose (houter'.means (by simp [hhead]))
    exact ⟨⟨hlegible, houterLegible⟩, hrest⟩

omit hregistry in
theorem enters_conditional {c : Condition} {taken otherwise : Operation} (hwritten : Written registry taken)
    (hwrittenOther : Written registry otherwise) (htaken : Enters registry taken)
    (hotherwise : Enters registry otherwise) : Enters registry (conditional c taken otherwise) := by
  refine .of_stage fun after rest rest' first hclose h => ?_
  cases hidentity : otherwise.isIdentity with
  | true =>
    have hwords : (conditional c taken otherwise).tokens ++ after =
        "[" :: taken.tokens ++ "]" :: ("if" :: c.tokens ++ after) := by simp [tokens, hidentity]
    rw [hwords] at h
    obtain ⟨rfl, ⟨inner, hinner⟩, hguard⟩ := means_of_group hwritten.balanced hwritten.ne_nil h
    rw [hclose.splitGuard_if c.inert_tokens.passes] at hguard ⊢
    obtain ⟨⟨c', hc'⟩, -⟩ := hguard _ rfl
    obtain ⟨hc, hnot⟩ := Condition.legible_of_parse_tokens hc'
    exact ⟨⟨hc, hnot, htaken.alone hinner, legible_of_isIdentity hidentity⟩, rfl⟩
  | false =>
    have hwords : (conditional c taken otherwise).tokens ++ after =
        "[" :: taken.tokens ++ "]" :: ("if" :: c.tokens ++ "else" :: ("[" :: otherwise.tokens ++ ["]"]) ++ after) := by
      simp [tokens, hidentity]
    rw [hwords] at h
    obtain ⟨rfl, ⟨inner, hinner⟩, hguard⟩ := means_of_group hwritten.balanced hwritten.ne_nil h
    rw [hclose.splitGuard_else c.inert_tokens.passes (.brackets hwrittenOther.balanced)] at hguard ⊢
    obtain ⟨⟨c', hc'⟩, hbranch⟩ := hguard _ rfl
    obtain ⟨hc, hnot⟩ := Condition.legible_of_parse_tokens hc'
    obtain ⟨other, hother⟩ := hbranch _ rfl
    -- the branch is a pipeline of one stage, the brackets
    obtain ⟨_, _, _, hstage, -⟩ := hother.exists_stageMeans
    obtain ⟨-, ⟨body, hbody⟩, -⟩ := means_of_group hwrittenOther.balanced hwrittenOther.ne_nil hstage
    exact ⟨⟨hc, hnot, htaken.alone hinner, hotherwise.alone hbody⟩, rfl⟩

omit hregistry in
theorem enters_andThen {first next : Operation} (hstarts : Written registry next) (hfirst : Enters registry first)
    (hnext : Enters registry next) : Enters registry (andThen first next) := by
  intro after rest read hclose h
  obtain ⟨head, tail, hhead, hstart⟩ := hstarts.starts
  have hclosing : Closes registry first.openEnded (first.closing ++ (next.tokens ++ after)) (next.tokens ++ after) := by
    rw [hhead]
    exact .next hstart
  have hwords : (andThen first next).tokens ++ after = first.tokens ++ (first.closing ++ (next.tokens ++ after)) := by
    simp [tokens, closing]
  rw [hwords] at h
  obtain ⟨hlegible, following, hfollowing⟩ := hfirst _ _ read hclosing h
  obtain ⟨hnextLegible, hrest⟩ := hnext after rest following hclose (hfollowing.means (by simp [hhead]))
  exact ⟨⟨hlegible, hnextLegible⟩, hrest⟩

/-- An operation whose words are read is legible. -/
theorem enters {all : List String} {op : Operation} (hop : op.WellFormed registry all) (hplain : op.Unwrapped) :
    Enters registry op := by
  induction op with
  | primitive step =>
    cases step with
    | reroll c => exact enters_reroll hregistry c
    | _ => exact enters_step hregistry hop (by simp)
  | sliceApply size inner outer ihinner ihouter =>
    obtain ⟨hpos, hlt, hinner, houter⟩ := hop
    exact enters_sliceApply hregistry hpos hlt (written hregistry hinner hplain.1) (written hregistry houter hplain.2)
      (ihinner hinner hplain.1) (ihouter houter hplain.2)
  | conditional c taken otherwise ihtaken ihotherwise =>
    exact enters_conditional (written hregistry hop.2.1 hplain.1) (written hregistry hop.2.2 hplain.2)
      (ihtaken hop.2.1 hplain.1) (ihotherwise hop.2.2 hplain.2)
  | native name params function => exact enters_call hregistry hop.1 hop.2
  | defined name params pipeline => exact enters_call hregistry hop.1 hop.2
  | andThen first next ihfirst ihnext =>
    exact enters_andThen (written hregistry hop.2 hplain.2) (ihfirst hop.1 hplain.1) (ihnext hop.2 hplain.2)
  | validated inner _ => exact hplain.elim
  | memoized slot inner _ => exact hplain.elim

end

/-! ### The rendered pipeline -/

theorem legible_wrapped (options : ParseOptions) (top : Bool) (op : Operation) (slot : Nat) :
    (wrapped options top op slot).1.Legible ↔ op.Legible := by
  unfold wrapped
  dsimp only
  split <;> split <;> rfl

theorem legible_wrapLevels (options : ParseOptions) (top : Bool) (op : Operation) (slot : Nat) :
    (op.wrapLevels options top slot).1.Legible ↔ op.Legible := by
  induction op generalizing top slot with
  | sliceApply size inner outer ihinner ihouter => simp [wrapLevels, Legible, ihinner, ihouter]
  | conditional c taken otherwise ihtaken ihotherwise => simp [wrapLevels, Legible, ihtaken, ihotherwise]
  | andThen first next ihfirst ihnext => simp [wrapLevels, Legible, ihfirst, ihnext]
  | validated inner ih => simp [wrapLevels, Legible, ih, legible_wrapped]
  | memoized _ inner ih => simp [wrapLevels, Legible, ih]
  | _ => rfl

section

variable {registry : Registry} (hregistry : registry.Built) {options : ParseOptions} {words : List String}
  {op : Operation}

/-- What is read under some options, without its wrapping: the same words, and the same operation under all changes
of its parameters. -/
theorem exists_plain_of_parse (h : parse ⟨registry, options⟩ words = .ok op) :
    ∃ plain, parse ⟨registry, .plain⟩ words = .ok plain ∧ plain.tokens = op.tokens ∧ (plain.Legible ↔ op.Legible) ∧
      ∀ f, (plain.mapParams f).SameCauses (op.mapParams f) := by
  rw [parse_eq_map_outline] at h
  obtain ⟨outline, houtline, rfl⟩ := map_eq_ok_iff.1 h
  refine ⟨(outline.wrapLevels .plain true 0).1, ?_, by simp, by simp only [legible_wrapLevels], fun f => ?_⟩
  · rw [parse_eq_map_outline, houtline]
    rfl
  · have hplain := congrArg Prod.fst (wrapLevels_mapParams f .plain true outline 0)
    have hop := congrArg Prod.fst (wrapLevels_mapParams f options true outline 0)
    simp only [Prod.map_fst] at hplain hop
    rw [← hplain, ← hop]
    exact sameCauses_wrapLevels .plain options true true _ 0 0

include hregistry

theorem normalize_render (h : parse ⟨registry, options⟩ words = .ok op) : Token.normalize [op.render] = op.tokens :=
  Token.normalize_unwords fun _ ht =>
    isToken_of_mem_tokens hregistry (fun _ ht => Token.isToken_of_mem_normalize ht) (wellFormed_of_parse h) ht

/-- The words of a legible operation are read, under the same options, as the operation with its parameters read
back. -/
theorem parse_render_reread (h : parse ⟨registry, options⟩ words = .ok op) (hlegible : op.Legible) :
    ∃ op', parse ⟨registry, options⟩ [op.render] = .ok op' ∧ op'.SameCauses (op.mapParams Param.reread) := by
  obtain ⟨plain, hparse, htokens, hlegiblePlain, hsame⟩ := exists_plain_of_parse h
  have hmeans := (rereads_legible hregistry (wellFormed_of_parse hparse) (hlegiblePlain.2 hlegible)
    (unwrapped_of_parse hparse)).alone
  rw [htokens, ← normalize_render hregistry h] at hmeans
  obtain ⟨op', hop', hcauses⟩ := parse_of_means hmeans options
  exact ⟨op', hop', fun dice => (hcauses dice).trans (hsame Param.reread dice)⟩

/-- What is rendered can be entered again if and only if it is legible. -/
theorem exists_parse_render_iff (h : parse ⟨registry, options⟩ words = .ok op) :
    (∃ op', parse ⟨registry, options⟩ [op.render] = .ok op') ↔ op.Legible := by
  constructor
  · rintro ⟨op', hop'⟩
    obtain ⟨plain, hparse, htokens, hlegible, -⟩ := exists_plain_of_parse h
    obtain ⟨read, hmeans, -⟩ := means_of_parse hop'
    rw [normalize_render hregistry h, ← htokens] at hmeans
    exact hlegible.1 ((enters hregistry (wellFormed_of_parse hparse) (unwrapped_of_parse hparse)).alone hmeans)
  · intro hlegible
    obtain ⟨op', hop', -⟩ := parse_render_reread hregistry h hlegible
    exact ⟨op', hop'⟩

end

/-- A parameter comes back from its word as the same parameter, unless it is a number that looks like an integer:
this comes back as the integer.  A rendered pipeline that is entered again does what the pipeline does with each
parameter of a named operation come back from its word. -/
theorem reread_laws (t : String) {registry : Registry} (hregistry : registry.Built) {options : ParseOptions}
    {words : List String} {op : Operation} (h : parse ⟨registry, options⟩ words = .ok op) :
    ((Param.ofToken t).reread.Same (Param.ofToken t) ↔ ¬(Param.ofToken t).LooksWhole) ∧
    (∀ d, Param.ofToken t = .number d → (Param.ofToken t).LooksWhole →
      ∃ v : Value, (Param.ofToken t).reread = .int v ∧ v.toInt = d.signed) ∧
    ((∃ op', parse ⟨registry, options⟩ [op.render] = .ok op') ↔ op.Legible) ∧
    ∀ op', parse ⟨registry, options⟩ [op.render] = .ok op' → op'.SameCauses (op.mapParams Param.reread) := by
  have hentered := exists_parse_render_iff hregistry h
  refine ⟨Param.same_reread_iff t, fun d hd hwhole => ?_, hentered, fun op' hop' => ?_⟩
  · rw [hd] at hwhole ⊢
    exact hwhole.reread_number
  · obtain ⟨read, hread, hcauses⟩ := parse_render_reread hregistry h (hentered.1 ⟨op', hop'⟩)
    cases hread.symm.trans hop'
    exact hcauses

/-- A function of the host that shows its parameters: integers as dice, the first other parameter as a failure. -/
def shownParams : NativeFunction := fun _ params =>
  params.mapM fun
    | .int n => .ok n
    | .number d => .error ("number " ++ d.text)
    | .text s => .error ("text " ++ s)

def showRegistry : Registry := ⟨[("show", .native shownParams)]⟩

theorem built_showRegistry : showRegistry.Built := by
  have hshow : Registry.empty.register "show" (.native shownParams) = .ok showRegistry :=
    Registry.register_eq_ok_iff.2 ⟨by decide, by decide, by decide, by decide, by decide, rfl⟩
  exact .native .empty hshow

/-- A call with a number that looks like an integer, a number that does not, and a word. -/
def sortedShow : Operation :=
  andThen (primitive .sort)
    (memoized 0 (native "show" [.number (.ofNat 100), .number (.hundredths 250 (by decide)), .text "x"] shownParams))

theorem reread_laws_sortedShow :
    (Param.ofToken "-2.50e1").reread.Same (Param.ofToken "-2.50e1") ∧
    (∃ v : Value, (Param.ofToken "1e2").reread = .int v ∧ v.toInt = 100) ∧
    parse ⟨showRegistry, ⟨false, true⟩⟩ ["sort show 1e2 2.50 x"] = .ok sortedShow ∧
    ∃ op', parse ⟨showRegistry, ⟨false, true⟩⟩ [sortedShow.render] = .ok op' ∧
      op'.SameCauses (sortedShow.mapParams Param.reread) := by
  have hfraction : Param.ofToken "-2.50e1" = .number ⟨true, 250, 1, by decide, by decide⟩ := by cbv
  have hhundred : Param.ofToken "1e2" = .number (.ofNat 100) := by cbv
  have hparse : parse ⟨showRegistry, ⟨false, true⟩⟩ ["sort show 1e2 2.50 x"] = .ok sortedShow := by cbv
  obtain ⟨hsame, -⟩ := reread_laws "-2.50e1" built_showRegistry hparse
  obtain ⟨-, hwhole, hentered, hcauses⟩ := reread_laws "1e2" built_showRegistry hparse
  refine ⟨hsame.2 ?_, hwhole _ hhundred ?_, hparse, ?_⟩
  · rw [hfraction, Param.looksWhole_number_iff]
    decide
  · rw [hhundred, Param.looksWhole_number_iff]
    decide
  · obtain ⟨op', hop'⟩ := hentered.2 ⟨trivial, trivial⟩
    exact ⟨op', hop', hcauses op' hop'⟩

/-- The parameter `1e2` is a number, and comes back as an integer. -/
theorem hundred_comes_back_whole :
    Param.ofToken "1e2" = .number (.ofNat 100) ∧ (Param.ofToken "1e2").render = "100" ∧
    Param.ofToken "100" = .int 100 ∧ ¬(Param.ofToken "100").Same (Param.ofToken "1e2") ∧
    parse ⟨showRegistry, .plain⟩ ["show 1e2"] = .ok (native "show" [.number (.ofNat 100)] shownParams) ∧
    (native "show" [.number (.ofNat 100)] shownParams).render = "show 100" ∧
    parse ⟨showRegistry, .plain⟩ ["show 100"] = .ok (native "show" [.int 100] shownParams) ∧
    eval (native "show" [.number (.ofNat 100)] shownParams) [] = .error (.custom "show" "number 100") ∧
    eval (native "show" [.int 100] shownParams) [] = .ok [100] := by
  have hnumber : Param.ofToken "1e2" = .number (.ofNat 100) := by cbv
  have hinteger : Param.ofToken "100" = .int 100 := by cbv
  refine ⟨hnumber, ?_, hinteger, by rw [hnumber, hinteger]; exact id, ?_, ?_, ?_, ?_, ?_⟩ <;> cbv

end Operation

end DiceTally
