import DiceTally.Proofs.Operation.Positions
import DiceTally.Proofs.Operation.Tokens
import DiceTally.Proofs.Pipeline.Composition
import DiceTally.Proofs.Pipeline.Steps

/-!
# Pipelines between brackets

Brackets keep together what stands between them, whatever it is: a pipeline between brackets can be followed by
another one, be a branch of a condition, or be applied to blocks of dice.  Each of these texts is read, and what it
does is put together from what the parts do on their own, up to the root causes of failures (`brackets_compose`).
-/

namespace DiceTally

namespace Operation

/-! ### Texts -/

/-- `[ inner ] next` -/
def groupWords (inner next : List String) : List String := "[" :: inner ++ "]" :: next

/-- `[ taken ] if condition else [ other ] then next` -/
def branchWords (taken condition other next : List String) : List String :=
  "[" :: taken ++ "]" :: "if" :: condition ++ "else" :: "[" :: other ++ "]" :: "then" :: next

/-- `slice-apply size [ inner ] next` -/
def sliceWords (size : Nat) (inner next : List String) : List String :=
  "slice-apply" :: toString size :: "[" :: inner ++ "]" :: next

/-- No token of a condition is cut any further. -/
theorem normalize_condition {condition : List String} {c : Condition} (h : Condition.parse condition = .ok c) :
    Token.normalize condition = condition := by
  refine Token.normalize_eq_self fun t ht => ?_
  cases Condition.sentence_of_parse h with
  | empty => cases ht
  | written h =>
    rcases h.mem ht with hkeyword | ⟨v, hv⟩
    · have hreserved : ∀ k ∈ Condition.keywords, k ∈ Token.reserved := by decide
      exact Token.isToken_of_mem_reserved (hreserved t hkeyword)
    · exact isToken_of_ofText? hv

theorem normalize_keyword {word : String} (h : word ∈ Token.reserved) (words : List String) :
    Token.normalize (word :: words) = word :: Token.normalize words :=
  Token.normalize_cons (Token.isToken_of_mem_reserved h) words

theorem normalize_groupWords (inner next : List String) :
    Token.normalize (groupWords inner next) = groupWords (Token.normalize inner) (Token.normalize next) := by
  simp only [groupWords, Token.normalize_append, normalize_keyword (show "[" ∈ Token.reserved by decide),
    normalize_keyword (show "]" ∈ Token.reserved by decide)]

theorem normalize_branchWords (taken other next : List String) {condition : List String} {c : Condition}
    (h : Condition.parse condition = .ok c) :
    Token.normalize (branchWords taken condition other next) =
      branchWords (Token.normalize taken) condition (Token.normalize other) (Token.normalize next) := by
  have hcondition := normalize_condition h
  simp only [branchWords, Token.normalize_append, hcondition, normalize_keyword (show "[" ∈ Token.reserved by decide),
    normalize_keyword (show "]" ∈ Token.reserved by decide), normalize_keyword (show "if" ∈ Token.reserved by decide),
    normalize_keyword (show "else" ∈ Token.reserved by decide),
    normalize_keyword (show "then" ∈ Token.reserved by decide)]

theorem normalize_sliceWords (size : Nat) (inner next : List String) :
    Token.normalize (sliceWords size inner next) = sliceWords size (Token.normalize inner) (Token.normalize next) := by
  have hinner := normalize_groupWords inner next
  unfold groupWords at hinner
  rw [sliceWords, List.cons_append, List.cons_append, normalize_keyword (by decide),
    Token.normalize_cons (isToken_toString size), hinner]
  rfl

/-! ### Meanings -/

section

variable {registry : Registry} (hregistry : registry.Built) {inner other next : List String} {p r q : Operation}

include hregistry

theorem means_groupWords (hp : Means registry inner p) (hq : Means registry next q) :
    Means registry (groupWords inner next) (andThen p q) :=
  (stageMeans_group hregistry hp (hq.closes false)).andThen hq

theorem means_branchWords {condition : List String} {c : Condition} (hp : Means registry inner p)
    (hcondition : Condition.parse condition = .ok c) (hr : Means registry other r) (hq : Means registry next q) :
    Means registry (branchWords inner condition other next) (andThen (conditional c p r) q) := by
  have hstage := stageMeans_branched hregistry hp hcondition hr (hq.closes true)
  simpa [branchWords] using hstage.andThen hq

theorem means_sliceWords {size : Nat} (hpos : 0 < size) (hlt : (size : Int) < Value.bound) (hp : Means registry inner p)
    (hq : Means registry next q) : Means registry (sliceWords size inner next) (sliceApply size p q) := by
  have hsize := readBlockSize_toString hpos hlt "slice-apply"
  have htoken := stopsParams_of_isNumeric hregistry (isNumeric_of_readBlockSize hsize)
  have hstage := stageMeans_group hregistry hp (hq.closes false)
  have hstarts : ∃ head tail, "[" :: inner ++ "]" :: next = head :: tail ∧ StartsStage registry head :=
    ⟨_, _, rfl, .inl rfl⟩
  exact ((stageMeans_slices hregistry hsize htoken hstage hstarts).2 q hq).last

/-- A pipeline between brackets in front of another one is applied first. -/
theorem parse_bracketed {options options' : ParseOptions} {words words' : List String} {first next : Operation}
    (hfirst : parse ⟨registry, options⟩ words = .ok first) (hnext : parse ⟨registry, options'⟩ words' = .ok next)
    (joint : ParseOptions) :
    ∃ both : Operation, parse ⟨registry, joint⟩ ("[" :: words ++ "]" :: words') = .ok both ∧
      both.SameResults (andThen first next) := by
  obtain ⟨readFirst, hmeansFirst, hsameFirst⟩ := means_of_parse hfirst
  obtain ⟨readNext, hmeansNext, hsameNext⟩ := means_of_parse hnext
  have hmeans := means_groupWords hregistry hmeansFirst hmeansNext
  rw [← normalize_groupWords] at hmeans
  obtain ⟨both, hboth, hsame⟩ := parse_of_means hmeans joint
  exact ⟨both, hboth, hsame.sameResults.trans (hsameFirst.sameResults.andThen hsameNext.sameResults).symm⟩

/-- Words with tokens that mean something are read, and any evaluator of what is read does what they mean. -/
theorem exists_parse_of_means {tokens : List String} {op : Operation} (hmeans : Means registry tokens op)
    {spec : Tuple → Except EvalError Tuple} (hspec : ∀ dice, rooted (op.eval dice) = rooted (spec dice))
    (options : ParseOptions) {words : List String} (hwords : Token.normalize words = tokens) :
    ∃ read : Operation, parse ⟨registry, options⟩ words = .ok read ∧
      ∀ (evaluator : read.Evaluator) dice, rooted (evaluator.answer dice) = rooted (spec dice) := by
  subst hwords
  obtain ⟨read, hread, hsame⟩ := parse_of_means hmeans options
  refine ⟨read, hread, fun evaluator dice => ?_⟩
  rw [evaluator.answer_eq hregistry hread, hsame, hspec]

end

/-- Pipelines that are read on their own can be put between brackets: `[ first ] next`,
`[ first ] if condition else [ other ] then next` and `slice-apply size [ first ] next` are read under any options, and
do what the parts do on their own.  The last part is applied to the result of the first one, to the results of the first
and the other one merged by the condition, or to the results of the first one on the full blocks of dice, one after the
other.  Failures have the same root causes. -/
theorem brackets_compose {registry : Registry} (hregistry : registry.Built) {first next other condition : List String}
    {options options' options'' : ParseOptions} {p q r : Operation} {c : Condition}
    (hp : parse ⟨registry, options⟩ first = .ok p) (hq : parse ⟨registry, options'⟩ next = .ok q)
    (hr : parse ⟨registry, options''⟩ other = .ok r) (hc : Condition.parse condition = .ok c) {size : Nat}
    (hpos : 0 < size) (hlt : (size : Int) < Value.bound) (joint : ParseOptions) (evalP : p.Evaluator)
    (evalQ : q.Evaluator) (evalR : r.Evaluator) :
    (∀ words, Token.normalize words = Token.normalize (groupWords first next) →
      ∃ op, parse ⟨registry, joint⟩ words = .ok op ∧ ∀ (evaluator : op.Evaluator) dice,
        rooted (evaluator.answer dice) = rooted (do
          let result ← evalP.answer dice
          evalQ.answer result)) ∧
    (∀ words, Token.normalize words = Token.normalize (branchWords first condition other next) →
      ∃ op, parse ⟨registry, joint⟩ words = .ok op ∧ ∀ (evaluator : op.Evaluator) dice,
        rooted (evaluator.answer dice) = rooted (do
          let taken ← evalP.answer dice
          let fallback ← evalR.answer dice
          let merged ← mergeByPosition c dice taken fallback
          evalQ.answer merged)) ∧
    ∀ words, Token.normalize words = Token.normalize (sliceWords size first next) →
      ∃ op, parse ⟨registry, joint⟩ words = .ok op ∧ ∀ (evaluator : op.Evaluator) dice,
        rooted (evaluator.answer dice) = rooted (do
          let results ← (consecutiveBlocks size dice).mapM evalP.answer
          evalQ.answer results.flatten) := by
  obtain ⟨meantP, hmeansP, hsameP⟩ := means_of_parse hp
  obtain ⟨meantQ, hmeansQ, hsameQ⟩ := means_of_parse hq
  obtain ⟨meantR, hmeansR, hsameR⟩ := means_of_parse hr
  have hP (dice : Tuple) : rooted (evalP.answer dice) = rooted (meantP.eval dice) := by
    rw [evalP.answer_eq hregistry hp, hsameP]
  have hQ (dice : Tuple) : rooted (evalQ.answer dice) = rooted (meantQ.eval dice) := by
    rw [evalQ.answer_eq hregistry hq, hsameQ]
  have hR (dice : Tuple) : rooted (evalR.answer dice) = rooted (meantR.eval dice) := by
    rw [evalR.answer_eq hregistry hr, hsameR]
  refine ⟨fun words hwords => ?group, fun words hwords => ?branch, fun words hwords => ?slices⟩
  case group =>
    rw [normalize_groupWords] at hwords
    refine exists_parse_of_means hregistry (means_groupWords hregistry hmeansP hmeansQ) (fun dice => ?_) joint hwords
    simp only [eval, rooted_bind, hP, hQ]
  case branch =>
    rw [normalize_branchWords first other next hc] at hwords
    have hmeans := means_branchWords hregistry hmeansP hc hmeansR hmeansQ
    refine exists_parse_of_means hregistry hmeans (fun dice => ?_) joint hwords
    simp only [eval, rooted_bind, hP, hQ, hR, merge_eq_mergeByPosition, bind_assoc]
  case slices =>
    rw [normalize_sliceWords] at hwords
    have hmeans := means_sliceWords hregistry hpos hlt hmeansP hmeansQ
    refine exists_parse_of_means hregistry hmeans (fun dice => ?_) joint hwords
    simp only [eval, rooted_bind, rooted_mapM, hP, hQ, blocks_eq_consecutiveBlocks]

/-- The first part ends in a condition, the other one takes the rest of its line. -/
theorem brackets_compose_openEnded :
    ∃ p q r c, parse ⟨sessionRegistry, ⟨true, false⟩⟩ ["[ turn ] if gt 2"] = .ok p ∧
      parse ⟨sessionRegistry, ⟨false, true⟩⟩ ["low"] = .ok q ∧
      parse ⟨sessionRegistry, ⟨true, true⟩⟩ ["slice-apply 1 add 3", "sort"] = .ok r ∧
      Condition.parse ["not", "eq", "+3"] = .ok c ∧ 0 < 2 ∧ ((2 : Nat) : Int) < Value.bound ∧
      (∃ op, parse ⟨sessionRegistry, ⟨true, true⟩⟩ ["[ [ turn ] if gt 2 ] low"] = .ok op ∧
        ∀ (evaluator : op.Evaluator) dice,
          rooted (evaluator.answer dice) = rooted (do
            let result ← (⟨none, []⟩ : p.Evaluator).answer dice
            (⟨none, []⟩ : q.Evaluator).answer result)) ∧
      (∃ op, parse ⟨sessionRegistry, ⟨true, true⟩⟩
          ["[[ turn ] if gt 2] if not eq +3 else", "[slice-apply 1 add 3 sort] then low"] = .ok op ∧
        ∀ (evaluator : op.Evaluator) dice,
          rooted (evaluator.answer dice) = rooted (do
            let taken ← (⟨none, []⟩ : p.Evaluator).answer dice
            let fallback ← (⟨none, []⟩ : r.Evaluator).answer dice
            let merged ← mergeByPosition c dice taken fallback
            (⟨none, []⟩ : q.Evaluator).answer merged)) ∧
      ∃ op, parse ⟨sessionRegistry, ⟨true, true⟩⟩ ["slice-apply 2 [ [ turn ] if gt 2 ] low"] = .ok op ∧
        ∀ (evaluator : op.Evaluator) dice,
          rooted (evaluator.answer dice) = rooted (do
            let results ← (consecutiveBlocks 2 dice).mapM (⟨none, []⟩ : p.Evaluator).answer
            (⟨none, []⟩ : q.Evaluator).answer results.flatten) := by
  have hp : (parse ⟨sessionRegistry, ⟨true, false⟩⟩ ["[ turn ] if gt 2"]).isOk = true := by cbv
  have hq : (parse ⟨sessionRegistry, ⟨false, true⟩⟩ ["low"]).isOk = true := by cbv
  have hr : (parse ⟨sessionRegistry, ⟨true, true⟩⟩ ["slice-apply 1 add 3", "sort"]).isOk = true := by cbv
  have hc : Condition.parse ["not", "eq", "+3"] = .ok (.not (.compare .eq [3])) := by cbv
  obtain ⟨p, hp⟩ := exists_eq_ok_of_isOk hp
  obtain ⟨q, hq⟩ := exists_eq_ok_of_isOk hq
  obtain ⟨r, hr⟩ := exists_eq_ok_of_isOk hr
  have hlt : ((2 : Nat) : Int) < Value.bound := by decide
  obtain ⟨hgroup, hbranch, hslices⟩ := brackets_compose built_sessionRegistry hp hq hr hc (by decide : 0 < 2) hlt
    ⟨true, true⟩ ⟨none, []⟩ ⟨none, []⟩ ⟨none, []⟩
  exact ⟨p, q, r, _, hp, hq, hr, hc, by decide, hlt, hgroup _ (by decide), hbranch _ (by decide), hslices _ (by decide)⟩

end Operation

end DiceTally
