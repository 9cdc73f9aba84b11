import DiceTally.Proofs.Decimal.Natural
import DiceTally.Proofs.Operation.Arguments
import DiceTally.Proofs.Operation.Sessions
import DiceTally.Proofs.Operation.Tokens
import DiceTally.Proofs.Pipeline.Meaning
import DiceTally.Proofs.Pipeline.Steps

/-!
# Operations read back

The words of an operation that has been read mean the same operation, its parameters read back from their words
(`rereads_legible`).  So what is rendered can be parsed again and gives the same results where the parameters come back
as they were (`parse_render`).  The trees may differ: a sequence is grouped to the right, and what follows a block of
dice becomes part of it.
-/

namespace DiceTally

namespace Operation

/-- What keeps a tree from being read back from its words does not occur in it: a guard without condition, a
negation directly under a negation, and a number as parameter that is not read back as the same number. -/
def Renderable : Operation → Prop
  | primitive (.reroll condition) => condition.NoDoubleNot
  | primitive _ => True
  | sliceApply _ inner outer => inner.Renderable ∧ outer.Renderable
  | conditional condition taken otherwise =>
    condition ≠ .always ∧ condition.NoDoubleNot ∧ taken.Renderable ∧ otherwise.Renderable
  | native _ params _ | defined _ params _ => ∀ p ∈ params, p.ReadsBack
  | andThen first next => first.Renderable ∧ next.Renderable
  | validated inner => inner.Renderable
  | memoized _ inner => inner.Renderable

/-- The words of the tree can be read: it holds neither a guard without condition nor a negation directly under a
negation. -/
def Legible : Operation → Prop
  | primitive (.reroll condition) => condition.NoDoubleNot
  | sliceApply _ inner outer => inner.Legible ∧ outer.Legible
  | conditional condition taken otherwise =>
    condition ≠ .always ∧ condition.NoDoubleNot ∧ taken.Legible ∧ otherwise.Legible
  | andThen first next => first.Legible ∧ next.Legible
  | validated inner => inner.Legible
  | memoized _ inner => inner.Legible
  | _ => True

theorem Renderable.legible {op : Operation} (h : op.Renderable) : op.Legible := by
  induction op with
  | primitive step =>
    cases step with
    | reroll c => exact h
    | _ => trivial
  | sliceApply size inner outer ihinner ihouter => exact ⟨ihinner h.1, ihouter h.2⟩
  | conditional c taken otherwise ihtaken ihotherwise => exact ⟨h.1, h.2.1, ihtaken h.2.2.1, ihotherwise h.2.2.2⟩
  | andThen first next ihfirst ihnext => exact ⟨ihfirst h.1, ihnext h.2⟩
  | validated inner ih => exact ih h
  | memoized slot inner ih => exact ih h
  | _ => trivial

theorem ParamsFrom.map_reread {registry : Registry} {all : List String} {params : List Param}
    (h : ParamsFrom registry all params) (hparams : ∀ p ∈ params, p.ReadsBack) :
    params.map Param.reread = params := by
  obtain ⟨words, rfl, -⟩ := h
  refine (List.map_congr_left fun p hp => ?_).trans (List.map_id _)
  obtain ⟨w, -, rfl⟩ := List.mem_map.1 hp
  exact Param.ofToken_render_ofToken (hparams _ hp)

/-- The parameters come back as they were. -/
theorem Renderable.mapParams_reread {registry : Registry} {all : List String} {op : Operation} (h : op.Renderable)
    (hop : op.WellFormed registry all) : op.mapParams Param.reread = op := by
  induction op with
  | primitive step => rfl
  | sliceApply size inner outer ihinner ihouter =>
    rw [mapParams, ihinner h.1 hop.2.2.1, ihouter h.2 hop.2.2.2]
  | conditional c taken otherwise ihtaken ihotherwise =>
    rw [mapParams, ihtaken h.2.2.1 hop.2.1, ihotherwise h.2.2.2 hop.2.2]
  | native name params function => rw [mapParams, hop.2.map_reread h]
  | defined name params pipeline => rw [mapParams, hop.2.map_reread h]
  | andThen first next ihfirst ihnext => rw [mapParams, ihfirst h.1 hop.1, ihnext h.2 hop.2]
  | validated inner ih => rw [mapParams, ih h hop]
  | memoized slot inner ih => rw [mapParams, ih h hop]

/-- Nothing is wrapped anywhere in the tree. -/
def Unwrapped : Operation → Prop
  | sliceApply _ inner outer => inner.Unwrapped ∧ outer.Unwrapped
  | conditional _ taken otherwise => taken.Unwrapped ∧ otherwise.Unwrapped
  | andThen first next => first.Unwrapped ∧ next.Unwrapped
  | validated _ | memoized _ _ => False
  | _ => True

theorem unwrapped_wrapLevels (top : Bool) (op : Operation) (slot : Nat) :
    (op.wrapLevels .plain top slot).1.Unwrapped := by
  induction op generalizing top slot with
  | sliceApply size inner outer ihinner ihouter => exact ⟨ihinner false _, ihouter false _⟩
  | conditional condition taken otherwise ihtaken ihotherwise => exact ⟨ihtaken false _, ihotherwise false _⟩
  | andThen first next ihfirst ihnext => exact ⟨ihfirst false _, ihnext false _⟩
  | validated inner ih => exact ih false slot
  | memoized _ inner ih => exact ih false slot
  | _ => trivial

theorem unwrapped_of_parse {registry : Registry} {words : List String} {op : Operation}
    (h : parse ⟨registry, .plain⟩ words = .ok op) : op.Unwrapped := by
  rw [parse_eq_map_outline] at h
  obtain ⟨outline, -, rfl⟩ := map_eq_ok_iff.1 h
  exact unwrapped_wrapLevels true outline 0

theorem eval_of_isIdentity {op : Operation} (h : op.isIdentity = true) (dice : Tuple) : op.eval dice = .ok dice := by
  induction op with
  | primitive step =>
    cases step <;> first
      | rfl
      | cases h
  | validated inner ih =>
    rw [eval, ih h]
    rfl
  | memoized _ inner ih => exact ih h
  | _ => cases h

theorem openEnded_of_isIdentity {op : Operation} (h : op.isIdentity = true) : op.openEnded = false := by
  induction op with
  | primitive step =>
    cases step <;> first
      | rfl
      | cases h
  | validated inner ih => exact ih h
  | memoized _ inner ih => exact ih h
  | _ => cases h

/-! ### Meaning of the words -/

/-- The word that closes an open-ended operation. -/
def closing (op : Operation) : List String := if op.openEnded then ["then"] else []

theorem closing_sliceApply (size : Nat) (inner outer : Operation) :
    (sliceApply size inner outer).closing = outer.closing := rfl

theorem closing_andThen (first next : Operation) : (andThen first next).closing = next.closing := rfl

/-- What the words of an operation mean, by themselves and in front of other tokens. -/
structure Rereads (registry : Registry) (op read : Operation) : Prop where
  alone : Means registry op.tokens read
  before : ∀ rest next, Means registry rest next → Means registry (op.tokens ++ op.closing ++ rest) (andThen read next)

section

variable {registry : Registry} (hregistry : registry.Built)

theorem Rereads.of_stage {op read : Operation}
    (h : ∀ after rest, Closes registry op.openEnded after rest → StageMeans registry (op.tokens ++ after) rest read) :
    Rereads registry op read := by
  constructor
  · have hstage := h [] [] .nothing
    rw [List.append_nil] at hstage
    exact hstage.last
  · intro rest next hnext
    have hstage := h _ _ (hnext.closes op.openEnded)
    rw [List.append_assoc]
    exact hstage.andThen hnext

include hregistry

theorem rereads_step {step : Primitive} (hstep : step.WellFormed) (hreroll : ∀ c, step ≠ .reroll c) :
    Rereads registry (primitive step) (primitive step) := by
  refine .of_stage fun after rest hclose => ?_
  obtain ⟨name, params, built, htokens, hname, hne, hparams, hbuilt, heval⟩ :=
    exists_ofWords_tokens hregistry hstep hreroll
  have hopen : (primitive step).openEnded = false := by
    cases step <;> first
      | rfl
      | exact absurd rfl (hreroll _)
  rw [hopen] at hclose
  have hmeans := stageMeans_builtIn hregistry hname hne hparams hbuilt hclose
  rw [tokens, htokens]
  exact hmeans.congr (funext fun dice => congrFun heval dice)

omit hregistry in
theorem reroll_of_ne_always {c : Condition} (hc : c ≠ .always) :
    (primitive (.reroll c)).tokens = "reroll" :: "if" :: c.tokens ∧ (primitive (.reroll c)).openEnded = true := by
  refine ⟨?_, by simp [openEnded, hc]⟩
  cases c <;> first
    | rfl
    | exact absurd rfl hc

theorem rereads_reroll {c : Condition} (hc : c = .always ∨ c.WellFormed) (hnot : c.NoDoubleNot) :
    Rereads registry (primitive (.reroll c)) (primitive (.reroll c)) := by
  refine .of_stage fun after rest hclose => ?_
  rcases hc with rfl | hc
  · exact stageMeans_reroll hregistry hclose
  · have hne : c ≠ .always := by
      rintro rfl
      exact hc
    obtain ⟨htokens, hopen⟩ := reroll_of_ne_always hne
    rw [hopen] at hclose
    rw [htokens]
    exact stageMeans_rerollIf hregistry (Condition.parse_tokens hc hnot) hclose

theorem ParamsFrom.stopsParams {all : List String} {params : List Param} (h : ParamsFrom registry all params) :
    ∀ p ∈ params.map Param.render, DiceTally.stopsParams registry p = false := by
  obtain ⟨words, rfl, hwords⟩ := h
  intro p hp
  simp only [List.map_map, List.mem_map] at hp
  obtain ⟨w, hw, rfl⟩ := hp
  exact Param.stopsParams_render_ofToken hregistry (hwords w hw).2

omit hregistry in
theorem words_call (name : String) (params : List Param) (callable : Callable) :
    (callable.call name params).tokens = name :: params.map Param.render ∧
      (callable.call name params).openEnded = false ∧ (callable.call name params).Legible := by
  cases callable <;> exact ⟨rfl, rfl, trivial⟩

theorem rereads_call {name : String} {callable : Callable} (hget : registry.get? name = some callable)
    {all : List String} {params : List Param} (hfrom : ParamsFrom registry all params) :
    Rereads registry (callable.call name params) (callable.call name (params.map Param.reread)) := by
  refine .of_stage fun after rest hclose => ?_
  obtain ⟨htokens, hopen, -⟩ := words_call name params callable
  have hback : (params.map Param.render).map Param.ofToken = params.map Param.reread := List.map_map
  rw [hopen] at hclose
  have hmeans := stageMeans_registered hregistry hget (hfrom.stopsParams hregistry) hclose
  rwa [hback, ← htokens] at hmeans

omit hregistry in
/-- What follows a block of dice becomes part of it. -/
theorem eval_sliceApply_andThen (size : Nat) (inner outer next : Operation) :
    (sliceApply size inner (andThen outer next)).eval = (andThen (sliceApply size inner outer) next).eval := by
  funext dice
  simp only [eval, bind_assoc]

omit hregistry in
theorem eval_sliceApply_of_isIdentity (size : Nat) (inner next : Operation) {outer : Operation}
    (h : outer.isIdentity = true) :
    (sliceApply size inner next).eval = (andThen (sliceApply size inner outer) next).eval := by
  funext dice
  simp only [eval, bind_assoc, eval_of_isIdentity h]
  rfl

theorem rereads_sliceApply {size : Nat} (hpos : 0 < size) (hlt : (size : Int) < Value.bound)
    {inner inner' outer outer' : Operation} (hinner : Rereads registry inner inner')
    (houter : Rereads registry outer outer') (hsame : outer'.isIdentity = outer.isIdentity) :
    Rereads registry (sliceApply size inner outer) (sliceApply size inner' outer') := by
  have hsize := readBlockSize_toString hpos hlt "slice-apply"
  have hstop := stopsParams_of_isNumeric hregistry (isNumeric_of_readBlockSize hsize)
  -- the inner operation with its brackets is the first stage after the size
  have hblock {after rest : List String} (hclose : Closes registry false after rest) :=
    stageMeans_slices hregistry hsize hstop (stageMeans_group hregistry hinner.alone hclose) ⟨_, _, rfl, .inl rfl⟩
  -- an outer operation without effect is not written, so that what follows takes its place
  cases hidentity : outer.isIdentity with
  | true =>
    have hopen := openEnded_of_isIdentity hidentity
    constructor
    · have heval : (sliceApply size inner' (primitive .identity)).eval = (sliceApply size inner' outer').eval := by
        funext dice
        simp only [eval, eval_of_isIdentity (hsame.trans hidentity)]
        rfl
      have hmeans := ((hblock .nothing).1 rfl).last.congr heval
      simpa [tokens, hidentity] using hmeans
    · intro rest next hnext
      have heval := eval_sliceApply_of_isIdentity size inner' next (hsame.trans hidentity)
      have hmeans := ((hblock (hnext.closes false)).2 next hnext).last.congr heval
      simpa [tokens, hidentity, closing, openEnded, hopen] using hmeans
  | false =>
    constructor
    · have hmeans := ((hblock (houter.alone.closes false)).2 outer' houter.alone).last
      simpa [tokens, hidentity] using hmeans
    -- the outer operation and what follows it are read as one pipeline after the block
    · intro rest next hnext
      have hboth := houter.before rest next hnext
      have heval := eval_sliceApply_andThen size inner' outer' next
      have hmeans := ((hblock (hboth.closes false)).2 _ hboth).last.congr heval
      have hwords : (sliceApply size inner outer).tokens ++ (sliceApply size inner outer).closing ++ rest =
          "slice-apply" :: toString size :: ("[" :: inner.tokens ++ "]" :: (outer.tokens ++ outer.closing ++ rest)) := by
        simp [tokens, hidentity, closing_sliceApply]
      rw [hwords]
      exact hmeans

theorem rereads_conditional {c : Condition} (hc : c.WellFormed) (hnot : c.NoDoubleNot)
    {taken taken' otherwise otherwise' : Operation} (htaken : Rereads registry taken taken')
    (hotherwise : Rereads registry otherwise otherwise') (hsame : otherwise'.isIdentity = otherwise.isIdentity) :
    Rereads registry (conditional c taken otherwise) (conditional c taken' otherwise') := by
  have hcondition := Condition.parse_tokens hc hnot
  refine .of_stage fun after rest hclose => ?_
  by_cases hidentity : otherwise.isIdentity = true
  · have heval : (conditional c taken' (primitive .identity)).eval = (conditional c taken' otherwise').eval := by
      funext dice
      simp only [eval, eval_of_isIdentity (hsame.trans hidentity)]
      rfl
    have hmeans := (stageMeans_guarded htaken.alone hcondition hclose).congr heval
    simpa [tokens, hidentity] using hmeans
  · have hmeans := stageMeans_branched hregistry htaken.alone hcondition hotherwise.alone hclose
    simpa [tokens, hidentity] using hmeans

omit hregistry in
theorem rereads_andThen {first first' next next' : Operation} (hfirst : Rereads registry first first')
    (hnext : Rereads registry next next') : Rereads registry (andThen first next) (andThen first' next') := by
  have hassoc (last : Operation) :
      (andThen first' (andThen next' last)).eval = (andThen (andThen first' next') last).eval := by
    funext dice
    simp only [eval]
    exact (bind_assoc ..).symm
  constructor
  · have hmeans := hfirst.before _ _ hnext.alone
    simpa [tokens, closing] using hmeans
  · intro rest last hlast
    have hmeans := (hfirst.before _ _ (hnext.before rest last hlast)).congr (hassoc last)
    have hwords : (andThen first next).tokens ++ (andThen first next).closing ++ rest =
        first.tokens ++ first.closing ++ (next.tokens ++ next.closing ++ rest) := by
      simp [tokens, closing_andThen]
      rfl
    rw [hwords]
    exact hmeans

/-- The words of an operation that has been read mean the operation with its parameters read back. -/
theorem rereads_legible {all : List String} {op : Operation} (hop : op.WellFormed registry all) (hlegible : op.Legible)
    (hplain : op.Unwrapped) : Rereads registry op (op.mapParams Param.reread) := by
  induction op with
  | primitive step =>
    cases step with
    | reroll c => exact rereads_reroll hregistry hop hlegible
    | _ => exact rereads_step hregistry hop (by simp)
  | sliceApply size inner outer ihinner ihouter =>
    obtain ⟨hpos, hlt, hinner, houter⟩ := hop
    exact rereads_sliceApply hregistry hpos hlt (ihinner hinner hlegible.1 hplain.1)
      (ihouter houter hlegible.2 hplain.2) (isIdentity_mapParams ..)
  | conditional c taken otherwise ihtaken ihotherwise =>
    obtain ⟨hc, htaken, hotherwise⟩ := hop
    obtain ⟨hne, hnot, hltaken, hlotherwise⟩ := hlegible
    exact rereads_conditional hregistry (hc.resolve_left hne) hnot (ihtaken htaken hltaken hplain.1)
      (ihotherwise hotherwise hlotherwise hplain.2) (isIdentity_mapParams ..)
  | native name params function => exact rereads_call hregistry hop.1 hop.2
  | defined name params pipeline => exact rereads_call hregistry hop.1 hop.2
  | andThen first next ihfirst ihnext =>
    exact rereads_andThen (ihfirst hop.1 hlegible.1 hplain.1) (ihnext hop.2 hlegible.2 hplain.2)
  | validated inner _ => exact hplain.elim
  | memoized slot inner _ => exact hplain.elim

/-- The words of an operation that has been read mean the operation. -/
theorem rereads {all : List String} {op : Operation} (hop : op.WellFormed registry all) (hrender : op.Renderable)
    (hplain : op.Unwrapped) : Rereads registry op op := by
  have hreads := rereads_legible hregistry hop hrender.legible hplain
  rwa [hrender.mapParams_reread hop] at hreads

end

/-- What is written for an operation is read as an operation with the same results, unless the tree holds one of
the few things that are not read back. -/
theorem parse_render {registry : Registry} (hregistry : registry.Built) {words : List String} {op : Operation}
    (h : parse ⟨registry, ⟨false, false⟩⟩ words = .ok op) (hrender : op.Renderable) :
    ∃ op', parse ⟨registry, ⟨false, false⟩⟩ [op.render] = .ok op' ∧
      ∀ (capacity capacity' : Option Nat) (dice : Tuple),
        (op'.apply dice (.new op' capacity)).1 = (op.apply dice (.new op capacity')).1 := by
  have hop := wellFormed_of_parse h
  have htokens : ∀ t ∈ op.tokens, Token.IsToken t := fun t ht =>
    isToken_of_mem_tokens hregistry (fun t ht => Token.isToken_of_mem_normalize ht) hop ht
  -- `op'` need not be `op`: only the nesting and the spelling of what was written can differ
  obtain ⟨op', heval, hreads⟩ := (rereads hregistry hop hrender (unwrapped_of_parse h)).alone
  have hparse : parse ⟨registry, ⟨false, false⟩⟩ [op.render] = .ok op' := by
    rw [parse_eq_ok_iff, render, Token.normalize_unwords htokens]
    exact ⟨0, hreads true 0⟩
  refine ⟨op', hparse, fun capacity capacity' dice => ?_⟩
  rw [(apply_eq hregistry hparse (Store.sound_new registry op' capacity) dice).1,
    (apply_eq hregistry h (Store.sound_new registry op capacity') dice).1, heval]

/-- A guarded call of a function of the host, then a named pipeline on the sums of blocks of two dice. -/
def turnedPairs : Operation :=
  andThen
    (conditional (.compare .gt [2])
      (native "turn" [.number (.hundredths 150 (by decide)), .text "x"] fun dice _ => .ok dice.reverse)
      (primitive .sort))
    (sliceApply 2 (primitive (.reduce .sum))
      (defined "low" [] (andThen (primitive .sort) (memoized 0 (primitive (.select [0]))))))

theorem parse_render_turnedPairs :
    parse ⟨sessionRegistry, ⟨false, false⟩⟩ ["[ turn 1.50 x ] if gt 2 else [ sort ] then slice-apply 2 sum low"] =
      .ok turnedPairs ∧
    turnedPairs.Renderable ∧
    ∃ op', parse ⟨sessionRegistry, ⟨false, false⟩⟩ [turnedPairs.render] = .ok op' ∧
      ∀ (capacity capacity' : Option Nat) (dice : Tuple),
        (op'.apply dice (.new op' capacity)).1 = (turnedPairs.apply dice (.new turnedPairs capacity')).1 := by
  have hparse : parse ⟨sessionRegistry, ⟨false, false⟩⟩
      ["[ turn 1.50 x ] if gt 2 else [ sort ] then slice-apply 2 sum low"] = .ok turnedPairs := by cbv
  have hrender : turnedPairs.Renderable := by
    simp [turnedPairs, Renderable, Condition.NoDoubleNot, Param.ReadsBack]
    decide
  exact ⟨hparse, hrender, parse_render built_sessionRegistry hparse hrender⟩

end Operation

end DiceTally
