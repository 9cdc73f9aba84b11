import DiceTally.Proofs.Operation.Positions
import DiceTally.Proofs.Operation.Stages

/-!
# Shared parameters

A step takes one parameter for all dice or one per die, and a condition one operand for all positions or one per
position.  The two forms agree: with a copy of the only parameter for every die a step does the same
(`Primitive.apply_spread`), and with a copy of the only operand for every position a condition has the same answers
(`Condition.eval_spread`).  So `if` blocks and positional pipelines do the same as well, failures included
(`shared_eq_repeated`), also when they are used with caches (`answer_spread`).
-/

namespace DiceTally

/-! ### One parameter and its copies -/

/-- Copies of the only parameter, `n` of them; several parameters stay as they are. -/
def spread {α : Type} (n : Nat) : List α → List α
  | [shared] => List.replicate n shared
  | params => params

theorem zip_replicate_length {α : Type} (dice : Tuple) (shared : α) :
    dice.zip (List.replicate dice.length shared) = dice.map fun x => (x, shared) := by
  induction dice with
  | nil => rfl
  | cons x dice ih => rw [List.length_cons, List.replicate_succ, List.zip_cons_cons, ih, List.map_cons]

/-- Either a list has not changed, or the only element that it had has been copied and it now has none or several. -/
theorem spread_cases {α : Type} (n : Nat) (params : List α) :
    spread n params = params ∨
      ∃ shared, params = [shared] ∧ spread n params = List.replicate n shared ∧ ∀ only, spread n params ≠ [only] := by
  unfold spread
  split
  · rename_i shared
    by_cases hn : n = 1
    · exact .inl (by rw [hn]; rfl)
    · refine .inr ⟨shared, rfl, rfl, fun only heq => hn ?_⟩
      have hlength := congrArg List.length heq
      rwa [List.length_replicate, List.length_singleton] at hlength
  · exact .inl rfl

theorem operandAt_spread (keyword : String) (operands : List Value) {n position : Nat} (h : position < n) :
    operandAt keyword (spread n operands) position = operandAt keyword operands position := by
  rcases spread_cases n operands with hsame | ⟨shared, rfl, hcopies, hseveral⟩
  · rw [hsame]
  · have hoperand : (spread n [shared])[position]? = some shared := by
      rw [hcopies]
      exact List.getElem?_replicate_of_lt h
    unfold operandAt
    split
    · rename_i only heq
      exact absurd heq (hseveral only)
    · rw [hoperand]

theorem positional_spread {α : Type} (operation : String) (params : List α) (dice : Tuple)
    (f : Value → α → Except EvalError Value) :
    positional operation (spread dice.length params) dice f = positional operation params dice f := by
  rcases spread_cases dice.length params with hsame | ⟨shared, rfl, hcopies, hseveral⟩
  · rw [hsame]
  · have hzip : dice.zip (spread dice.length [shared]) = dice.map fun x => (x, shared) := by
      rw [hcopies]
      exact zip_replicate_length dice shared
    have hlength : (spread dice.length [shared]).length = dice.length := by
      rw [hcopies, List.length_replicate]
    unfold positional
    split
    · rename_i only heq
      exact absurd heq (hseveral only)
    · rw [if_pos hlength, hzip, List.mapM_map]
      rfl

/-! ### Conditions -/

/-- A condition with its only operands and divisors copied. -/
def Condition.spread (n : Nat) : Condition → Condition
  | always => always
  | compare comparison operands => compare comparison (DiceTally.spread n operands)
  | modulo divisors inner => modulo (DiceTally.spread n divisors) (inner.spread n)
  | not inner => not (inner.spread n)
  | and left right => and (left.spread n) (right.spread n)
  | or left right => or (left.spread n) (right.spread n)

/-- A condition has the same answers at all positions that there are copies for. -/
theorem Condition.eval_spread (c : Condition) (value : Value) {n position : Nat} (h : position < n) :
    (c.spread n).eval value position = c.eval value position := by
  induction c generalizing value with
  | always => rfl
  | compare comparison operands => simp only [Condition.spread, eval, operandAt_spread _ _ h]
  | modulo divisors inner ih => simp only [Condition.spread, eval, operandAt_spread _ _ h, ih]
  | not inner ih => simp only [Condition.spread, eval, ih]
  | and left right ihleft ihright => simp only [Condition.spread, eval, ihleft, ihright]
  | or left right ihleft ihright => simp only [Condition.spread, eval, ihleft, ihright]

theorem rerollFrom_spread (c : Condition) {n position : Nat} {dice : Tuple} (h : position + dice.length ≤ n) :
    rerollFrom (c.spread n) position dice = rerollFrom c position dice := by
  fun_induction rerollFrom c position dice with
  | case1 => rfl
  | case2 => rfl
  | case3 position value rest hrest ih =>
    rw [List.length_cons] at h
    rw [rerollFrom.eq_3 _ _ _ _ hrest, c.eval_spread value (by omega), ih (by omega)]

theorem mergeFrom_spread (c : Condition) {n position : Nat} {dice : Tuple} (h : position + dice.length ≤ n)
    (taken fallback : Tuple) :
    mergeFrom (c.spread n) position dice taken fallback = mergeFrom c position dice taken fallback := by
  fun_induction mergeFrom c position dice taken fallback with
  | case1 position value dice t taken f fallback ih =>
    rw [List.length_cons] at h
    rw [mergeFrom, c.eval_spread value (by omega), ih (by omega)]
  | case2 position dice taken fallback hend => rw [mergeFrom.eq_2 _ _ _ _ _ hend]

theorem merge_spread (c : Condition) (dice taken fallback : Tuple) :
    merge (c.spread dice.length) dice taken fallback = merge c dice taken fallback := by
  rw [merge, merge, mergeFrom_spread c (Nat.le_of_eq (Nat.zero_add _))]

/-! ### Steps and pipelines -/

/-- A step with its only parameter copied, or with the operands of its condition. -/
def Primitive.spread (n : Nat) : Primitive → Primitive
  | add values => add (DiceTally.spread n values)
  | setTo values => setTo (DiceTally.spread n values)
  | scale factors rounding => scale (DiceTally.spread n factors) rounding
  | exp exponents asBase rounding => exp (DiceTally.spread n exponents) asBase rounding
  | bound pairs => bound (DiceTally.spread n pairs)
  | reroll condition => reroll (condition.spread n)
  | step => step

/-- A step with a copy for every die does the same. -/
theorem Primitive.apply_spread (step : Primitive) (dice : Tuple) :
    (step.spread dice.length).apply dice = step.apply dice := by
  cases step with
  | add | setTo | scale | exp | bound => exact positional_spread ..
  | reroll condition =>
    simp only [Primitive.spread, apply, rerollFrom_spread condition (Nat.le_of_eq (Nat.zero_add dice.length))]
  | identity | reduce | sort | select => rfl

namespace Operation

/-- An operation on `n` dice with copies in the place of all that is shared.  What does not look at these dice one by
one stays as it is: the results of blocks, the calls of named operations, and what follows a stage that may change
the number of dice. -/
def spread (n : Nat) : Operation → Operation
  | primitive step => primitive (step.spread n)
  | conditional condition taken otherwise => conditional (condition.spread n) (taken.spread n) (otherwise.spread n)
  | andThen first next => andThen (first.spread n) (if first.isPositional then next.spread n else next)
  | validated inner => validated (inner.spread n)
  | memoized slot inner => memoized slot (inner.spread n)
  | op => op

/-- The same result with copies in the place of what is shared.  If levels are `validated`, the words of a failing
stage are others, so failures are compared by their root causes. -/
theorem mapError_eval_spread {op : Operation} {view : EvalError → EvalError}
    (hview : op.stages = [] ∨ view = EvalError.rootCause) (dice : Tuple) :
    ((op.spread dice.length).eval dice).mapError view = (op.eval dice).mapError view := by
  -- a part that is evaluated on as many dice does the same, whatever comes before and after it
  have parts {op₁ op₂ : Operation} (h : op₁.stages ++ op₂.stages = [] ∨ view = EvalError.rootCause) :
      (op₁.stages = [] ∨ view = EvalError.rootCause) ∧ (op₂.stages = [] ∨ view = EvalError.rootCause) := by
    rcases h with h | h
    · exact ⟨.inl (List.append_eq_nil_iff.1 h).1, .inl (List.append_eq_nil_iff.1 h).2⟩
    · exact ⟨.inr h, .inr h⟩
  induction op generalizing dice with
  | primitive step => rw [spread, eval, eval, step.apply_spread]
  | conditional condition taken otherwise ihtaken ihotherwise =>
    obtain ⟨htaken, hotherwise⟩ := parts hview
    simp only [spread, eval, mapError_bind, ihtaken htaken, ihotherwise hotherwise, merge_spread]
  | andThen first next ihfirst ihnext =>
    obtain ⟨hfirst, hnext⟩ := parts hview
    simp only [spread, eval, mapError_bind, ihfirst hfirst]
    cases hmiddle : first.eval dice with
    | error e => rfl
    | ok middle =>
      show (Operation.eval _ middle).mapError view = (next.eval middle).mapError view
      split
      · rename_i hpositional
        have hlength := (byPosition_eval hpositional hmiddle).length_eq
        rw [← hlength]
        exact ihnext hnext middle
      · rfl
  | validated inner ih =>
    rcases hview with hstages | rfl
    · simp [stages] at hstages
    · have hinner : rooted ((inner.spread dice.length).eval dice) = rooted (inner.eval dice) := ih (.inr rfl) dice
      calc rooted ((validated (inner.spread dice.length)).eval dice)
          = rooted ((inner.spread dice.length).eval dice) := rooted_within ..
        _ = rooted (inner.eval dice) := hinner
        _ = rooted ((validated inner).eval dice) := (rooted_within ..).symm
  | memoized slot inner ih => exact ih hview dice
  | sliceApply | native | defined => rfl

/-- Without `validated` levels the failures are the same as well. -/
theorem eval_spread {op : Operation} (hstages : op.stages = []) (dice : Tuple) :
    (op.spread dice.length).eval dice = op.eval dice := by
  have hview : ((op.spread dice.length).eval dice).mapError id = (op.eval dice).mapError id :=
    mapError_eval_spread (.inl hstages) dice
  rwa [mapError_id, mapError_id] at hview

/-- One parameter for all dice is the same as a copy of it for every die.  With copies in the place of the only
parameter or pair of bounds every step has the same result or failure; with copies in the place of the only operands
and divisors every condition has the same answer or failure at every position; and so have `if` blocks and pipelines
that are made of them.  With `validated` levels, which report the words of a stage, the root causes are the same. -/
theorem shared_eq_repeated (dice : Tuple) :
    (∀ step : Primitive, (step.spread dice.length).apply dice = step.apply dice) ∧
      (∀ (c : Condition) (value : Value) (position : Nat), position < dice.length →
        (c.spread dice.length).eval value position = c.eval value position) ∧
      ∀ op : Operation, rooted ((op.spread dice.length).eval dice) = rooted (op.eval dice) ∧
        (op.stages = [] → (op.spread dice.length).eval dice = op.eval dice) := by
  refine ⟨fun step => step.apply_spread dice, fun c value position h => c.eval_spread value h, fun op => ⟨?_, ?_⟩⟩
  · exact mapError_eval_spread (.inr rfl) dice
  · exact fun hstages => eval_spread hstages dice

/-- `[ add 1 ] if mod 2 eq 1 else bound 0 9` on three dice, and what it is the same as. -/
example : (conditional (.modulo [2] (.compare .eq [1])) (primitive (.add [1])) (primitive (.bound [(0, 9)]))).spread 3 =
    conditional (.modulo [2, 2, 2] (.compare .eq [1, 1, 1])) (primitive (.add [1, 1, 1]))
      (primitive (.bound [(0, 9), (0, 9), (0, 9)])) := rfl

/-! ### Used evaluators -/

/-- Copies change neither the caches nor the named pipelines. -/
theorem memos_spread (n : Nat) (op : Operation) : (op.spread n).memos.map Prod.fst = op.memos.map Prod.fst := by
  induction op with
  | conditional condition taken otherwise ihtaken ihotherwise =>
    simp only [spread, memos, List.map_append, ihtaken, ihotherwise]
  | andThen first next ihfirst ihnext =>
    simp only [spread, memos, List.map_append, ihfirst]
    split
    · rw [ihnext]
    · rfl
  | validated inner ih => exact ih
  | memoized slot inner ih => simp only [spread, memos, List.map_append, ih, List.map_cons, List.map_nil]
  | primitive | sliceApply | native | defined => rfl

theorem Linked.spread {registry : Registry} {op : Operation} (h : op.Linked registry) (n : Nat) :
    (op.spread n).Linked registry := by
  induction op with
  | conditional condition taken otherwise ihtaken ihotherwise => exact ⟨ihtaken h.1, ihotherwise h.2⟩
  | andThen first next ihfirst ihnext =>
    refine ⟨ihfirst h.1, ?_⟩
    split
    · exact ihnext h.2
    · exact h.2
  | validated inner ih => exact ih h
  | memoized slot inner ih => exact ih h
  | primitive | sliceApply | native | defined => exact h

/-- Used with caches, an operation and its copy have the same answers to dice that there are copies for. -/
theorem answer_spread {registry : Registry} (hregistry : registry.Parsed) {op : Operation} (hop : op.Linked registry)
    (happart : op.Apart) (dice : Tuple) (copied : (op.spread dice.length).Evaluator) (evaluator : op.Evaluator) :
    rooted (copied.answer dice) = rooted (evaluator.answer dice) ∧
      (op.stages = [] → copied.answer dice = evaluator.answer dice) := by
  have hcopied : (op.spread dice.length).Apart := by
    rw [Apart, memos_spread]
    exact happart
  rw [copied.answer_of_linked hregistry (hop.spread _) hcopied, evaluator.answer_of_linked hregistry hop happart]
  exact ⟨mapError_eval_spread (.inr rfl) dice, fun hstages => eval_spread hstages dice⟩

end Operation

end DiceTally
