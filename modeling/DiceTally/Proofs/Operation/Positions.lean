import DiceTally.Proofs.Operation.Lengths

/-!
# Dice one by one

A step with one parameter per die, a branch that is picked for each die, a block of dice: what happens to a die
depends on its position.  A pipeline of positional steps and branches changes every die on its own: its result at a
position is computed from the die there (`byPosition_eval`), so what the other dice show makes no difference
(`agree_of_positional`).
-/

namespace DiceTally

/-! ### Branches and blocks by position -/

/-- For each die the result of one branch or the other, as the condition says at its position; both branches must have
kept the number of dice. -/
def mergeByPosition (condition : Condition) (dice taken fallback : Tuple) : Except EvalError Tuple :=
  if taken.length = dice.length ∧ fallback.length = dice.length then
    (dice.zip (taken.zip fallback)).zipIdx.mapM fun ((value, t, f), i) => do
      return if ← condition.eval value i then t else f
  else .error (.branchLength dice.length taken.length fallback.length)

theorem mergeFrom_eq_mapM {condition : Condition} {position : Nat} {dice taken fallback : Tuple}
    (htaken : taken.length = dice.length) (hfallback : fallback.length = dice.length) :
    mergeFrom condition position dice taken fallback =
      ((dice.zip (taken.zip fallback)).zipIdx position).mapM fun ((value, t, f), i) => do
        return if ← condition.eval value i then t else f := by
  induction dice generalizing position taken fallback with
  | nil => rfl
  | cons value dice ih =>
    obtain ⟨t, taken, rfl⟩ := List.exists_cons_of_length_eq_add_one htaken
    obtain ⟨f, fallback, rfl⟩ := List.exists_cons_of_length_eq_add_one hfallback
    rw [mergeFrom, ih (Nat.succ.inj htaken) (Nat.succ.inj hfallback)]
    simp

theorem merge_eq_mergeByPosition (condition : Condition) (dice taken fallback : Tuple) :
    merge condition dice taken fallback = mergeByPosition condition dice taken fallback := by
  unfold merge mergeByPosition
  by_cases h : taken.length = dice.length ∧ fallback.length = dice.length
  · rw [if_neg (by omega), if_pos h, mergeFrom_eq_mapM h.1 h.2]
  · rw [if_pos (by omega), if_neg h]

/-- The full blocks of dice that follow each other. -/
def consecutiveBlocks (size : Nat) (dice : Tuple) : List Tuple :=
  (List.range (dice.length / size)).map fun i => (dice.drop (i * size)).take size

theorem blocks_eq_consecutiveBlocks (size : Nat) (dice : Tuple) : blocks size dice = consecutiveBlocks size dice := by
  have hfrom (count : Nat) (dice : Tuple) :
      blocksFrom size count dice = (List.range count).map fun i => (dice.drop (i * size)).take size := by
    induction count generalizing dice with
    | zero => rfl
    | succ count ih =>
      rw [blocksFrom, ih, List.range_succ_eq_map, List.map_cons, List.map_map, Nat.zero_mul, List.drop_zero]
      refine congrArg (dice.take size :: ·) (List.map_congr_left fun i _ => ?_)
      rw [List.drop_drop, Function.comp_apply, Nat.succ_mul, Nat.add_comm]
  exact hfrom _ dice

/-- The result of each computation stands at the position of its entry. -/
theorem getElem?_of_mapM_eq_ok {α β ε : Type} {f : α → Except ε β} {xs : List α} {ys : List β}
    (h : xs.mapM f = .ok ys) (i : Nat) : ys[i]? = xs[i]?.bind fun x => (f x).toOption := by
  have hboth := mapM_eq_ok_iff.1 h
  clear h
  induction hboth generalizing i with
  | nil => rfl
  | cons hfirst _ ih =>
    cases i with
    | zero => simp [hfirst, Except.toOption]
    | succ i => simpa using ih i

theorem getElem?_zip_bind {α β γ : Type} (xs : List α) (ys : List β) (f : α × β → Option γ) (i : Nat) :
    (xs.zip ys)[i]?.bind f = xs[i]?.bind fun x => ys[i]?.bind fun y => f (x, y) := by
  rw [List.zip_eq_zipWith, List.getElem?_zipWith]
  cases xs[i]? <;> cases ys[i]? <;> rfl

/-! ### Positional pipelines -/

/-- The steps that change every die on its own. -/
def Primitive.isPositional : Primitive → Bool
  | identity | add _ | setTo _ | scale .. | exp .. | bound _ => true
  | _ => false

/-- The pipelines of positional steps and branches. -/
def Operation.isPositional : Operation → Bool
  | primitive step => step.isPositional
  | conditional _ taken otherwise => taken.isPositional && otherwise.isPositional
  | andThen first next => first.isPositional && next.isPositional
  | validated inner => inner.isPositional
  | memoized _ inner => inner.isPositional
  | _ => false

/-- The parameter for the die at a position: the only one, or the one at this position. -/
def paramAt {α : Type} (params : List α) (position : Nat) : Option α :=
  match params with
  | [shared] => some shared
  | _ => params[position]?

theorem paramAt_of_not_shared {α : Type} {params : List α} (h : ∀ shared, params ≠ [shared]) (position : Nat) :
    paramAt params position = params[position]? := by
  unfold paramAt
  split
  · exact absurd rfl (h _)
  · rfl

/-- What `positional` makes of one die. -/
def positionalAt {α : Type} (params : List α) (f : Value → α → Except EvalError Value) (position : Nat)
    (value : Value) : Option Value :=
  (paramAt params position).bind fun p => (f value p).toOption

def Primitive.atPosition : Primitive → Nat → Value → Option Value
  | identity, _, value => some value
  | add values, position, value => positionalAt values addValue position value
  | setTo values, position, value => positionalAt values (fun _ p => .ok p) position value
  | scale factors rounding, position, value =>
    positionalAt factors (fun x f => scaleValue x f rounding) position value
  | exp exponents asBase rounding, position, value =>
    positionalAt exponents (powerValue asBase rounding) position value
  | bound pairs, position, value =>
    positionalAt pairs (fun x (lower, upper) => .ok (clamp x lower upper)) position value
  | _, _, _ => none

/-- The result of a positional pipeline for one die.  Conditions see the value that enters the branch. -/
def Operation.atPosition : Operation → Nat → Value → Option Value
  | primitive step, position, value => step.atPosition position value
  | conditional condition taken otherwise, position, value =>
    (condition.eval value position).toOption.bind fun holds =>
      if holds then taken.atPosition position value else otherwise.atPosition position value
  | andThen first next, position, value => (first.atPosition position value).bind (next.atPosition position)
  | validated inner, position, value => inner.atPosition position value
  | memoized _ inner, position, value => inner.atPosition position value
  | _, _, _ => none

/-- A tuple has been made of another one die by die. -/
structure ByPosition (f : Nat → Value → Option Value) (dice result : Tuple) : Prop where
  length_eq : result.length = dice.length
  getElem?_eq : ∀ i, result[i]? = dice[i]?.bind (f i)

namespace ByPosition

variable {f g : Nat → Value → Option Value} {dice middle result : Tuple}

theorem andThen (hfirst : ByPosition f dice middle) (hnext : ByPosition g middle result) :
    ByPosition (fun i value => (f i value).bind (g i)) dice result where
  length_eq := hnext.length_eq.trans hfirst.length_eq
  getElem?_eq i := by rw [hnext.getElem?_eq, hfirst.getElem?_eq, Option.bind_assoc]

theorem of_positional {α : Type} {operation : String} {params : List α} {f : Value → α → Except EvalError Value}
    (h : positional operation params dice f = .ok result) : ByPosition (positionalAt params f) dice result := by
  unfold positional at h
  split at h
  · exact ⟨length_of_mapM_eq_ok h, getElem?_of_mapM_eq_ok h⟩
  · rename_i hparams
    have hparam (i : Nat) : positionalAt params f i = fun value => params[i]?.bind fun p => (f value p).toOption := by
      funext value
      rw [positionalAt, paramAt_of_not_shared hparams]
    split at h
    · rename_i hlength
      refine ⟨?_, fun i => ?_⟩
      · rw [length_of_mapM_eq_ok h, List.length_zip, hlength, Nat.min_self]
      · rw [getElem?_of_mapM_eq_ok h, getElem?_zip_bind, hparam]
    · cases h

/-- At every position the merged branches have what one of them has there. -/
theorem of_merge {condition : Condition} {taken fallback : Tuple} (htaken : ByPosition f dice taken)
    (hfallback : ByPosition g dice fallback) (h : merge condition dice taken fallback = .ok result) :
    ByPosition (fun i value => (condition.eval value i).toOption.bind fun holds =>
      if holds then f i value else g i value) dice result := by
  rw [merge_eq_mergeByPosition, mergeByPosition, if_pos ⟨htaken.length_eq, hfallback.length_eq⟩] at h
  refine ⟨?_, fun i => ?_⟩
  · rw [length_of_mapM_eq_ok h, List.length_zipIdx, List.length_zip, List.length_zip, htaken.length_eq,
      hfallback.length_eq, Nat.min_self, Nat.min_self]
  rw [getElem?_of_mapM_eq_ok h, List.getElem?_zipIdx, Nat.zero_add, Option.bind_map, getElem?_zip_bind]
  cases hvalue : dice[i]? with
  | none => rfl
  | some value =>
    -- both branches have a value at the position of a die
    have hlt := (List.getElem?_eq_some_iff.1 hvalue).1
    have ht := htaken.getElem?_eq i
    have hf := hfallback.getElem?_eq i
    rw [List.getElem?_eq_getElem (htaken.length_eq ▸ hlt), hvalue, Option.bind_some] at ht
    rw [List.getElem?_eq_getElem (hfallback.length_eq ▸ hlt), hvalue, Option.bind_some] at hf
    rw [Option.bind_some, getElem?_zip_bind, List.getElem?_eq_getElem (htaken.length_eq ▸ hlt),
      List.getElem?_eq_getElem (hfallback.length_eq ▸ hlt), Option.bind_some, Option.bind_some, Option.bind_some,
      ← ht, ← hf]
    dsimp only [Function.comp_apply]
    cases condition.eval value i with
    | error e => rfl
    | ok holds => cases holds <;> rfl

end ByPosition

theorem Primitive.byPosition_apply {step : Primitive} (hstep : step.isPositional = true) {dice result : Tuple}
    (h : step.apply dice = .ok result) : ByPosition step.atPosition dice result := by
  cases step with
  | identity =>
    cases h
    exact ⟨rfl, fun i => (Option.bind_fun_some _).symm⟩
  | add | setTo | scale | exp | bound => exact .of_positional h
  | reduce | sort | reroll | select => cases hstep

namespace Operation

/-- What a positional pipeline makes of a tuple it makes die by die. -/
theorem byPosition_eval {op : Operation} (hop : op.isPositional = true) {dice result : Tuple}
    (h : op.eval dice = .ok result) : ByPosition op.atPosition dice result := by
  induction op generalizing dice result with
  | primitive step => exact step.byPosition_apply hop h
  | conditional condition taken otherwise ihtaken ihotherwise =>
    obtain ⟨htaken, hotherwise⟩ := Bool.and_eq_true_iff.1 hop
    obtain ⟨t, ht, h⟩ := bind_eq_ok_iff.1 h
    obtain ⟨f, hf, h⟩ := bind_eq_ok_iff.1 h
    exact (ihtaken htaken ht).of_merge (ihotherwise hotherwise hf) h
  | andThen first next ihfirst ihnext =>
    obtain ⟨hfirst, hnext⟩ := Bool.and_eq_true_iff.1 hop
    obtain ⟨middle, hmiddle, h⟩ := bind_eq_ok_iff.1 h
    exact (ihfirst hfirst hmiddle).andThen (ihnext hnext h)
  | validated inner ih => exact ih hop (mapError_eq_ok_iff.1 h)
  | memoized slot inner ih => exact ih hop h
  | sliceApply | native | defined => cases hop

/-- A positional pipeline changes every die on its own: however often its evaluators have been used, two results have
as many values as there are dice, and they agree wherever the dice do. -/
theorem agree_of_positional {options : ParseOptions} {words : List String} {op : Operation}
    (h : parse ⟨.empty, options⟩ words = .ok op) (hop : op.isPositional = true) (evaluator evaluator' : op.Evaluator)
    {x y result result' : Tuple} (hlength : x.length = y.length) (hx : evaluator.answer x = .ok result)
    (hy : evaluator'.answer y = .ok result') :
    result.length = x.length ∧ result'.length = x.length ∧ ∀ i : Nat, x[i]? = y[i]? → result[i]? = result'[i]? := by
  rw [evaluator.answer_eq .empty h] at hx
  rw [evaluator'.answer_eq .empty h] at hy
  have hresult := byPosition_eval hop hx
  have hresult' := byPosition_eval hop hy
  refine ⟨hresult.length_eq, hresult'.length_eq.trans hlength.symm, fun i hi => ?_⟩
  rw [hresult.getElem?_eq, hresult'.getElem?_eq, hi]

/-- The pipeline `[ add 1 2 ] if gt 2 then bound 0 5` with cached levels. -/
def raised : Operation :=
  .andThen (.conditional (.compare .gt [2]) (.memoized 0 (.primitive (.add [1, 2]))) (.primitive .identity))
    (.memoized 1 (.primitive (.bound [(0, 5)])))

theorem agree_of_positional_raised :
    parse ⟨.empty, ⟨false, true⟩⟩ ["[ add 1 2 ] if gt 2", "then bound 0 5"] = .ok raised ∧
      raised.isPositional = true ∧
      (⟨none, []⟩ : raised.Evaluator).answer [3, 1] = .ok [4, 1] ∧
      (⟨some 1, [.apply [3, 1]]⟩ : raised.Evaluator).answer [3, 6] = .ok [4, 5] ∧
      ∀ i : Nat, ([3, 1] : Tuple)[i]? = ([3, 6] : Tuple)[i]? → ([4, 1] : Tuple)[i]? = ([4, 5] : Tuple)[i]? := by
  have hparse : parse ⟨.empty, ⟨false, true⟩⟩ ["[ add 1 2 ] if gt 2", "then bound 0 5"] = .ok raised := by cbv
  have hlength : ([3, 1] : Tuple).length = ([3, 6] : Tuple).length := rfl
  have hx : (⟨none, []⟩ : raised.Evaluator).answer [3, 1] = .ok [4, 1] := by cbv
  have hy : (⟨some 1, [.apply [3, 1]]⟩ : raised.Evaluator).answer [3, 6] = .ok [4, 5] := by cbv
  exact ⟨hparse, rfl, hx, hy, (agree_of_positional hparse rfl _ _ hlength hx hy).2.2⟩

end Operation

end DiceTally
