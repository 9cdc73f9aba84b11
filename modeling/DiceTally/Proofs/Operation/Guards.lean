import DiceTally.Proofs.Operation.Positions

/-!
# Guarded steps

A positional step under a condition is applied to all dice before the condition is asked which of its results to take
(`merge`).  So the condition keeps the other dice as they are, but it does not keep a failure away: the step fails with
the first die that it fails on, whether or not the condition holds there (`eval_guarded`,
`guard_does_not_prevent_overflow`).  A step that never fails needs no such care (`Primitive.works_of_neverFails`).
-/

namespace DiceTally

/-! ### Die by die, with failures -/

/-- What happens to a die at a position, as a result or a failure; none where there is no parameter for the die. -/
abbrev Element := Nat → Value → Option (Except EvalError Value)

namespace Element

variable (element : Element)

/-- There is a result at every position. -/
def Works (dice : Tuple) : Prop :=
  ∀ i value, dice[i]? = some value → ∃ v, element i value = some (.ok v)

/-- The first die without a result fails with the given error. -/
def FirstFails (dice : Tuple) (e : EvalError) : Prop :=
  ∃ before value after, dice = before ++ value :: after ∧ element before.length value = some (.error e) ∧
    element.Works before

variable {element}

theorem works_map {γ : Type} {die : γ → Value} {items : List γ}
    (h : ∀ i item, items[i]? = some item → ∃ v, element i (die item) = some (.ok v)) :
    element.Works (items.map die) := by
  intro i value hi
  rw [List.getElem?_map, Option.map_eq_some_iff] at hi
  obtain ⟨item, hitem, rfl⟩ := hi
  exact h i item hitem

theorem not_works_of_firstFails {dice : Tuple} {e : EvalError} (h : element.FirstFails dice e) :
    ¬element.Works dice := by
  obtain ⟨before, value, after, rfl, hfails, -⟩ := h
  intro hworks
  obtain ⟨v, hv⟩ := hworks before.length value (by simp)
  rw [hfails] at hv
  cases hv

end Element

/-- The element function of `positional`. -/
def elementAt {α : Type} (params : List α) (f : Value → α → Except EvalError Value) : Element :=
  fun position value => (paramAt params position).map (f value)

theorem positionalAt_eq_bind {α : Type} (params : List α) (f : Value → α → Except EvalError Value) (position : Nat)
    (value : Value) :
    positionalAt params f position value = (elementAt params f position value).bind Except.toOption := by
  rw [elementAt, Option.bind_map]
  rfl

/-- A list of computations, one for each die, decided die by die. -/
theorem mapM_element_cases {γ : Type} (element : Element) (die : γ → Value) (f : γ → Except EvalError Value)
    (items : List γ) (h : ∀ i item, items[i]? = some item → element i (die item) = some (f item)) :
    (element.Works (items.map die) ∧ ∃ result, items.mapM f = .ok result) ∨
      ∃ e, element.FirstFails (items.map die) e ∧ items.mapM f = .error e := by
  cases hall : items.mapM f with
  | ok result =>
    refine .inl ⟨Element.works_map fun i item hitem => ?_, result, rfl⟩
    obtain ⟨v, -, hv⟩ := exists_of_mem_forall₂ (mapM_eq_ok_iff.1 hall) (List.mem_of_getElem? hitem)
    exact ⟨v, (h i item hitem).trans (congrArg some hv)⟩
  | error e =>
    obtain ⟨before, item, after, rfl, hbefore, hfails⟩ := mapM_eq_error_iff.1 hall
    have hitem : (before ++ item :: after)[before.length]? = some item := by simp
    have hworks : element.Works (before.map die) := by
      refine Element.works_map fun i item' hitem' => ?_
      obtain ⟨v, hv⟩ := hbefore item' (List.mem_of_getElem? hitem')
      have hlt : i < before.length := (List.getElem?_eq_some_iff.1 hitem').1
      exact ⟨v, (h i item' ((List.getElem?_append_left hlt).trans hitem')).trans (congrArg some hv)⟩
    refine .inr ⟨e, ⟨before.map die, die item, after.map die, by simp, ?_, hworks⟩, rfl⟩
    rw [List.length_map, h _ _ hitem, hfails]

/-- With a parameter for every die the dice decide alone: there is a result if there is one for each of them, and
otherwise the failure of the first die without one. -/
theorem positional_cases {α : Type} {params : List α} {dice : Tuple} (operation : String)
    (f : Value → α → Except EvalError Value) (h : params.length = 1 ∨ params.length = dice.length) :
    ((elementAt params f).Works dice ∧ ∃ result, positional operation params dice f = .ok result) ∨
      ∃ e, (elementAt params f).FirstFails dice e ∧ positional operation params dice f = .error e := by
  unfold positional
  split
  · rename_i shared
    have hall := mapM_element_cases (elementAt [shared] f) id (fun x => f x shared) dice
      fun _ _ _ => rfl
    rwa [List.map_id] at hall
  · rename_i hparams
    have hlength : params.length = dice.length := by
      refine h.resolve_left fun hone => ?_
      obtain ⟨shared, hshared⟩ := List.length_eq_one_iff.1 hone
      exact hparams shared hshared
    have hall := mapM_element_cases (elementAt params f) Prod.fst (fun item => f item.1 item.2)
      (dice.zip params) fun i item hi => by
        rw [elementAt, paramAt_of_not_shared hparams, (List.getElem?_zip_eq_some.1 hi).2]
        rfl
    rw [List.map_fst_zip (Nat.le_of_eq hlength.symm)] at hall
    rw [if_pos hlength]
    exact hall

namespace Primitive

/-- The number of parameters of a positional step; none for the other steps. -/
def parameterCount? : Primitive → Option Nat
  | add values | setTo values => some values.length
  | scale factors _ => some factors.length
  | exp exponents .. => some exponents.length
  | bound pairs => some pairs.length
  | _ => none

/-- What a positional step does with one die. -/
def element : Primitive → Element
  | add values => elementAt values addValue
  | setTo values => elementAt values fun _ p => .ok p
  | scale factors rounding => elementAt factors fun x f => scaleValue x f rounding
  | exp exponents asBase rounding => elementAt exponents (powerValue asBase rounding)
  | bound pairs => elementAt pairs fun x (lower, upper) => .ok (clamp x lower upper)
  | _ => fun _ _ => none

/-- The positional steps that have a result whatever the dice show. -/
def neverFails : Primitive → Bool
  | setTo _ | bound _ => true
  | _ => false

variable {step : Primitive} {count : Nat} {dice : Tuple}

theorem isPositional_of_parameterCount (h : step.parameterCount? = some count) : step.isPositional = true := by
  cases step with
  | add | setTo | scale | exp | bound => rfl
  | identity | reduce | sort | reroll | select => cases h

theorem atPosition_eq_bind (h : step.parameterCount? = some count) (position : Nat) (value : Value) :
    step.atPosition position value = (step.element position value).bind Except.toOption := by
  cases step with
  | add | setTo | scale | exp | bound =>
    rw [atPosition, positionalAt_eq_bind]
    rfl
  | identity | reduce | sort | reroll | select => cases h

theorem apply_cases (h : step.parameterCount? = some count) (hcount : count = 1 ∨ count = dice.length) :
    (step.element.Works dice ∧ ∃ result, step.apply dice = .ok result) ∨
      ∃ e, step.element.FirstFails dice e ∧ step.apply dice = .error e := by
  cases step with
  | add | setTo | scale | exp | bound =>
    obtain rfl := Option.some.inj h
    exact positional_cases _ _ hcount
  | identity | reduce | sort | reroll | select => cases h

theorem works_of_neverFails (hnever : step.neverFails = true) (h : step.parameterCount? = some count)
    (hcount : count = 1 ∨ count = dice.length) : step.element.Works dice := by
  rcases apply_cases h hcount with ⟨hworks, -⟩ | ⟨e, ⟨before, value, after, -, hfails, -⟩, -⟩
  · exact hworks
  · cases step with
    | setTo | bound =>
      obtain ⟨p, -, hp⟩ := Option.map_eq_some_iff.1 hfails
      cases hp
    | identity | add | scale | exp | reduce | sort | reroll | select => cases hnever

end Primitive

/-! ### Under a condition -/

/-- Two branches can be merged where the condition has an answer for every die. -/
theorem exists_merge {condition : Condition} {dice taken fallback : Tuple} (htaken : taken.length = dice.length)
    (hfallback : fallback.length = dice.length)
    (hcondition : ∀ i value, dice[i]? = some value → ∃ holds, condition.eval value i = .ok holds) :
    ∃ result, merge condition dice taken fallback = .ok result := by
  rw [merge_eq_mergeByPosition, mergeByPosition, if_pos ⟨htaken, hfallback⟩]
  refine exists_mapM_eq_ok ?_
  rintro ⟨⟨value, t, f⟩, i⟩ hmem
  have hvalue : dice[i]? = some value :=
    (List.getElem?_zip_eq_some.1 (List.mk_mem_zipIdx_iff_getElem?.1 hmem)).1
  obtain ⟨holds, hholds⟩ := hcondition i value hvalue
  exact ⟨if holds then t else f, by simp [hholds]⟩

namespace Operation

/-- A step with a condition and no other branch. -/
def guarded (condition : Condition) (step : Primitive) : Operation :=
  conditional condition (primitive step) (primitive .identity)

/-- What a condition takes from the results of a step for all dice. -/
theorem eval_guarded_of_byPosition {condition : Condition} {step : Primitive} {dice taken : Tuple}
    {f : Nat → Value → Option Value}
    (hcondition : ∀ i value, dice[i]? = some value → ∃ holds, condition.eval value i = .ok holds)
    (htaken : step.apply dice = .ok taken) (hby : ByPosition f dice taken) :
    ∃ result, (guarded condition step).eval dice = .ok result ∧
      ByPosition (fun i value => (condition.eval value i).toOption.bind fun holds =>
        if holds then f i value else some value) dice result := by
  obtain ⟨result, hmerge⟩ := exists_merge hby.length_eq rfl hcondition
  refine ⟨result, ?_, hby.of_merge ⟨rfl, fun i => (Option.bind_fun_some _).symm⟩ hmerge⟩
  rw [guarded, eval, eval, eval, htaken]
  exact hmerge

section

variable {condition : Condition} {step : Primitive} {count : Nat} {dice : Tuple}
  (hstep : step.parameterCount? = some count) (hcount : count = 1 ∨ count = dice.length)

include hstep hcount

theorem eval_guarded_of_works
    (hcondition : ∀ i value, dice[i]? = some value → ∃ holds, condition.eval value i = .ok holds)
    (hworks : step.element.Works dice) :
    ∃ result, (guarded condition step).eval dice = .ok result ∧ result.length = dice.length ∧
      ∀ i value, dice[i]? = some value → ∃ v holds, step.element i value = some (.ok v) ∧
        condition.eval value i = .ok holds ∧ result[i]? = some (if holds then v else value) := by
  rcases step.apply_cases hstep hcount with ⟨-, taken, htaken⟩ | ⟨e, hfails, -⟩
  case inr => exact absurd hworks (Element.not_works_of_firstFails hfails)
  have hby := step.byPosition_apply (Primitive.isPositional_of_parameterCount hstep) htaken
  obtain ⟨result, hok, hresult⟩ := eval_guarded_of_byPosition hcondition htaken hby
  refine ⟨result, hok, hresult.length_eq, fun i value hvalue => ?_⟩
  obtain ⟨v, hv⟩ := hworks i value hvalue
  obtain ⟨holds, hholds⟩ := hcondition i value hvalue
  have hposition : step.atPosition i value = some v := by
    rw [Primitive.atPosition_eq_bind hstep, hv]
    rfl
  refine ⟨v, holds, hv, hholds, ?_⟩
  rw [hresult.getElem?_eq, hvalue, Option.bind_some, hholds, hposition]
  cases holds <;> rfl

/-- The step is applied to all dice before the condition is looked at. -/
theorem eval_guarded_of_not_works (condition : Condition) (hnot : ¬step.element.Works dice) :
    ∃ e, step.element.FirstFails dice e ∧ (guarded condition step).eval dice = .error e := by
  rcases step.apply_cases hstep hcount with ⟨hworks, -⟩ | ⟨e, hfails, herror⟩
  case inl => exact absurd hworks hnot
  refine ⟨e, hfails, ?_⟩
  rw [guarded, eval, eval, herror]
  rfl

end

/-- A positional step under a condition that has an answer for every die.  If the step has a result for every die, those
stand where the condition holds and the dice elsewhere; otherwise it fails with the first die without a result, which
may be one that the condition excludes.  `set-to` and `bound` have a result for every die. -/
theorem eval_guarded {condition : Condition} {step : Primitive} {count : Nat} {dice : Tuple}
    (hstep : step.parameterCount? = some count) (hcount : count = 1 ∨ count = dice.length)
    (hcondition : ∀ i value, dice[i]? = some value → ∃ holds, condition.eval value i = .ok holds) :
    (step.element.Works dice →
        ∃ result, (guarded condition step).eval dice = .ok result ∧ result.length = dice.length ∧
          ∀ i value, dice[i]? = some value → ∃ v holds, step.element i value = some (.ok v) ∧
            condition.eval value i = .ok holds ∧ result[i]? = some (if holds then v else value)) ∧
      (¬step.element.Works dice →
        ∃ e, step.element.FirstFails dice e ∧ (guarded condition step).eval dice = .error e) ∧
      (step.neverFails = true → step.element.Works dice) :=
  ⟨eval_guarded_of_works hstep hcount hcondition, eval_guarded_of_not_works hstep hcount condition,
    fun hnever => step.works_of_neverFails hnever hstep hcount⟩

/-- The condition holds for the second die only, and there the step has a result; but it is applied to the first die
as well. -/
theorem guard_does_not_prevent_overflow :
    parse ⟨.empty, ⟨false, false⟩⟩ ["add 1 if lt 0"] = .ok (guarded (.compare .lt [0]) (.add [1])) ∧
      (Condition.compare .lt [0]).eval Int64.maxValue 0 = .ok false ∧
      (Condition.compare .lt [0]).eval (-3) 1 = .ok true ∧
      (Primitive.add [1]).element 1 (-3) = some (.ok (-2)) ∧
      (guarded (.compare .lt [0]) (.add [1])).eval [Int64.maxValue, -3] = .error (.overflow "add") :=
  ⟨by cbv, by cbv, by cbv, by cbv, by cbv⟩

/-- `add -1 if gt 2` keeps a second die that shows two, and fails if that die shows the least value. -/
theorem eval_guarded_second_die :
    (Primitive.add [-1]).parameterCount? = some 1 ∧
      (∀ i value, ([5, 2] : Tuple)[i]? = some value →
        ∃ holds, (Condition.compare .gt [2]).eval value i = .ok holds) ∧
      (Primitive.add [-1]).element.Works [5, 2] ∧
      (∃ result, (guarded (.compare .gt [2]) (.add [-1])).eval [5, 2] = .ok result ∧ result.length = 2 ∧
        result[1]? = some 2) ∧
      ¬(Primitive.add [-1]).element.Works [5, Int64.minValue] ∧
      ∃ e, (guarded (.compare .gt [2]) (.add [-1])).eval [5, Int64.minValue] = .error e := by
  have hcondition (dice : Tuple) (i : Nat) (value : Value) (_ : dice[i]? = some value) :
      ∃ holds, (Condition.compare .gt [2]).eval value i = .ok holds := ⟨_, rfl⟩
  have hworks : (Primitive.add [-1]).element.Works [5, 2] := by
    rintro (_ | _ | i) value hi
    · obtain rfl := Option.some.inj hi
      exact ⟨4, by cbv⟩
    · obtain rfl := Option.some.inj hi
      exact ⟨1, by cbv⟩
    · cases hi
  have hnot : ¬(Primitive.add [-1]).element.Works [5, Int64.minValue] := by
    intro h
    obtain ⟨v, hv⟩ := h 1 Int64.minValue rfl
    have hfails : (Primitive.add [-1]).element 1 Int64.minValue = some (.error (.overflow "add")) := by cbv
    rw [hfails] at hv
    cases hv
  obtain ⟨result, hresult, hlength, hat⟩ := (eval_guarded rfl (.inl rfl) (hcondition [5, 2])).1 hworks
  obtain ⟨v, holds, -, hholds, hsecond⟩ := hat 1 2 rfl
  have hfalse : (Condition.compare .gt [2]).eval 2 1 = .ok false := rfl
  obtain rfl : false = holds := Except.ok.inj (hfalse.symm.trans hholds)
  obtain ⟨e, -, herror⟩ := (eval_guarded rfl (.inl rfl) (hcondition [5, Int64.minValue])).2.1 hnot
  exact ⟨rfl, hcondition _, hworks, ⟨result, hresult, hlength, hsecond⟩, hnot, e, herror⟩

/-- Evaluators that have been used before do the same. -/
theorem answer_guarded {condition : Condition} {step : Primitive} {count : Nat} {dice : Tuple}
    (hstep : step.parameterCount? = some count) (hcount : count = 1 ∨ count = dice.length)
    (hcondition : ∀ i value, dice[i]? = some value → ∃ holds, condition.eval value i = .ok holds)
    (evaluator : (guarded condition step).Evaluator) :
    (step.element.Works dice →
        ∃ result, evaluator.answer dice = .ok result ∧ result.length = dice.length ∧
          ∀ i value, dice[i]? = some value → ∃ v holds, step.element i value = some (.ok v) ∧
            condition.eval value i = .ok holds ∧ result[i]? = some (if holds then v else value)) ∧
      (¬step.element.Works dice → ∃ e, step.element.FirstFails dice e ∧ evaluator.answer dice = .error e) := by
  have hop : (guarded condition step).Linked .empty := ⟨trivial, trivial⟩
  have happart : (guarded condition step).Apart := List.nodup_nil
  rw [evaluator.answer_of_linked Registry.Built.empty.parsed hop happart]
  exact ⟨eval_guarded_of_works hstep hcount hcondition, eval_guarded_of_not_works hstep hcount condition⟩

end Operation

end DiceTally
