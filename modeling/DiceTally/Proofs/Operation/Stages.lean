import DiceTally.Proofs.Operation.Failures
import DiceTally.Proofs.Operation.Sessions

/-!
# Stages of a failure

With `validated` levels a failure names the innermost level that it comes from, and the tuple given to it.  Without
them the same tuples have results, and the others fail with the same cause and no stage (`eval_reports`).  The level
that is named, evaluated alone on the tuple that is named, fails with this cause.
-/

namespace DiceTally

/-! ### Failures without stages -/

/-- A result, or a failure that names no stage. -/
abbrev Bare {α : Type} (x : Except EvalError α) : Prop := FailsAs (fun e => e.isStage = false) x

section Bare

variable {α : Type}

theorem bare_of_failsByValue {x : Except EvalError α} (h : FailsByValue x) : Bare x :=
  h.mono fun _ => EvalError.isStage_of_isByValue

/-- Failures that are reported under a name are not stages. -/
theorem bare_mapError_custom {ε : Type} (result : Except ε α) (name : String) (message : ε → String) :
    Bare (result.mapError fun e => EvalError.custom name (message e)) := by
  cases result with
  | error e => exact .error rfl
  | ok a => exact .ok a

end Bare

/-! ### Steps and merging -/

theorem bare_positional {α : Type} (operation : String) (params : List α) (dice : Tuple)
    {f : Value → α → Except EvalError Value} (h : ∀ x p, FailsByValue (f x p)) :
    Bare (positional operation params dice f) := by
  unfold positional
  split
  · exact bare_of_failsByValue (failsAs_mapM (fun x => h x _) dice)
  · split
    · exact bare_of_failsByValue (failsAs_mapM (fun die : Value × α => h die.1 die.2) _)
    · exact .error rfl

theorem bare_foldFirst (operation : String) (f : Value → Value → Value) (dice : Tuple) :
    Bare (foldFirst operation f dice) := by
  cases dice with
  | nil => exact .error rfl
  | cons x xs => exact .ok _

theorem Reduction.bare_apply (reduction : Reduction) (dice : Tuple) : Bare (reduction.apply dice) := by
  cases reduction with
  | sum | product => exact bare_of_failsByValue (failsAs_foldlM (fun _ _ => failsByValue_checked _ _) _ dice)
  | bitOr => exact .ok _
  | min | max | bitXor | bitAnd => exact bare_foldFirst _ _ dice

theorem bare_placeAt (ordered : Tuple) (index : Value) : Bare (placeAt ordered index) := by
  unfold placeAt
  dsimp only
  split
  · exact .ok _
  · exact .error rfl

theorem bare_merge (condition : Condition) (dice taken fallback : Tuple) :
    Bare (merge condition dice taken fallback) := by
  unfold merge
  split
  · exact .error rfl
  · exact bare_of_failsByValue (failsByValue_mergeFrom ..)

theorem bare_rerollFrom (condition : Condition) (position : Nat) (dice : Tuple) :
    Bare (rerollFrom condition position dice) := by
  cases dice with
  | nil => exact .error rfl
  | cons value rest => exact bare_of_failsByValue (failsByValue_rerollFrom condition position value rest)

theorem Primitive.bare_apply (step : Primitive) (dice : Tuple) : Bare (step.apply dice) := by
  cases step with
  | identity => exact .ok dice
  | reduce reduction => exact (reduction.bare_apply dice).map _
  | sort => exact .ok _
  | add values => exact bare_positional _ values dice fun x y => failsByValue_checked _ _
  | setTo values => exact bare_positional _ values dice fun _ p => .ok p
  | scale factors rounding => exact bare_positional _ factors dice fun x f => failsByValue_scaleValue x f rounding
  | exp exponents asBase rounding =>
    exact bare_positional _ exponents dice (failsByValue_powerValue asBase rounding)
  | bound pairs => exact bare_positional _ pairs dice fun x pair => .ok _
  | reroll condition => exact (bare_rerollFrom condition 0 dice).map _
  | select indices => exact failsAs_mapM (bare_placeAt _) indices

/-! ### Stages -/

namespace Operation

/-- The operations inside the `validated` nodes; those of a named pipeline are not among them. -/
def stages : Operation → List Operation
  | sliceApply _ inner outer => inner.stages ++ outer.stages
  | conditional _ taken otherwise => taken.stages ++ otherwise.stages
  | andThen first next => first.stages ++ next.stages
  | validated inner => inner.stages ++ [inner]
  | memoized _ inner => inner.stages
  | _ => []

/-- The cached levels of a stage are among those of the operation, in their order. -/
theorem memos_sublist_of_mem_stages {op stage : Operation} (h : stage ∈ op.stages) :
    List.Sublist stage.memos op.memos := by
  induction op with
  | sliceApply size inner outer ihinner ihouter =>
    rcases List.mem_append.1 h with h | h
    · exact (ihinner h).trans (List.sublist_append_left ..)
    · exact (ihouter h).trans (List.sublist_append_right ..)
  | conditional condition taken otherwise ihtaken ihotherwise =>
    rcases List.mem_append.1 h with h | h
    · exact (ihtaken h).trans (List.sublist_append_left ..)
    · exact (ihotherwise h).trans (List.sublist_append_right ..)
  | andThen first next ihfirst ihnext =>
    rcases List.mem_append.1 h with h | h
    · exact (ihfirst h).trans (List.sublist_append_left ..)
    · exact (ihnext h).trans (List.sublist_append_right ..)
  | validated inner ih =>
    rcases List.mem_append.1 h with h | h
    · exact ih h
    · rw [List.mem_singleton.1 h]
      exact List.Sublist.refl _
  | memoized slot inner ih => exact (ih h).trans (List.sublist_append_left ..)
  | _ => cases h

theorem Apart.of_mem_stages {op stage : Operation} (hop : op.Apart) (h : stage ∈ op.stages) : stage.Apart :=
  hop.sublist ((memos_sublist_of_mem_stages h).map Prod.fst)

theorem WellFormed.of_mem_stages {registry : Registry} {tokens : List String} {op stage : Operation}
    (hop : op.WellFormed registry tokens) (h : stage ∈ op.stages) : stage.WellFormed registry tokens := by
  induction op with
  | sliceApply size inner outer ihinner ihouter =>
    rcases List.mem_append.1 h with h | h
    · exact ihinner hop.2.2.1 h
    · exact ihouter hop.2.2.2 h
  | conditional condition taken otherwise ihtaken ihotherwise =>
    rcases List.mem_append.1 h with h | h
    · exact ihtaken hop.2.1 h
    · exact ihotherwise hop.2.2 h
  | andThen first next ihfirst ihnext =>
    rcases List.mem_append.1 h with h | h
    · exact ihfirst hop.1 h
    · exact ihnext hop.2 h
  | validated inner ih =>
    rcases List.mem_append.1 h with h | h
    · exact ih hop h
    · rw [List.mem_singleton.1 h]
      exact hop
  | memoized slot inner ih => exact ih hop h
  | _ => cases h

end Operation

/-- A first result that is the same as a second one, or the same failure, reported with one of the stages and the
tuple on which this stage fails so. -/
inductive Located (stages : List Operation) {α : Type} : Except EvalError α → Except EvalError α → Prop where
  | ok (a : α) : Located stages (.ok a) (.ok a)
  | stage {e : EvalError} {stage : Operation} {input : Tuple} (hbare : e.isStage = false) (hstage : stage ∈ stages)
      (hfails : stage.eval input = .error e) : Located stages (.error (.stage stage.render input e)) (.error e)

/-- A located result, or one that both have without a stage. -/
inductive Reports (stages : List Operation) {α : Type} : Except EvalError α → Except EvalError α → Prop where
  | located {x y : Except EvalError α} (h : Located stages x y) : Reports stages x y
  | bare {x : Except EvalError α} (h : Bare x) : Reports stages x x

namespace Reports

variable {stages stages' : List Operation} {α β : Type} {x y : Except EvalError α}

theorem mono (h : Reports stages x y) (hstages : stages ⊆ stages') : Reports stages' x y := by
  cases h with
  | bare h => exact .bare h
  | located h =>
    cases h with
    | ok a => exact .located (.ok a)
    | stage hbare hstage hfails => exact .located (.stage hbare (hstages hstage) hfails)

/-- A computation that goes on from the same result fails in its first part or in its second one. -/
theorem bind {f g : α → Except EvalError β} (h : Reports stages x y) (hfg : ∀ a, Reports stages (f a) (g a)) :
    Reports stages (x >>= f) (y >>= g) := by
  cases h with
  | bare h =>
    cases h with
    | ok a => exact hfg a
    | error h => exact .bare (.error h)
  | located h =>
    cases h with
    | ok a => exact hfg a
    | stage hbare hstage hfails => exact .located (.stage hbare hstage hfails)

theorem mapM {f g : α → Except EvalError β} (h : ∀ a, Reports stages (f a) (g a)) (as : List α) :
    Reports stages (as.mapM f) (as.mapM g) := by
  induction as with
  | nil => exact .located (.ok [])
  | cons a as ih =>
    rw [List.mapM_cons, List.mapM_cons]
    exact (h a).bind fun b => ih.bind fun bs => .located (.ok (b :: bs))

end Reports

/-- A level locates the failures in it that no level inside it has located. -/
theorem Reports.within {stages : List Operation} {level : Operation} {dice : Tuple} {y : Except EvalError Tuple}
    (h : Reports stages (level.eval dice) y) :
    Located (stages ++ [level]) ((Operation.validated level).eval dice) y := by
  have heval : (Operation.validated level).eval dice =
      (level.eval dice).mapError (.within level.render dice) := rfl
  rw [heval]
  generalize hx : level.eval dice = x at h
  cases h with
  | located h =>
    cases h with
    | ok result => exact .ok result
    | stage hbare hstage hfails => exact .stage hbare (List.mem_append_left _ hstage) hfails
  | bare h =>
    cases h with
    | ok result => exact .ok result
    | @error e he =>
      have hwithin : EvalError.within level.render dice e = .stage level.render dice e :=
        if_neg (ne_true_of_eq_false he)
      rw [Except.mapError, hwithin]
      exact .stage he (List.mem_append_right _ (List.mem_singleton_self _)) hx

namespace Operation

/-- A level that is read with and without being `validated`. -/
theorem located_wrapped (memoize memoize' top top' : Bool) {checked plain : Operation} (slot slot' : Nat)
    {dice : Tuple} (h : Reports checked.stages (checked.eval dice) (plain.eval dice)) :
    Located (wrapped ⟨true, memoize⟩ top checked slot).1.stages
      ((wrapped ⟨true, memoize⟩ top checked slot).1.eval dice)
      ((wrapped ⟨false, memoize'⟩ top' plain slot').1.eval dice) := by
  have hstages : (wrapped ⟨true, memoize⟩ top checked slot).1.stages = checked.stages ++ [checked] := by
    unfold wrapped
    dsimp only
    split <;> rfl
  rw [hstages, eval_wrapped, eval_wrapped]
  exact h.within

/-- The results of a pipeline with and without its levels being `validated`. -/
theorem eval_reports (memoize memoize' top top' : Bool) (op : Operation) (slot slot' : Nat) (dice : Tuple) :
    Reports (op.wrapLevels ⟨true, memoize⟩ top slot).1.stages ((op.wrapLevels ⟨true, memoize⟩ top slot).1.eval dice)
      ((op.wrapLevels ⟨false, memoize'⟩ top' slot').1.eval dice) := by
  induction op generalizing top top' slot slot' dice with
  | primitive step => exact .bare (step.bare_apply dice)
  | sliceApply size inner outer ihinner ihouter =>
    refine Reports.bind (Reports.mapM (fun block => ?_) _) fun results => ?_
    · exact (ihinner false false slot slot' block).mono (List.subset_append_left ..)
    · exact (ihouter false false _ _ _).mono (List.subset_append_right ..)
  | conditional condition taken otherwise ihtaken ihotherwise =>
    refine ((ihtaken false false slot slot' dice).mono (List.subset_append_left ..)).bind fun t => ?_
    refine ((ihotherwise false false _ _ dice).mono (List.subset_append_right ..)).bind fun f => ?_
    exact .bare (bare_merge condition dice t f)
  | native name params function => exact .bare (bare_mapError_custom _ name id)
  | defined name params pipeline =>
    refine .bare ?_
    unfold eval
    dsimp only [wrapLevels]
    split
    · exact bare_mapError_custom _ name EvalError.message
    · exact .error rfl
  | andThen first next ihfirst ihnext =>
    refine ((ihfirst false false slot slot' dice).mono (List.subset_append_left ..)).bind fun middle => ?_
    exact (ihnext false false _ _ middle).mono (List.subset_append_right ..)
  | validated inner ih =>
    exact .located (located_wrapped memoize memoize' top top' _ _ (ih false false slot slot' dice))
  | memoized _ inner ih => exact ih false false slot slot' dice

/-- The outermost level locates all failures. -/
theorem eval_located (memoize memoize' : Bool) (inner : Operation) (dice : Tuple) :
    Located ((validated inner).wrapLevels ⟨true, memoize⟩ true 0).1.stages
      (((validated inner).wrapLevels ⟨true, memoize⟩ true 0).1.eval dice)
      (((validated inner).wrapLevels ⟨false, memoize'⟩ true 0).1.eval dice) :=
  located_wrapped memoize memoize' true true _ _ (eval_reports memoize memoize' false false inner 0 0 dice)

theorem exists_validated_of_parse {registry : Registry} {words : List String} {op : Operation}
    (h : parse ⟨registry, .outline⟩ words = .ok op) : ∃ inner, op = validated inner := by
  obtain ⟨k, hreads⟩ := parse_eq_ok_iff.1 h
  cases hreads with
  | last => exact ⟨_, rfl⟩
  | andThen => exact ⟨_, rfl⟩

section

variable {registry : Registry} (hregistry : registry.Built)

include hregistry

/-- A stage of an operation that has been read, evaluated alone by a new evaluator. -/
theorem apply_stage {options : ParseOptions} {words : List String} {op stage : Operation}
    (h : parse ⟨registry, options⟩ words = .ok op) (hstage : stage ∈ op.stages) (capacity : Option Nat)
    (dice : Tuple) : (stage.apply dice (.new stage capacity)).1 = stage.eval dice :=
  (agrees_run hregistry ((wellFormed_of_parse h).of_mem_stages hstage) (List.Subset.refl _)
    ((apart_of_parse h).of_mem_stages hstage) dice _ (Store.sound_new registry stage capacity)).1

/-- Whether levels are `validated` changes neither which words are read nor why others are not, nor the results.  A
tuple without a result fails with a cause that names no stage, and with `validated` levels with this cause and one
stage.  The stage is one of the pipeline, and evaluated alone on the tuple that is reported it fails with the
cause. -/
theorem validate_reports_stage (memoize : Bool) (words : List String) :
    (∃ e, parse ⟨registry, ⟨true, memoize⟩⟩ words = .error e ∧
      parse ⟨registry, ⟨false, memoize⟩⟩ words = .error e) ∨
    ∃ checked plain, parse ⟨registry, ⟨true, memoize⟩⟩ words = .ok checked ∧
      parse ⟨registry, ⟨false, memoize⟩⟩ words = .ok plain ∧
      ∀ (capacity capacity' : Option Nat) (earlier earlier' : List Step) (dice : Tuple),
        (∃ result, (checked.apply dice (checked.session earlier (.new checked capacity)).2).1 = .ok result ∧
          (plain.apply dice (plain.session earlier' (.new plain capacity')).2).1 = .ok result) ∨
        ∃ (e : EvalError) (stage : Operation) (input : Tuple), e.isStage = false ∧
          (plain.apply dice (plain.session earlier' (.new plain capacity')).2).1 = .error e ∧
          (checked.apply dice (checked.session earlier (.new checked capacity)).2).1 =
            .error (.stage stage.render input e) ∧
          stage ∈ checked.stages ∧ ∀ fresh, (stage.apply input (.new stage fresh)).1 = .error e := by
  have hread (validate : Bool) := parse_eq_map_outline registry ⟨validate, memoize⟩ words
  cases houtline : parse ⟨registry, .outline⟩ words with
  | error e =>
    rw [houtline] at hread
    exact .inl ⟨e, hread true, hread false⟩
  | ok outline =>
    rw [houtline] at hread
    refine .inr ⟨_, _, hread true, hread false, fun capacity capacity' earlier earlier' dice => ?_⟩
    rw [← answer, ← answer, answer_eq hregistry (hread true), answer_eq hregistry (hread false)]
    obtain ⟨inner, rfl⟩ := exists_validated_of_parse houtline
    have hlocated := eval_located memoize memoize inner dice
    generalize ((validated inner).wrapLevels ⟨true, memoize⟩ true 0).1.eval dice = x at hlocated ⊢
    generalize ((validated inner).wrapLevels ⟨false, memoize⟩ true 0).1.eval dice = y at hlocated ⊢
    cases hlocated with
    | ok result => exact .inl ⟨result, rfl, rfl⟩
    | stage hbare hstage hfails =>
      refine .inr ⟨_, _, _, hbare, rfl, rfl, hstage, fun fresh => ?_⟩
      rw [apply_stage hregistry (hread true) hstage, hfails]

end

theorem validate_reports_stage_low :
    ∃ checked plain, parse ⟨sessionRegistry, ⟨true, true⟩⟩ ["slice-apply 2 [ low select 1 ] if gt 2 then turn"] =
        .ok checked ∧
      parse ⟨sessionRegistry, ⟨false, true⟩⟩ ["slice-apply 2 [ low select 1 ] if gt 2 then turn"] = .ok plain ∧
      ∀ (capacity capacity' : Option Nat) (earlier earlier' : List Step) (dice : Tuple),
        (∃ result, (checked.apply dice (checked.session earlier (.new checked capacity)).2).1 = .ok result ∧
          (plain.apply dice (plain.session earlier' (.new plain capacity')).2).1 = .ok result) ∨
        ∃ (e : EvalError) (stage : Operation) (input : Tuple), e.isStage = false ∧
          (plain.apply dice (plain.session earlier' (.new plain capacity')).2).1 = .error e ∧
          (checked.apply dice (checked.session earlier (.new checked capacity)).2).1 =
            .error (.stage stage.render input e) ∧
          stage ∈ checked.stages ∧ ∀ fresh, (stage.apply input (.new stage fresh)).1 = .error e := by
  have hok : (parse ⟨sessionRegistry, ⟨true, true⟩⟩ ["slice-apply 2 [ low select 1 ] if gt 2 then turn"]).isOk =
      true := by cbv
  rcases validate_reports_stage built_sessionRegistry true ["slice-apply 2 [ low select 1 ] if gt 2 then turn"] with
    ⟨e, herror, -⟩ | h
  · rw [herror] at hok
    cases hok
  · exact h

/-- The stage is the innermost one, with the tuple that reaches it. -/
example : ((parse ⟨sessionRegistry, ⟨true, true⟩⟩ ["slice-apply 2 [ low select 1 ] if gt 2 then turn"]).toOption.map
    fun op => (op.apply [5, 3, 4] (.new op none)).1) =
      some (.error (.stage "select 1" [3] (.indexOutOfRange 1 1))) := by cbv

end Operation

end DiceTally
