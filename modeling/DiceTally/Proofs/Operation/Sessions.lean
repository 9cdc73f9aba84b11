import DiceTally.Proofs.Operation.Caches
import Mathlib

/-!
# Sessions

An evaluator is used by a sequence of steps: it is applied to tuples, and its caches, or a first part of them, are
handed to a new evaluator of the same operation.  Every answer in a session is the result of the operation without
caches (`session_of_linked`), so caching can not be seen (`session_memoized_eq_plain`).  What is said of the results
without caches elsewhere is carried over to used evaluators by `Evaluator.answer_of_linked`.
-/

namespace DiceTally

namespace Operation

/-- A step in the use of an evaluator. -/
inductive Step where
  | apply (dice : Tuple)
  /-- a new evaluator of the same operation goes on with the first `kept` caches -/
  | handOver (kept : Nat)

/-- The tuples that the steps apply an evaluator to. -/
def Step.inputs (steps : List Step) : List Tuple :=
  steps.filterMap fun
    | .apply dice => some dice
    | .handOver _ => none

/-- The answers to a sequence of steps and the store that they leave. -/
def session (op : Operation) : List Step → Store → List (Except EvalError Tuple) × Store
  | [], s => ([], s)
  | .apply dice :: steps, s =>
    let (answer, s) := op.apply dice s
    let (answers, s) := op.session steps s
    (answer :: answers, s)
  | .handOver kept :: steps, s => op.session steps (s.handOver op (s.caches.take kept))

/-- The answer of an evaluator that has been used before. -/
def answer (op : Operation) (capacity : Option Nat) (earlier : List Step) (dice : Tuple) : Except EvalError Tuple :=
  (op.apply dice (op.session earlier (.new op capacity)).2).1

/-- An evaluator of an operation, with the capacity of its caches and the steps that it has been used for. -/
structure Evaluator (op : Operation) where
  capacity : Option Nat
  earlier : List Step

def Evaluator.answer {op : Operation} (evaluator : op.Evaluator) (dice : Tuple) : Except EvalError Tuple :=
  op.answer evaluator.capacity evaluator.earlier dice

/-! ### Linked operations -/

section

variable {registry : Registry} (hregistry : registry.Parsed) {op : Operation} (hop : op.Linked registry)
  (happart : op.Apart)

include hregistry hop happart

/-- An operation answers from a sound store as it does without caches. -/
theorem apply_of_linked {s : Store} (hs : s.Sound registry op) (dice : Tuple) :
    (op.apply dice s).1 = op.eval dice ∧ (op.apply dice s).2.Sound registry op :=
  agrees_run_of_linked hregistry hop (List.Subset.refl _) happart dice s hs

/-- Every answer is the result without caches, and the store stays sound. -/
theorem session_of_linked {s : Store} (hs : s.Sound registry op) (steps : List Step) :
    (op.session steps s).1 = (Step.inputs steps).map op.eval ∧ (op.session steps s).2.Sound registry op := by
  induction steps generalizing s with
  | nil => exact ⟨rfl, hs⟩
  | cons step steps ih =>
    cases step with
    | apply dice =>
      obtain ⟨hanswer, hafter⟩ := apply_of_linked hregistry hop happart hs dice
      obtain ⟨hanswers, hend⟩ := ih hafter
      have hfirst : (op.session (.apply dice :: steps) s).1 =
          (op.apply dice s).1 :: (op.session steps (op.apply dice s).2).1 := rfl
      rw [hanswer, hanswers] at hfirst
      exact ⟨hfirst, hend⟩
    | handOver kept => exact ih (hs.handOver kept)

/-- An evaluator that has been used before answers as the operation does without caches. -/
theorem answer_of_linked (capacity : Option Nat) (earlier : List Step) (dice : Tuple) :
    op.answer capacity earlier dice = op.eval dice :=
  have hs := (session_of_linked hregistry hop happart (Store.sound_new registry op capacity) earlier).2
  (apply_of_linked hregistry hop happart hs dice).1

theorem Evaluator.answer_of_linked (evaluator : op.Evaluator) (dice : Tuple) : evaluator.answer dice = op.eval dice :=
  Operation.answer_of_linked hregistry hop happart evaluator.capacity evaluator.earlier dice

end

/-- A step has no caches. -/
theorem Evaluator.answer_primitive {step : Primitive} (evaluator : (primitive step).Evaluator) (dice : Tuple) :
    evaluator.answer dice = (primitive step).eval dice := rfl

/-! ### Operations that have been read -/

section

variable {registry : Registry} (hregistry : registry.Built)

include hregistry

/-- An operation that has been read answers from a sound store as it does without caches. -/
theorem apply_eq {options : ParseOptions} {words : List String} {op : Operation}
    (h : parse ⟨registry, options⟩ words = .ok op) {s : Store} (hs : s.Sound registry op) (dice : Tuple) :
    (op.apply dice s).1 = op.eval dice ∧ (op.apply dice s).2.Sound registry op :=
  apply_of_linked hregistry.parsed (wellFormed_of_parse h).linked (apart_of_parse h) hs dice

theorem session_eq {options : ParseOptions} {words : List String} {op : Operation}
    (h : parse ⟨registry, options⟩ words = .ok op) {s : Store} (hs : s.Sound registry op) (steps : List Step) :
    (op.session steps s).1 = (Step.inputs steps).map op.eval ∧ (op.session steps s).2.Sound registry op :=
  session_of_linked hregistry.parsed (wellFormed_of_parse h).linked (apart_of_parse h) hs steps

/-- An evaluator that has been used before answers as the operation does without caches. -/
theorem answer_eq {options : ParseOptions} {words : List String} {op : Operation}
    (h : parse ⟨registry, options⟩ words = .ok op) (capacity : Option Nat) (earlier : List Step) (dice : Tuple) :
    op.answer capacity earlier dice = op.eval dice :=
  answer_of_linked hregistry.parsed (wellFormed_of_parse h).linked (apart_of_parse h) capacity earlier dice

theorem Evaluator.answer_eq {options : ParseOptions} {words : List String} {op : Operation}
    (h : parse ⟨registry, options⟩ words = .ok op) (evaluator : op.Evaluator) (dice : Tuple) :
    evaluator.answer dice = op.eval dice :=
  Operation.answer_eq hregistry h evaluator.capacity evaluator.earlier dice

/-- In any session, with caches of any capacity, an operation with cached levels answers as a new evaluator of the
same words without cached levels does. -/
theorem session_memoized_eq_plain {validate memoize : Bool} {words : List String} {op : Operation}
    (h : parse ⟨registry, ⟨validate, memoize⟩⟩ words = .ok op) :
    ∃ cached plain, parse ⟨registry, ⟨validate, true⟩⟩ words = .ok cached ∧
      parse ⟨registry, ⟨validate, false⟩⟩ words = .ok plain ∧
      ∀ (capacity capacity' : Option Nat) (steps : List Step),
        (cached.session steps (.new cached capacity)).1 =
          (Step.inputs steps).map fun dice => (plain.apply dice (.new plain capacity')).1 := by
  rw [parse_eq_map_outline] at h
  obtain ⟨outline, houtline, -⟩ := map_eq_ok_iff.1 h
  have hread (memoize : Bool) : parse ⟨registry, ⟨validate, memoize⟩⟩ words =
      .ok (outline.wrapLevels ⟨validate, memoize⟩ true 0).1 := by
    rw [parse_eq_map_outline, houtline]
    rfl
  refine ⟨_, _, hread true, hread false, fun capacity capacity' steps => ?_⟩
  rw [(session_eq hregistry (hread true) (Store.sound_new registry _ capacity) steps).1]
  refine List.map_congr_left fun dice _ => ?_
  rw [(apply_eq hregistry (hread false) (Store.sound_new registry _ capacity') dice).1]
  exact eval_wrapLevels validate true false true true outline 0 0 dice

omit hregistry in
/-- The same words are read with and without cached levels, and mean the same. -/
theorem exists_parse_memoize {validate memoize : Bool} {words : List String} {op : Operation}
    (h : parse ⟨registry, ⟨validate, memoize⟩⟩ words = .ok op) (memoize' : Bool) :
    ∃ op', parse ⟨registry, ⟨validate, memoize'⟩⟩ words = .ok op' ∧ ∀ dice, op'.eval dice = op.eval dice := by
  rw [parse_eq_map_outline] at h ⊢
  obtain ⟨outline, houtline, rfl⟩ := map_eq_ok_iff.1 h
  rw [houtline]
  exact ⟨_, rfl, fun dice => eval_wrapLevels validate memoize' memoize true true outline 0 0 dice⟩

end

/-- A named pipeline with a cached level, and a function of the host. -/
def sessionRegistry : Registry :=
  ⟨[("turn", .native fun dice _ => .ok dice.reverse),
    ("low", .defined (.andThen (.primitive .sort) (.memoized 0 (.primitive (.select [0])))))]⟩

theorem built_sessionRegistry : sessionRegistry.Built := by
  have hparse : parse ⟨.empty, ⟨false, true⟩⟩ ["sort select 0"] =
      .ok (.andThen (.primitive .sort) (.memoized 0 (.primitive (.select [0])))) := by cbv
  have hlow : Registry.empty.register "low"
      (.defined (.andThen (.primitive .sort) (.memoized 0 (.primitive (.select [0]))))) = .ok ⟨_⟩ :=
    Registry.register_eq_ok_iff.2 ⟨by decide, by decide, by decide, by decide, by decide, rfl⟩
  have hturn : (Registry.mk _).register "turn" (.native fun dice _ => .ok dice.reverse) = .ok sessionRegistry :=
    Registry.register_eq_ok_iff.2 ⟨by decide, by decide, by decide, by decide, by decide, rfl⟩
  exact .native (.defined .empty hparse hlow) hturn

theorem session_memoized_eq_plain_low :
    ∃ cached plain, parse ⟨sessionRegistry, ⟨true, true⟩⟩ ["[ turn add 1 ] if gt 2 then low"] = .ok cached ∧
      parse ⟨sessionRegistry, ⟨true, false⟩⟩ ["[ turn add 1 ] if gt 2 then low"] = .ok plain ∧
      ∀ (capacity capacity' : Option Nat) (steps : List Step),
        (cached.session steps (.new cached capacity)).1 =
          (Step.inputs steps).map fun dice => (plain.apply dice (.new plain capacity')).1 := by
  have hok : (parse ⟨sessionRegistry, ⟨true, true⟩⟩ ["[ turn add 1 ] if gt 2 then low"]).isOk = true := by cbv
  cases h : parse ⟨sessionRegistry, ⟨true, true⟩⟩ ["[ turn add 1 ] if gt 2 then low"] with
  | error e =>
    rw [h] at hok
    cases hok
  | ok op =>
    have hsession := session_memoized_eq_plain built_sessionRegistry h
    rw [h] at hsession
    exact hsession

end Operation

end DiceTally
