import DiceTally.Operation.Primitive

/-!
# What operations do

`Operation.eval` is the meaning of an operation: the result or the failure on a tuple, with no caches involved.
-/

namespace DiceTally

/-- The first `count` blocks of `size` dice. -/
def blocksFrom (size : Nat) : Nat → Tuple → List Tuple
  | 0, _ => []
  | count + 1, dice => dice.take size :: blocksFrom size count (dice.drop size)

/-- The full blocks of `size` dice; dice that do not fill a block are left out. -/
def blocks (size : Nat) (dice : Tuple) : List Tuple :=
  blocksFrom size (dice.length / size) dice

/-- Picks for the die at each position from `position` on the result of one branch or the other. -/
def mergeFrom (condition : Condition) (position : Nat) :
    Tuple → Tuple → Tuple → Except EvalError Tuple
  | value :: dice, t :: taken, f :: fallback => do
    let picked := if ← condition.eval value position then t else f
    return picked :: (← mergeFrom condition (position + 1) dice taken fallback)
  | _, _, _ => .ok []

/-- The results of two branches merged by a condition; both must have kept the number of dice. -/
def merge (condition : Condition) (dice taken fallback : Tuple) : Except EvalError Tuple :=
  if taken.length ≠ dice.length ∨ fallback.length ≠ dice.length then
    .error (.branchLength dice.length taken.length fallback.length)
  else mergeFrom condition 0 dice taken fallback

/-- A failure with the stage and the tuple it happened on, unless it carries them already. -/
def EvalError.within (label : String) (input : Tuple) (e : EvalError) : EvalError :=
  if e.isStage then e else .stage label input e

/-- The message of the failure of a named pipeline that was given parameters. -/
def parametersRefused (name : String) (count : Nat) : String :=
  s!"'{name}' takes no parameters, got {count}"

namespace Operation

def eval : Operation → Tuple → Except EvalError Tuple
  | primitive step, dice => step.apply dice
  | sliceApply size inner outer, dice => do
    let results ← (blocks size dice).mapM fun block => inner.eval block
    outer.eval results.flatten
  | conditional condition taken otherwise, dice => do
    let t ← taken.eval dice
    let f ← otherwise.eval dice
    merge condition dice t f
  | native name params function, dice => (function dice params).mapError (.custom name)
  | defined name params pipeline, dice =>
    if params.isEmpty then (pipeline.eval dice).mapError fun e => .custom name e.message
    else .error (.custom name (parametersRefused name params.length))
  | andThen first next, dice => do
    let middle ← first.eval dice
    next.eval middle
  | validated inner, dice => (inner.eval dice).mapError (.within inner.render dice)
  | memoized _ inner, dice => inner.eval dice

end Operation

end DiceTally
