import DiceTally.Dice.Pool

/-!
# Requests for a pool

A pool is asked for either as a number of equal dice or as a list of dice of several types.  `PoolRequest.pool`
makes the pool and refuses a request that mixes the two.
-/

namespace DiceTally

/-- What is asked of a pool; an empty list stands for one that was not given. -/
structure PoolRequest where
  numDice : Option Nat
  dieSides : Option Nat
  dieStart : Option Value
  dieStep : Option Value
  dieValues : List Value
  dieWeights : List Decimal
  multiSides : List Nat
  multiStarts : List Value
  multiSteps : List Value
  multiValues : List Value
  multiWeights : List Decimal
  deriving Inhabited

/-- Why a request is refused. -/
inductive PoolError where
  | mixed
  | nothingGiven
  | multiNeedsSides
  | weightsForSingle
  | dice (e : DiceError)
  /-- the program has stopped while it made the dice -/
  | stopped (why : Stop)
  deriving DecidableEq

def PoolError.ofFailure : DiceFailure → PoolError
  | .refused e => dice e
  | .stopped why => stopped why

/-- The text of a refusal that does not come from the dice themselves. -/
def PoolError.message : PoolError → String
  | mixed => "single-type (--die-*) and multi-type (--multi-die-*) dice cannot be combined"
  | nothingGiven => "no dice given: use --die-sides, --die-values or --multi-die-sides"
  | multiNeedsSides => "--multi-die-values and --multi-die-weights need --multi-die-sides"
  | weightsForSingle => "--die-weights applies to single-type dice; use --multi-die-weights"
  | dice e => e.message
  | stopped why => why.message

namespace PoolRequest

def none : PoolRequest := ⟨.none, .none, .none, .none, [], [], [], [], [], [], []⟩

/-- A list, if it was given. -/
def given {α : Type} (items : List α) : Option (List α) :=
  if items.isEmpty then .none else some items

/-- Whether equal dice are asked for. -/
def isSingle (r : PoolRequest) : Bool := r.dieSides.isSome || !r.dieValues.isEmpty

def isMulti (r : PoolRequest) : Bool := !r.multiSides.isEmpty

/-- Whether anything about dice was asked for. -/
def isSet (r : PoolRequest) : Bool :=
  r.isSingle || r.isMulti || r.numDice.isSome || !r.dieWeights.isEmpty || !r.multiValues.isEmpty ||
    !r.multiWeights.isEmpty

/-- Whether no two parts exclude each other, and a start or a step comes with sides.  With values in place of sides
a start or a step has no effect. -/
def isConsistent (r : PoolRequest) : Bool :=
  !(r.numDice.isSome && r.isMulti) &&
    !(r.dieSides.isSome && !r.dieValues.isEmpty) &&
    !(!r.multiStarts.isEmpty && !r.multiValues.isEmpty) &&
    !(!r.multiSteps.isEmpty && !r.multiValues.isEmpty) &&
    (r.isSingle || (r.dieStart.isNone && r.dieStep.isNone))

/-- Equal dice, one if no number is given. -/
def single (r : PoolRequest) : Except PoolError Pool :=
  if !r.multiWeights.isEmpty || !r.multiValues.isEmpty then .error .multiNeedsSides
  else Except.mapError PoolError.ofFailure do
    let die ←
      match r.dieSides with
      | some sides => Die.arithmetic (r.dieStart.getD 1) (r.dieStep.getD 1) sides
      | .none => (Die.ofValues r.dieValues).mapError .refused
    let die ←
      match given r.dieWeights with
      | some weights => (die.withWeights weights).mapError .refused
      | .none => pure die
    Pool.uniform die (r.numDice.getD 1)

def multi (r : PoolRequest) : Except PoolError Pool :=
  if !r.dieWeights.isEmpty then .error .weightsForSingle
  else Except.mapError PoolError.ofFailure <|
    match given r.multiValues with
    | some values => Pool.grouped r.multiSides values (given r.multiWeights)
    | .none => Pool.arithmetic r.multiSides (given r.multiStarts) (given r.multiSteps) (given r.multiWeights)

def pool (r : PoolRequest) : Except PoolError Pool :=
  match r.isSingle, r.isMulti with
  | true, true => .error .mixed
  | false, false => .error .nothingGiven
  | true, false => r.single
  | false, true => r.multi

end PoolRequest

end DiceTally
