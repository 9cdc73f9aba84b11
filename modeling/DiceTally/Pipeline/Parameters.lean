import DiceTally.Condition.Parser
import DiceTally.Operation.Basic

/-!
# Parameters of the built-in operations

`Operation.ofWords` builds a built-in operation from its name and the tokens after it.  `id`, `sort` and the
reductions may be followed by a block size, which makes them apply to each block of dice.
-/

namespace DiceTally

/-- A number of dice per block. -/
def readBlockSize (operation token : String) : Except ParseError Nat :=
  match Value.ofText? token with
  | none => .error (.invalidParameter operation token .integer)
  | some size => if size ≤ 0 then .error (.blockSize operation size) else .ok size.toInt.toNat

/-- Reads decimal numbers, reporting the first token that is none. -/
def readDecimals (operation : String) (tokens : List String) : Except ParseError (List Decimal) :=
  tokens.mapM fun t =>
    match Decimal.ofText? t with
    | some d => .ok d
    | none => .error (.invalidParameter operation t .number)

/-- Refuses an empty list of parameters. -/
def atLeastOne {α : Type} (operation : String) (params : List α) : Except ParseError (List α) :=
  if params.isEmpty then .error (.arity operation .atLeastOne 0) else .ok params

/-- Neighbours of a list as pairs; a last single element is left out. -/
def pairUp {α : Type} : List α → List (α × α)
  | a :: b :: rest => (a, b) :: pairUp rest
  | _ => []

namespace Primitive

/-- The steps that take no parameters of their own. -/
def plain? : String → Option Primitive
  | "id" => some identity
  | "sort" => some sort
  | word => (Reduction.ofKeyword? word).map reduce

def readScale (params : List String) : Except ParseError Primitive := do
  let (rounding, rest) :=
    match params with
    | [] => (Rounding.truncate, params)
    | first :: rest =>
      match Rounding.ofTag? first with
      | some rounding => (rounding, rest)
      | none => (Rounding.truncate, params)
  return .scale (← atLeastOne "scale" (← readDecimals "scale" rest)) rounding

/-- The tags in front of the exponents, in any order; the last rounding counts. -/
def expTags (asBase : Bool) (rounding : Rounding) : List String → Bool × Rounding × List String
  | [] => (asBase, rounding, [])
  | t :: ts =>
    if t = "as-base" then expTags true rounding ts
    else
      match Rounding.ofTag? t with
      | some r => expTags asBase r ts
      | none => (asBase, rounding, t :: ts)

def readExp (params : List String) : Except ParseError Primitive := do
  let (asBase, rounding, rest) := expTags false .truncate params
  return .exp (← atLeastOne "exp" (← readDecimals "exp" rest)) asBase rounding

def readBound (params : List String) : Except ParseError Primitive := do
  let values ← Condition.readValues "bound" params
  if values.isEmpty || values.length % 2 != 0 then throw (.arity "bound" .pairs values.length)
  let pairs := pairUp values
  match pairs.find? fun (lower, upper) => upper < lower with
  | some (lower, upper) => throw (.reversedBound lower upper)
  | none => return .bound pairs

end Primitive

/-- A step that may be limited to blocks of dice. -/
def Operation.blockWise (name : String) (step : Primitive) (params : List String) :
    Except ParseError Operation :=
  match params with
  | [] => .ok (.primitive step)
  | [size] => (readBlockSize name size).map fun n => .sliceApply n (.primitive step) (.primitive .identity)
  | _ => .error (.arity name .optionalBlockSize params.length)

/-- A built-in operation from its name and parameters. -/
def Operation.ofWords (name : String) (params : List String) : Except ParseError Operation :=
  match Primitive.plain? name with
  | some step => blockWise name step params
  | none => do
    let step : Primitive ←
      match name with
      | "add" => do pure (.add (← atLeastOne name (← Condition.readValues name params)))
      | "set-to" => do pure (.setTo (← atLeastOne name (← Condition.readValues name params)))
      | "select" => do pure (.select (← atLeastOne name (← Condition.readValues name params)))
      | "scale" => Primitive.readScale params
      | "exp" => Primitive.readExp params
      | "bound" => Primitive.readBound params
      | _ => .error (.unknownOperation name)
    return .primitive step

end DiceTally
