import DiceTally.Decimal.Text

/-!
# Why an operation fails

The causes for which an operation has no result on a tuple, and the text that reports them.  A failure may carry
the stage in which it happened and the tuple given to that stage (`EvalError.stage`); `EvalError.rootCause` is the
failure without them.
-/

namespace DiceTally

/-- Why an operation has no result. -/
inductive EvalError where
  /-- positional parameters must be one for all dice or one per die -/
  | parameterCount (operation : String) (params dice : Nat)
  | emptyTuple (operation : String)
  | overflow (operation : String)
  | indexOutOfRange (index : Value) (dice : Nat)
  /-- a condition has neither one operand nor one for this position -/
  | missingOperand (keyword : String) (position available : Nat)
  | branchLength (dice taken fallback : Nat)
  | zeroToNegativePower
  | notReal (base exponent : Decimal)
  /-- a named operation failed by itself -/
  | custom (name message : String)
  | stage (label : String) (input : Tuple) (cause : EvalError)
  deriving DecidableEq

namespace EvalError

def message : EvalError → String
  | parameterCount operation params dice =>
    s!"'{operation}' got {params} parameters for {dice} dice (expected 1 or {dice})"
  | emptyTuple operation => s!"'{operation}' needs at least one die"
  | overflow operation => s!"numeric overflow in '{operation}'"
  | indexOutOfRange index dice =>
    let position := index.text
    s!"'select' index {position} is out of range for {dice} dice"
  | missingOperand keyword position available =>
    s!"'{keyword}' has no operand for die {position} ({available} given)"
  | branchLength dice taken fallback =>
    s!"if/else branches returned {taken} and {fallback} values for {dice} dice"
  | zeroToNegativePower => "'exp': zero cannot be raised to a negative power"
  | notReal base exponent =>
    let b := base.text
    let e := exponent.text
    s!"'exp': {b} ** {e} is not a real number"
  | custom name message => s!"custom operation '{name}' failed: {message}"
  | stage label input cause =>
    let first := cause.message
    let shown := input.text
    s!"{first}\n  in stage: {label}\n  input: {shown}"

/-- The failure without the stages it happened in. -/
def rootCause : EvalError → EvalError
  | stage _ _ cause => cause.rootCause
  | error => error

def isStage : EvalError → Bool
  | stage .. => true
  | _ => false

end EvalError

end DiceTally
