import DiceTally.Value

/-!
# Why a pipeline is refused

The causes for which a pipeline or a condition cannot be read, and the sentence that reports each of them
(`ParseError.message`).
-/

namespace DiceTally

/-- Where brackets do not match. -/
inductive Place where
  | pipeline
  | condition
  deriving DecidableEq, Repr

def Place.text : Place → String
  | pipeline => "pipeline"
  | condition => "condition"

/-- How many parameters an operation wants. -/
inductive Arity where
  | none
  | exactlyOne
  | atLeastOne
  | optionalBlockSize
  | pairs
  deriving DecidableEq, Repr

def Arity.text : Arity → String
  | none => "no"
  | exactlyOne => "exactly one"
  | atLeastOne => "at least one"
  | optionalBlockSize => "at most one block size"
  | pairs => "a non-zero even number of"

/-- What a parameter has to be. -/
inductive ParameterKind where
  | integer
  | number
  deriving DecidableEq, Repr

def ParameterKind.text : ParameterKind → String
  | integer => "integer"
  | number => "number"

/-- What is wrong with a condition. -/
inductive ConditionFault where
  | noComparison
  | noDivisor
  | zeroDivisor
  | bareModulo
  | noOperand (comparison : String)
  | doubleNegation
  | danglingNot
  | noLeft (connective : String)
  | noRight (connective : String)
  | notJoined
  deriving DecidableEq, Repr

def ConditionFault.message : ConditionFault → String
  | noComparison => "no comparison given"
  | noDivisor => "'mod' requires at least one divisor"
  | zeroDivisor => "'mod' divisor must not be zero"
  | bareModulo => "'mod' must be followed by a comparison"
  | noOperand comparison => s!"'{comparison}' requires at least one operand"
  | doubleNegation => "'not' cannot be followed by 'not'"
  | danglingNot => "'not' must be followed by a comparison"
  | noLeft connective => s!"'{connective}' needs a comparison on its left"
  | noRight connective => s!"'{connective}' needs a comparison on its right"
  | notJoined => "conditions must be joined by 'and' or 'or'"

/-- Why a pipeline cannot be read. -/
inductive ParseError where
  | emptyPipeline
  | unknownOperation (name : String)
  | unknownComparison (word : String)
  | unbalanced (place : Place)
  | emptyBrackets
  | notGuardable (operation : String)
  | notBranchable (operation : String)
  | invalidElse (token : String)
  | missingElse
  | arity (operation : String) (expected : Arity) (got : Nat)
  | invalidParameter (operation token : String) (kind : ParameterKind)
  | blockSize (operation : String) (size : Value)
  | missingInner
  | reversedBound (lower upper : Value)
  | condition (fault : ConditionFault)
  deriving DecidableEq, Repr

def ParseError.message : ParseError → String
  | emptyPipeline => "pipeline is empty"
  | unknownOperation name => s!"operation '{name}' is not valid"
  | unknownComparison word => s!"comparison '{word}' is not valid"
  | unbalanced place =>
    let where_ := place.text
    s!"bracket mismatch in {where_}"
  | emptyBrackets => "no contents inside brackets"
  | notGuardable operation => s!"operation '{operation}' does not accept an if-block"
  | notBranchable operation => s!"operation '{operation}' does not accept an else-branch"
  | invalidElse token => s!"'{token}' cannot start an else-branch"
  | missingElse => "'else' must be followed by an operation"
  | arity operation expected got =>
    let wanted := expected.text
    s!"'{operation}' expects {wanted}, got {got} parameter(s)"
  | invalidParameter operation token kind =>
    let wanted := kind.text
    s!"'{operation}' parameter '{token}' is not a valid {wanted}"
  | blockSize operation size =>
    let given := size.text
    s!"'{operation}': block size must be positive, got {given}"
  | missingInner => "'slice-apply': missing inner operation"
  | reversedBound lower upper =>
    let low := lower.text
    let high := upper.text
    s!"'bound': lower bound {low} is greater than upper bound {high}"
  | condition fault => "malformed condition: " ++ fault.message

end DiceTally
