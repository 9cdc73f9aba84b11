import DiceTally.Decimal.Text

/-!
# Parameters of named operations

A named operation receives the tokens after its name as parameters.  `Param.ofToken` tells integers, numbers and
other words apart.
-/

namespace DiceTally

inductive Param where
  | int (n : Value)
  | number (d : Decimal)
  | text (s : String)
  deriving DecidableEq

namespace Param

def ofToken (token : String) : Param :=
  match Value.ofText? token with
  | some n => int n
  | none =>
    match Decimal.ofText? token with
    | some d => number d
    | none => text token

def render : Param → String
  | int n => n.text
  | number d => d.text
  | text s => s

end Param

end DiceTally
