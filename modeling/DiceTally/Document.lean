import DiceTally.Decimal.Double
import DiceTally.Distribution
import DiceTally.Json.Parser
import DiceTally.Text.Quoted

/-!
# Stored distributions

A distribution is stored as a JSON object.  The key of a member is a result written as an array, its value the
weight: an integer where that is exact and in range, and a double otherwise.  On reading, a bare integer is a
result of one value, and members with the same result are added up in the order of their keys.
-/

namespace DiceTally

/-- Why a stored distribution cannot be read. -/
inductive DocumentError where
  | malformed
  | notAnObject
  | invalidKey (text : String)
  | invalidCount (key value : String)
  deriving DecidableEq, Repr

def DocumentError.message : DocumentError → String
  | malformed => "invalid JSON"
  | notAnObject => "expected a JSON object mapping outcomes to counts"
  | invalidKey text =>
    "invalid outcome key " ++ quoted text ++ ": expected a JSON array of integers or an integer"
  | invalidCount key value => "invalid count for outcome " ++ quoted key ++ ": " ++ value

namespace Document

/-! ### Keys -/

def encodeKey (key : Tuple) : String := key.text

/-- A value from a JSON value that is an integer in range. -/
def valueOfJson? : Json → Option Value
  | .number (.int n) => Value.ofInt? n
  | _ => none

def decodeKey (text : String) : Except DocumentError Tuple :=
  let key? : Option Tuple :=
    match Json.parse? text with
    | some (.array items) => items.mapM valueOfJson?
    | some value => (valueOfJson? value).map fun v => [v]
    | none => none
  match key? with
  | some key => .ok key
  | none => .error (.invalidKey text)

/-! ### Counts -/

/-- The weight as a JSON number. -/
def encodeCount (count : Decimal) : Json :=
  let n := count.toInt
  if count.isWhole && -Value.bound ≤ n && n < bound64 then .number (.int n)
  else .number (.float count.toFloat)

/-- The weight that a JSON number stands for, if it is in range. -/
def decimalOfNumber? : JsonNumber → Option Decimal
  | .int n => Decimal.ofInt? n
  | .float f => Decimal.ofFloat? f

/-- The weight stored under a key; it must be a number in range and not negative. -/
def decodeCount (key : String) (value : Json) : Except DocumentError Decimal :=
  let count? :=
    match value with
    | .number n => (decimalOfNumber? n).filter fun d => !d.isBelowZero
    | _ => none
  match count? with
  | some count => .ok count
  | none => .error (.invalidCount key value.compact)

/-! ### Documents -/

/-- The members of the document of a distribution, in the order of their keys. -/
def members (d : Distribution) : List (String × Json) :=
  sortMembers (d.entries.map fun (key, count) => (encodeKey key, encodeCount count))

def toText (d : Distribution) : String := Json.prettyObject (members d)

def ofMembers (members : List (String × Json)) : Except DocumentError Distribution :=
  members.foldlM (fun d (key, value) => do
    let result ← decodeKey key
    let count ← decodeCount key value
    return d.add result count) .empty

def ofJson : Json → Except DocumentError Distribution
  | .object members => ofMembers members
  | _ => .error .notAnObject

def ofText (text : String) : Except DocumentError Distribution :=
  match Json.parse? text with
  | some value => ofJson value
  | none => .error .malformed

end Document

end DiceTally
