import DiceTally.Operation.Basic
import DiceTally.Token

/-!
# Named operations

A registry maps names to what they call: a function of the host or a pipeline.  A name must not be a word of the
language, must not read as a number and must be one token; `Registry.register` refuses any other name and any name
that is taken.
-/

namespace DiceTally

/-- What a name stands for. -/
inductive Callable where
  | native (function : NativeFunction)
  | defined (pipeline : Operation)

def Callable.call (name : String) (params : List Param) : Callable → Operation
  | native function => .native name params function
  | defined pipeline => .defined name params pipeline

/-- Why a name cannot be registered. -/
inductive RegistryError where
  | emptyName
  | reserved (name : String)
  | numeric (name : String)
  | duplicate (name : String)
  deriving DecidableEq, Repr

def RegistryError.message : RegistryError → String
  | emptyName => "custom operation name must not be empty"
  | reserved name => s!"'{name}' is reserved by the pipeline language"
  | numeric name => s!"'{name}' reads as a number and cannot name an operation"
  | duplicate name => s!"custom operation '{name}' is already registered"

def isNumeric (t : String) : Bool :=
  (Value.ofText? t).isSome || (Decimal.ofText? t).isSome

/-- Whether a name would not stay one token. -/
def splitsApart (name : String) : Bool :=
  name.toList.any fun c => isBlank c || Token.isBracketChar c

/-- The named operations, the latest one first. -/
structure Registry where
  entries : List (String × Callable)

namespace Registry

def empty : Registry := ⟨[]⟩

instance : Inhabited Registry := ⟨empty⟩

def get? (r : Registry) (name : String) : Option Callable :=
  r.entries.lookup name

def contains (r : Registry) (name : String) : Bool :=
  (r.get? name).isSome

def names (r : Registry) : List String :=
  (r.entries.map Prod.fst).mergeSort fun a b => decide (a ≤ b)

def size (r : Registry) : Nat := r.entries.length

def isEmpty (r : Registry) : Bool := r.entries.isEmpty

def register (r : Registry) (name : String) (callable : Callable) : Except RegistryError Registry :=
  if name.isEmpty then .error .emptyName
  else if Token.isReserved name || splitsApart name then .error (.reserved name)
  else if isNumeric name then .error (.numeric name)
  else if r.contains name then .error (.duplicate name)
  else .ok ⟨(name, callable) :: r.entries⟩

end Registry

end DiceTally
