import DiceTally.Pipeline.Parser
import DiceTally.Operation.Cached

/-!
# Defined operations

A definition gives a name to a pipeline over the built-in operations.  Registering definitions makes their names
usable in further pipelines; a definition cannot refer to another one.
-/

namespace DiceTally

/-- A named pipeline and the file that defines it. -/
structure Definition where
  name : String
  path : String
  pipeline : String
  description : Option String
  deriving DecidableEq, Repr

/-- Why definitions cannot be registered. -/
inductive DefinitionError where
  | pipeline (name path : String) (cause : ParseError)
  | name (cause : RegistryError)
  deriving DecidableEq, Repr

def DefinitionError.message : DefinitionError → String
  | pipeline title path cause =>
    let reason := cause.message
    s!"custom operation '{title}' in '{path}': {reason}"
  | name cause => cause.message

namespace Definition

/-- The operation that a definition stands for, read with the built-in operations only. -/
def parse (options : ParseOptions) (d : Definition) : Except DefinitionError Operation :=
  (Operation.parse ⟨.empty, options⟩ [d.pipeline]).mapError (.pipeline d.name d.path)

/-- Registers one definition. -/
def register (options : ParseOptions) (registry : Registry) (d : Definition) :
    Except DefinitionError Registry := do
  let op ← d.parse options
  (registry.register d.name (.defined op)).mapError .name

/-- Registers definitions in order. -/
def registerAll (options : ParseOptions) (registry : Registry) (definitions : List Definition) :
    Except DefinitionError Registry :=
  definitions.foldlM (register options) registry

end Definition

end DiceTally
