import DiceTally.Chart
import DiceTally.Definition
import DiceTally.Toml.Parser

/-!
# Settings

A settings file chooses how charts look (`display`) and defines operations (`operations`); a file of definitions
holds operations only.  Every key must be known and every value of the right kind.
-/

namespace DiceTally

/-- What is chosen for charts; the default stands for what is not. -/
structure ChartChoices where
  barSize : Option Nat
  barChar : Option String
  barLead : Option String
  decimalPlaces : Option Nat
  sort : Option SortOrder
  showCounts : Option Bool
  deriving DecidableEq, Repr

def ChartChoices.none : ChartChoices := ⟨.none, .none, .none, .none, .none, .none⟩

/-- Chart options with the choices made. -/
def ChartOptions.choose (options : ChartOptions) (choices : ChartChoices) : ChartOptions where
  barSize := choices.barSize.getD options.barSize
  barChar := choices.barChar.getD options.barChar
  barLead := choices.barLead.getD options.barLead
  decimalPlaces := choices.decimalPlaces.getD options.decimalPlaces
  sort := choices.sort.getD options.sort
  showCounts := choices.showCounts.getD options.showCounts

def SortOrder.ofName? (name : String) : Option SortOrder :=
  if name = "key" then some .key
  else if name = "value" then some .value
  else none

/-- What a settings file says. -/
structure Settings where
  display : ChartChoices
  definitions : List Definition

def Settings.none : Settings := ⟨.none, []⟩

namespace Settings

/-- The entries of a table all of whose keys are known. -/
def knownEntries? (known : List String) (value : Toml) : Option Toml.Entries :=
  value.entries?.filter fun entries => entries.all fun (key, _) => known.contains key

/-- An entry that need not be there. -/
def entry? {α : Type} (entries : Toml.Entries) (key : String) (read : Toml → Option α) :
    Option (Option α) :=
  match entries.lookup key with
  | .none => some .none
  | some value => (read value).map some

def count? (value : Toml) : Option Nat :=
  (value.integer?.filter (0 ≤ ·)).map Int.toNat

/-- An order, given by its name or by an empty table of that name. -/
def sortOrder? : Toml → Option SortOrder
  | .text name => SortOrder.ofName? name
  | .table _ [(name, .table _ [])] => SortOrder.ofName? name
  | _ => .none

def display? (value : Toml) : Option ChartChoices := do
  let entries ← knownEntries?
    ["bar_size", "bar_char", "bar_prefix", "decimal_places", "sort", "show_counts"] value
  return {
    barSize := ← entry? entries "bar_size" count?
    barChar := ← entry? entries "bar_char" Toml.text?
    barLead := ← entry? entries "bar_prefix" Toml.text?
    decimalPlaces := ← entry? entries "decimal_places" count?
    sort := ← entry? entries "sort" sortOrder?
    showCounts := ← entry? entries "show_counts" Toml.boolean? }

/-- The definition of an operation in the file `path`. -/
def definition? (path name : String) (value : Toml) : Option Definition := do
  let entries ← knownEntries? ["pipeline", "description"] value
  let pipeline ← (entries.lookup "pipeline").bind Toml.text?
  let description ← entry? entries "description" Toml.text?
  return ⟨name, path, pipeline, description⟩

/-- The definitions of a file, in the order of their names. -/
def definitions? (path : String) (value : Toml) : Option (List Definition) := do
  let entries ← value.entries?
  (entries.mergeSort fun a b => decide (a.1 ≤ b.1)).mapM fun (name, value) => definition? path name value

/-- The settings in the text of the file `path`. -/
def ofText? (path text : String) : Option Settings := do
  let entries ← (Toml.parse? text).bind fun entries =>
    knownEntries? ["display", "operations"] (.table .header entries)
  let display ← entry? entries "display" display?
  let definitions ← entry? entries "operations" (definitions? path)
  return ⟨display.getD .none, definitions.getD []⟩

/-- The definitions in the text of a file that holds nothing else. -/
def definitionsOfText? (path text : String) : Option (List Definition) := do
  let entries ← (Toml.parse? text).bind fun entries => knownEntries? ["operations"] (.table .header entries)
  let definitions ← entry? entries "operations" (definitions? path)
  return definitions.getD []

end Settings

end DiceTally
