import DiceTally.CommandLine.Command
import DiceTally.Document
import DiceTally.Tally

/-!
# Runs

`Report.ofRun` makes a run: it reads the settings, the definitions and the pipeline, tallies the outcomes, stores
the distribution and shows its chart.  The first step that fails ends the run; what has been shown before stays.
-/

namespace DiceTally

/-- The files a run finds, and the paths it can write to. -/
structure Files where
  read? : String → Option String
  isWritable : String → Bool

/-- Why a run ends early. -/
inductive RunError where
  | unreadable (path : String)
  | settings (path : String)
  | definition (cause : DefinitionError)
  | pipeline (cause : ParseError)
  | pool (cause : PoolError)
  /-- a distribution to be loaded is missing, or one cannot be stored -/
  | noFile (path : String)
  | document (cause : DocumentError)
  | evaluation (cause : EvalError)

/-- What the system says of a path that leads nowhere. -/
def missingFile : String := "No such file or directory (os error 2)"

def RunError.message : RunError → String
  | unreadable path => s!"could not read '{path}': {missingFile}"
  | settings path => s!"could not parse '{path}'"
  | definition cause => cause.message
  | pipeline cause => "invalid pipeline: " ++ cause.message
  | pool (.dice cause) => "invalid dice: " ++ cause.message
  | pool cause => cause.message
  | noFile path => s!"{path}: {missingFile}"
  | document cause => cause.message
  | evaluation cause => cause.message

/-- What a run shows and writes, and why it ended early. -/
structure Report where
  shown : String
  written : Option (String × String)
  error : Option RunError

/-- The exit code of a run that ends early: it has failed, or it has been stopped. -/
def RunError.exitCode : RunError → UInt32
  | pool (.stopped _) => 101
  | _ => 1

/-- A run that ends early has another exit code than one that does not. -/
def Report.exitCode (report : Report) : UInt32 :=
  match report.error with
  | some e => e.exitCode
  | none => 0

/-! ### Steps -/

/-- What a run sets out to do. -/
structure Plan where
  chart : ChartOptions
  definitions : List Definition
  operation : Operation

namespace Flags

def parseOptions (flags : Flags) : ParseOptions := ⟨!flags.skipChecks, flags.memorizeInput⟩

def settings (flags : Flags) (files : Files) : Except RunError Settings :=
  match flags.settingsFile with
  | none => .ok .none
  | some path =>
    match files.read? path with
    | none => .error (.unreadable path)
    | some text =>
      match Settings.ofText? path text with
      | none => .error (.settings path)
      | some settings => .ok settings

def definitionsIn (files : Files) (path : String) : Except RunError (List Definition) :=
  match files.read? path with
  | none => .error (.unreadable path)
  | some text =>
    match Settings.definitionsOfText? path text with
    | none => .error (.settings path)
    | some definitions => .ok definitions

/-- Reads what the run needs to know before any dice are rolled. -/
def plan (flags : Flags) (files : Files) : Except RunError Plan := do
  let settings ← flags.settings files
  let more ← flags.definitionFiles.mapM (definitionsIn files)
  let definitions := settings.definitions ++ more.flatten
  let registry ← (Definition.registerAll flags.parseOptions .empty definitions).mapError .definition
  let operation ← (Operation.parse ⟨registry, flags.parseOptions⟩ flags.pipeline).mapError .pipeline
  return ⟨(ChartOptions.default.choose settings.display).choose flags.chart, definitions, operation⟩

def loadFrom (files : Files) (path : String) : Except RunError Distribution :=
  match files.read? path with
  | none => .error (.noFile path)
  | some text => (Document.ofText text).mapError .document

/-- The outcomes to be tallied: combinations of stored distributions, or random or all rolls of the dice. -/
def outcomes (flags : Flags) (files : Files) (random : List UInt32) : Except RunError Outcomes :=
  if flags.load.isEmpty then do
    let pool ← flags.dice.pool.mapError .pool
    match flags.samples with
    | some count => return .sample pool count random
    | none => return .enumerate pool
  else do
    return .combine (← flags.load.mapM (loadFrom files))

def distribution (flags : Flags) (files : Files) (random : List UInt32) (op : Operation) :
    Except RunError Distribution := do
  let outcomes ← flags.outcomes files random
  (tally op outcomes (Store.new op flags.memoCapacity)).1.mapError .evaluation

/-- The file that stores the distribution. -/
def stored (flags : Flags) (files : Files) (d : Distribution) : Except RunError (Option (String × String)) :=
  match flags.save with
  | none => .ok none
  | some path =>
    if files.isWritable path then .ok (some (path, Document.toText d ++ "\n")) else .error (.noFile path)

end Flags

/-! ### Texts -/

/-- Lines with their ends. -/
def unlines (lines : List String) : String :=
  String.join (lines.map (· ++ "\n"))

/-- The line that shows a definition. -/
def Definition.line (d : Definition) : String :=
  "custom: " ++ d.name ++ " = " ++ d.pipeline ++
    match d.description with
    | some text => " (" ++ text ++ ")"
    | none => ""

/-- The lines that show the definitions and the pipeline of a run. -/
def Plan.lines (plan : Plan) : List String :=
  plan.definitions.map Definition.line ++ ["pipeline: " ++ plan.operation.render]

/-- Makes a run, random rolls being made with the words `random`. -/
def Report.ofRun (files : Files) (random : List UInt32) (flags : Flags) : Report :=
  match flags.plan files with
  | .error e => ⟨"", none, some e⟩
  | .ok plan =>
    let opening := if flags.showArgs then unlines plan.lines else ""
    match flags.distribution files random plan.operation with
    | .error e => ⟨opening, none, some e⟩
    | .ok d =>
      match flags.stored files d with
      | .error e => ⟨opening, none, some e⟩
      | .ok written =>
        let chart := if flags.noOutput then "" else unlines (Chart.lines plan.chart d)
        ⟨opening ++ chart, written, none⟩

end DiceTally
