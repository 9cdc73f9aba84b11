import DiceTally.CommandLine.Flag
import DiceTally.Dice.Request
import DiceTally.Settings

/-!
# Commands

`Command.ofWords?` reads the words of a command line.  Every value must be of the kind that its flag takes, and
some flags exclude or need others; a command line that breaks such a rule is refused as a whole.
-/

namespace DiceTally

/-- What the flags of a command line ask for. -/
structure Flags where
  dice : PoolRequest
  /-- the words of the pipeline -/
  pipeline : List String
  memorizeInput : Bool
  memoCapacity : Option Nat
  skipChecks : Bool
  /-- the files of definitions -/
  definitionFiles : List String
  settingsFile : Option String
  chart : ChartChoices
  noOutput : Bool
  /-- the number of random rolls to be made in place of all rolls -/
  samples : Option Nat
  seed : Option Nat
  /-- the files of the distributions to be combined in place of rolling dice -/
  load : List String
  save : Option String
  showArgs : Bool
  verbose : Bool

inductive Command where
  | version
  | help
  | tally (flags : Flags)

/-! ### Values of flags -/

namespace FlagValue

/-- A number of things, with 64 bits. -/
def count? (s : String) : Option Nat := unsignedOfText? bound64 s

def positive? (s : String) : Option Nat := (count? s).filter (0 < ·)

def weight? (s : String) : Option Decimal := (Decimal.ofText? s).filter (·.isPositive)

def text? (s : String) : Option String := some s

def path? (s : String) : Option String := if s.isEmpty then none else some s

end FlagValue

namespace FlagUse

/-- The value of a flag that takes one, if it is used. -/
def one? {α : Type} (all : List FlagUse) (flag : Flag) (read : String → Option α) : Option (Option α) :=
  match valuesOf all flag with
  | [] => some none
  | value :: _ => (read value).map some

/-- The values of a flag that takes any number of them. -/
def many? {α : Type} (all : List FlagUse) (flag : Flag) (read : String → Option α) : Option (List α) :=
  (valuesOf all flag).mapM read

end FlagUse

open FlagValue FlagUse

def PoolRequest.ofUses? (all : List FlagUse) : Option PoolRequest := do
  return {
    numDice := ← one? all .numDice positive?
    dieSides := ← one? all .dieSides positive?
    dieStart := ← one? all .dieStart Value.ofText?
    dieStep := ← one? all .dieStep Value.ofText?
    dieValues := ← many? all .dieValues Value.ofText?
    dieWeights := ← many? all .dieWeights weight?
    multiSides := ← many? all .multiDieSides positive?
    multiStarts := ← many? all .multiDieStart Value.ofText?
    multiSteps := ← many? all .multiDieStep Value.ofText?
    multiValues := ← many? all .multiDieValues Value.ofText?
    multiWeights := ← many? all .multiDieWeights weight? }

def ChartChoices.ofUses? (all : List FlagUse) : Option ChartChoices := do
  return {
    barSize := ← one? all .barSize count?
    barChar := ← one? all .barChar text?
    barLead := ← one? all .barLead text?
    decimalPlaces := ← one? all .decimalPlaces positive?
    sort := ← one? all .sort SortOrder.ofName?
    showCounts := if uses all .showCounts then some true else .none }

namespace Flags

/-- What flags ask for; without a pipeline the dice are kept as they are. -/
def ofUses? (all : List FlagUse) : Option Flags := do
  return {
    dice := ← PoolRequest.ofUses? all
    pipeline := if uses all .apply then valuesOf all .apply else ["id"]
    memorizeInput := uses all .memorizeInput
    memoCapacity := ← one? all .memoCapacity count?
    skipChecks := uses all .skipChecks
    definitionFiles := ← many? all .custom path?
    settingsFile := ← one? all .config path?
    chart := ← ChartChoices.ofUses? all
    noOutput := uses all .noOutput
    samples := ← one? all .simulate positive?
    seed := ← one? all .seed count?
    load := ← many? all .load path?
    save := ← one? all .save path?
    showArgs := uses all .showArgs
    verbose := uses all .verbose }

/-- Whether the flags go together: a capacity needs the caches, and a seed random rolls. -/
def isConsistent (flags : Flags) : Bool :=
  flags.dice.isConsistent && (flags.memoCapacity.isNone || flags.memorizeInput) &&
    (flags.seed.isNone || flags.samples.isSome)

end Flags

/-- Reads the words of a command line.  Flags in front of one that is answered at once must be right each by
itself. -/
def Command.ofWords? (words : List String) : Option Command := do
  let all ← FlagUse.ofWords? words
  let flags ← Flags.ofUses? all
  if !isOnceEach all then none
  else if uses all .version then some version
  else if uses all .help then some help
  else if flags.isConsistent then some (tally flags)
  else none

/-- The text that answers `--version`. -/
def Command.versionText : String := "dicedist 0.1.0\n"

end DiceTally
