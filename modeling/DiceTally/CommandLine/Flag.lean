/-!
# Flags

The words of a command line are flags and their values.  `FlagUse.ofWords?` assigns the words to the flags before
them: a long flag may carry its value behind an equals sign, a short one directly behind its letter, and several
short switches may share one hyphen.  A word that belongs to no flag is refused.
-/

namespace DiceTally

inductive Flag where
  | numDice
  | dieSides
  | dieStart
  | dieStep
  | dieValues
  | dieWeights
  | multiDieSides
  | multiDieStart
  | multiDieStep
  | multiDieValues
  | multiDieWeights
  | apply
  | memorizeInput
  | memoCapacity
  | skipChecks
  | custom
  | config
  | barSize
  | barChar
  | barLead
  | sort
  | decimalPlaces
  | showCounts
  | noOutput
  | simulate
  | seed
  | load
  | save
  | showArgs
  | verbose
  | version
  | help
  deriving DecidableEq, Repr

inductive ValueCount where
  | zero
  | one
  /-- at least one -/
  | many
  deriving DecidableEq, Repr

namespace Flag

/-- The flags by their long names. -/
def table : List (String × Flag) :=
  [("num-dice", numDice), ("die-sides", dieSides), ("die-start", dieStart), ("die-step", dieStep),
    ("die-values", dieValues), ("die-weights", dieWeights), ("multi-die-sides", multiDieSides),
    ("multi-die-start", multiDieStart), ("multi-die-step", multiDieStep), ("multi-die-values", multiDieValues),
    ("multi-die-weights", multiDieWeights), ("apply", apply), ("memorize-input", memorizeInput),
    ("memo-capacity", memoCapacity), ("skip-checks", skipChecks), ("custom", custom), ("config", config),
    ("bar-size", barSize), ("bar-char", barChar), ("bar-prefix", barLead), ("sort", sort),
    ("result-decimal-place", decimalPlaces), ("rdp", decimalPlaces), ("show-counts", showCounts),
    ("no-output", noOutput), ("simulate", simulate), ("simulate-num-iterations", simulate), ("seed", seed),
    ("load", load), ("save", save), ("show-args", showArgs), ("verbose", verbose), ("version", version),
    ("help", help)]

def ofName? (name : String) : Option Flag := table.lookup name

def ofLetter? : Char → Option Flag
  | 'n' => some numDice
  | 'd' => some dieSides
  | 'v' => some verbose
  | 'V' => some version
  | 'h' => some help
  | _ => none

def valueCount : Flag → ValueCount
  | memorizeInput | skipChecks | showCounts | noOutput | showArgs | verbose | version | help => .zero
  | dieValues | dieWeights | multiDieSides | multiDieStart | multiDieStep | multiDieValues | multiDieWeights
  | apply | custom | load => .many
  | _ => .one

/-- Whether what is asked for is shown at once, whatever follows. -/
def isImmediate (f : Flag) : Bool := f == version || f == help

end Flag

/-- A flag and the values it was given. -/
structure FlagUse where
  flag : Flag
  values : List String
  deriving DecidableEq, Repr

/-! ### Words -/

/-- Whether what stands behind a hyphen makes a negative number of the word: digits with at most one point, which
is not the first character, and at most one exponent mark, which is neither the first nor the last. -/
def looksNegative (cs : List Char) : Bool :=
  let base := cs.takeWhile (· != 'e')
  let points := base.filter (· == '.')
  let exponent := (cs.dropWhile (· != 'e')).drop 1
  base.all (fun c => c.isDigit || c == '.') && points.length ≤ 1 && base.head? != some '.' &&
    (cs == base || (!base.isEmpty && !exponent.isEmpty && exponent.all Char.isDigit))

/-- What a word of the command line is. -/
inductive Word where
  | value (text : String)
  | long (name : String) (value : Option String)
  | letters (cs : List Char)
  /-- ends the flags -/
  | divider
  deriving DecidableEq, Repr

/-- Splits a text at its first equals sign. -/
def splitEquals (cs : List Char) : String × Option String :=
  let name := String.ofList (cs.takeWhile (· != '='))
  match cs.dropWhile (· != '=') with
  | [] => (name, none)
  | _ :: rest => (name, some (String.ofList rest))

def Word.ofText (text : String) : Word :=
  match text.toList with
  | ['-', '-'] => divider
  | '-' :: '-' :: cs => long (splitEquals cs).1 (splitEquals cs).2
  | ['-'] => value text
  | '-' :: cs => if looksNegative cs then value text else letters cs
  | _ => value text

namespace FlagUse

/-- The uses before `later`, if the pending flag has the values it needs. -/
def finish : Option FlagUse → List FlagUse → Option (List FlagUse)
  | none, later => some later
  | some pending, later => if pending.values.isEmpty then none else some (pending :: later)

/-- The flags of letters behind one hyphen, the last of which may wait for values. -/
def ofLetters? : List Char → Option (List FlagUse × Option FlagUse)
  | [] => some ([], none)
  | c :: cs => do
    let flag ← Flag.ofLetter? c
    if flag.valueCount = .zero then
      if flag.isImmediate then return ([⟨flag, []⟩], none)
      else
        let (uses, pending) ← ofLetters? cs
        return (⟨flag, []⟩ :: uses, pending)
    else
      match cs with
      | [] => return ([], some ⟨flag, []⟩)
      | '=' :: cs => return ([⟨flag, [String.ofList cs]⟩], none)
      | cs => return ([⟨flag, [String.ofList cs]⟩], none)

/-- Whether uses end with a flag that is answered at once. -/
def endsAtOnce (uses : List FlagUse) : Bool := uses.any (·.flag.isImmediate)

/-- The uses of flags that words make, after a flag that still takes values. -/
def ofWordsFrom? : Option FlagUse → List String → Option (List FlagUse)
  | pending, [] => finish pending []
  | pending, word :: words =>
    match Word.ofText word with
    | .value text =>
      match pending with
      | none => none
      | some use =>
        let use : FlagUse := ⟨use.flag, use.values ++ [text]⟩
        if use.flag.valueCount = .many then ofWordsFrom? (some use) words
        else (ofWordsFrom? none words).map (use :: ·)
    | .divider => if words.isEmpty then finish pending [] else none
    | .long name value => do
      let flag ← Flag.ofName? name
      match flag.valueCount, value with
      | .zero, some _ => none
      | .zero, none =>
        if flag.isImmediate then finish pending [⟨flag, []⟩]
        else finish pending (⟨flag, []⟩ :: (← ofWordsFrom? none words))
      | _, some value => finish pending (⟨flag, [value]⟩ :: (← ofWordsFrom? none words))
      | _, none => finish pending (← ofWordsFrom? (some ⟨flag, []⟩) words)
    | .letters cs => do
      let (uses, waiting) ← ofLetters? cs
      if endsAtOnce uses then finish pending uses
      else finish pending (uses ++ (← ofWordsFrom? waiting words))

/-- The uses of flags on a command line.  They end with the first flag that is answered at once. -/
def ofWords? (words : List String) : Option (List FlagUse) := ofWordsFrom? none words

/-- The values given to a flag by all its uses. -/
def valuesOf (uses : List FlagUse) (flag : Flag) : List String :=
  (uses.filter fun use => use.flag == flag).flatMap (·.values)

def uses (all : List FlagUse) (flag : Flag) : Bool := all.any fun use => use.flag == flag

/-- Whether no flag is repeated but those that take any number of values. -/
def isOnceEach (uses : List FlagUse) : Bool :=
  decide ((uses.map (·.flag)).filter fun flag => flag.valueCount != .many).Nodup

end FlagUse

end DiceTally
