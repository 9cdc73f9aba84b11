import DiceTally.CommandLine.Report

/-!
# The program

Reads the files that a command line names, makes the run, writes the stored distribution and shows the rest.
-/

namespace DiceTally

def Command.helpText : String :=
  unlines ("usage: dicedist [flags]" :: "" :: Flag.table.map fun (name, _) => "  --" ++ name)

def Flags.namedFiles (flags : Flags) : List String :=
  flags.settingsFile.toList ++ flags.definitionFiles ++ flags.load

/-- The texts of those files that can be read. -/
def readFiles (paths : List String) : IO (List (String × String)) := do
  let mut texts := []
  for path in paths do
    try
      texts := (path, ← IO.FS.readFile path) :: texts
    catch _ => pure ()
  return texts

/-- As many random words as the rolls of a run take.  A word is refused less than half of the time, so that three
for each die and a thousand more are enough. -/
def Flags.wordCount (flags : Flags) : Nat :=
  match flags.samples, flags.dice.pool with
  | some count, .ok pool => 3 * count * pool.size + 1000
  | _, _ => 0

/-- Random words, always the same ones for a seed. -/
def randomWords (seed : Option Nat) (count : Nat) : IO (List UInt32) := do
  let start ←
    match seed with
    | some n => pure n
    | none => do
      let bytes ← IO.getRandomBytes 8
      pure (bytes.toList.foldl (fun n b => 256 * n + b.toNat) 0)
  let mut gen := mkStdGen start
  let mut words := []
  for _ in [0:count] do
    let (n, next) := randNat gen 0 (bound32 - 1)
    gen := next
    words := UInt32.ofNat n :: words
  return words

/-- Writes the file of a report; tells whether that was possible. -/
def Report.write (report : Report) : IO Bool := do
  match report.written with
  | none => return true
  | some (path, text) =>
    try
      IO.FS.writeFile path text
      return true
    catch _ => return false

/-- Whether dice are asked for although stored distributions take their place. -/
def Flags.ignoresDice (flags : Flags) : Bool :=
  !flags.load.isEmpty && (flags.dice.isSet || flags.samples.isSome)

/-- Makes a run and tells its exit code. -/
def runFlags (flags : Flags) : IO UInt32 := do
  let texts ← readFiles flags.namedFiles
  if flags.verbose then
    for (path, _) in texts do
      IO.eprintln ("read: " ++ path)
  if flags.ignoresDice then
    IO.eprintln "warning: distributions are loaded; the flags for dice and random rolls have no effect"
  let random ← randomWords flags.seed flags.wordCount
  let report (isWritable : Bool) := Report.ofRun ⟨fun path => texts.lookup path, fun _ => isWritable⟩ random flags
  let done := report true
  let final := if ← done.write then done else report false
  IO.print final.shown
  if let some e := final.error then
    IO.eprintln ("error: " ++ e.message)
  return final.exitCode

end DiceTally

open DiceTally in
def main (args : List String) : IO UInt32 := do
  match Command.ofWords? args with
  | none =>
    IO.eprintln "error: the command line is not valid; see --help"
    return 2
  | some .version =>
    IO.print Command.versionText
    return 0
  | some .help =>
    IO.print Command.helpText
    return 0
  | some (.tally flags) => runFlags flags
