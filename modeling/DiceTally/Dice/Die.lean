import DiceTally.Decimal.Text

/-!
# Dice

A die is a list of faces, at least one, each with a value and a positive weight.  `Die.arithmetic` counts the values
of the faces by a step, `Die.ofValues` takes any values, and `Die.withWeights` replaces the weights.

A list has room for less than `2^63` bytes, and the program stops when it asks for more (`reserve`).  This is told of
the lists whose length is given as a number; a list that is given itself is taken to leave room for what is made of it.
Memory sets no other bound here.
-/

namespace DiceTally

/-- Why dice cannot be made. -/
inductive DiceError where
  | noSides
  | zeroStep
  | weightCount (faces weights : Nat)
  | nonPositiveWeight (weight : Decimal)
  | emptyPool
  | overflow
  /-- a list of starts or steps is not as long as the list of dice -/
  | listLength (list : String) (given dice : Nat)
  | tooFewValues (given needed : Nat)
  | unusedValues (given needed : Nat)
  deriving DecidableEq

def DiceError.message : DiceError → String
  | noSides => "a die needs at least one side"
  | zeroStep => "die step must not be zero"
  | weightCount faces weights => s!"die has {faces} faces but {weights} weights were given"
  | nonPositiveWeight weight => "face weights must be positive, got " ++ weight.text
  | emptyPool => "a dice pool needs at least one die"
  | overflow => "die face values overflow"
  | listLength list given dice => s!"{given} {list} values given for {dice} dice"
  | tooFewValues given needed => s!"not enough die values: {given} given, {needed} needed"
  | unusedValues given needed => s!"not all die values were used: {given} given, {needed} needed"

/-- Why the program stops while it makes dice. -/
inductive Stop where
  /-- a list would take too many bytes -/
  | noRoom
  /-- there are more faces than can be counted in 64 bits -/
  | sumOverflow
  /-- a list is cut behind its end -/
  | pastEnd (size left : Nat)
  deriving DecidableEq

def Stop.message : Stop → String
  | noRoom => "capacity overflow"
  | sumOverflow => "attempt to add with overflow"
  | pastEnd .. => "mid > len"

/-- Dice are refused with an error, or the program stops and tells none. -/
inductive DiceFailure where
  | refused (e : DiceError)
  | stopped (why : Stop)
  deriving DecidableEq

/-- The bound of the bytes of a list. -/
def roomBound : Nat := bound64 / 2

/-- The bytes of a value in a list of values, of a face in a list of faces and of a die in a list of dice. -/
def valueBytes : Nat := 8

@[inherit_doc valueBytes]
def faceBytes : Nat := 24

@[inherit_doc valueBytes]
def dieBytes : Nat := 24

/-- Makes room for a list of `count` items. -/
def reserve (bytes count : Nat) : Except DiceFailure Unit :=
  if bytes * count < roomBound then .ok () else .error (.stopped .noRoom)

structure Face where
  value : Value
  weight : Decimal
  deriving DecidableEq

/-- One or more faces with positive weights. -/
structure Die where
  faces : List Face
  faces_ne_nil : faces ≠ []
  weight_pos : ∀ f ∈ faces, f.weight.isPositive = true

namespace Die

/-- The number of faces. -/
def sides (die : Die) : Nat := die.faces.length

/-- A die with the given values, all of weight one. -/
def ofValues (values : List Value) : Except DiceError Die :=
  if h : values = [] then .error .noSides
  else .ok
    { faces := values.map fun v => ⟨v, Decimal.one⟩
      faces_ne_nil := by simpa using h
      weight_pos := by
        intro f hf
        obtain ⟨v, -, rfl⟩ := List.mem_map.1 hf
        exact Decimal.isPositive_one }

/-- Puts `value` behind the values counted so far, and `more` values behind it, each `step` more than the one before it.
There is no result when one of them is out of range. -/
def countOn (step : Value) : Nat → Value → Array Value → Option (Array Value)
  | 0, value, counted => some (counted.push value)
  | more + 1, value, counted =>
    match Value.ofInt? (value.toInt + step.toInt) with
    | some next => countOn step more next (counted.push value)
    | none => none

/-- A die whose values count from `start` by `step`.  There must be room for the values before they are counted, and
for the faces afterwards. -/
def arithmetic (start step : Value) (sides : Nat) : Except DiceFailure Die :=
  if sides = 0 then .error (.refused .noSides)
  else if step = 0 then .error (.refused .zeroStep)
  else do
    reserve valueBytes sides
    match countOn step (sides - 1) start #[] with
    | some values =>
      reserve faceBytes sides
      (ofValues values.toList).mapError .refused
    | none => throw (.refused .overflow)

/-- The die with new weights, one for each face. -/
def withWeights (die : Die) (weights : List Decimal) : Except DiceError Die :=
  if hl : weights.length ≠ die.faces.length then .error (.weightCount die.faces.length weights.length)
  else
    match hw : weights.find? fun w => !w.isPositive with
    | some bad => .error (.nonPositiveWeight bad)
    | none => .ok
        { faces := List.zipWith (fun f w => { f with weight := w }) die.faces weights
          faces_ne_nil := by
            intro h
            have hlen := congrArg List.length h
            have hpos := List.length_pos_iff.2 die.faces_ne_nil
            simp only [List.length_zipWith, List.length_nil] at hlen
            omega
          weight_pos := by
            intro f hf
            simp only [List.mem_iff_getElem, List.getElem_zipWith] at hf
            obtain ⟨i, hi, rfl⟩ := hf
            have hi' : i < weights.length := by
              simp only [List.length_zipWith] at hi
              omega
            have := List.find?_eq_none.1 hw weights[i] (List.getElem_mem hi')
            simpa using this }

end Die

end DiceTally
