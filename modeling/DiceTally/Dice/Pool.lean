import DiceTally.Dice.Die

/-!
# Pools of dice

A pool is a list of dice, at least one.  `Pool.uniform` repeats one die, `Pool.arithmetic` makes a progression for
each size, and `Pool.grouped` deals a list of values out to dice of given sizes.  Weights for a whole pool are one
list over the faces of all dice in order.  Values and weights are dealt out by `Pool.deal`, which cuts a list into the
parts of the dice.
-/

namespace DiceTally

/-- One or more dice. -/
structure Pool where
  dice : List Die
  dice_ne_nil : dice ≠ []

/-- The bound of the counts that are given as a number. -/
def countBound : Nat := bound64 * bound64

namespace Pool

def size (pool : Pool) : Nat := pool.dice.length

def ofDice (dice : List Die) : Except DiceError Pool :=
  if h : dice = [] then .error .emptyPool else .ok ⟨dice, h⟩

/-- Equal dice, if there is room for as many. -/
def uniform (die : Die) (count : Nat) : Except DiceFailure Pool := do
  reserve dieBytes count
  (ofDice (List.replicate count die)).mapError .refused

/-- The first `n` items, and the items after them. -/
def cut {α : Type} (n : Nat) (items : List α) : Except DiceFailure (List α × List α) :=
  if n ≤ items.length then .ok (items.take n, items.drop n) else .error (.stopped (.pastEnd n items.length))

/-- Makes a die for each entry of a list, from as many of the items as its size tells. -/
def deal {α β : Type} (size : β → Nat) (make : β → List α → Except DiceError Die) :
    List β → List α → Except DiceFailure (List Die)
  | [], _ => .ok []
  | x :: xs, items => do
    let (taken, rest) ← cut (size x) items
    let die ← (make x taken).mapError .refused
    return die :: (← deal size make xs rest)

/-- The sum of numbers of faces.  It is counted in 64 bits. -/
def countFaces (sides : List Nat) : Except DiceFailure Nat :=
  sides.foldlM (fun faces n => if faces + n < bound64 then .ok (faces + n) else .error (.stopped .sumOverflow)) 0

/-- The pool of some dice, weighted if there are weights. -/
def ofWeighted (dice : List Die) (weights : Option (List Decimal)) : Except DiceFailure Pool :=
  match weights with
  | none => (ofDice dice).mapError .refused
  | some weights => do
    let faces ← countFaces (dice.map Die.sides)
    if weights.length ≠ faces then throw (.refused (.weightCount faces weights.length))
    let weighted ← deal Die.sides Die.withWeights dice weights
    (ofDice weighted).mapError .refused

/-- A list with one element per die; without a list every die has `1`. -/
def perDie (name : String) (dice : Nat) : Option (List Value) → Except DiceError (List Value)
  | none => .ok (List.replicate dice 1)
  | some values => if values.length = dice then .ok values else .error (.listLength name values.length dice)

/-- A progression for each size. -/
def arithmetic (sides : List Nat) (starts steps : Option (List Value)) (weights : Option (List Decimal)) :
    Except DiceFailure Pool := do
  let starts ← (perDie "start" sides.length starts).mapError .refused
  let steps ← (perDie "step" sides.length steps).mapError .refused
  let dice ← (sides.zip (starts.zip steps)).mapM fun (n, start, step) => Die.arithmetic start step n
  ofWeighted dice weights

/-- Values dealt out to dice of the given sizes; all of them must be used. -/
def grouped (sides : List Nat) (values : List Value) (weights : Option (List Decimal)) :
    Except DiceFailure Pool := do
  let needed ← countFaces sides
  if values.length < needed then throw (.refused (.tooFewValues values.length needed))
  if needed < values.length then throw (.refused (.unusedValues values.length needed))
  ofWeighted (← deal id (fun _ => Die.ofValues) sides values) weights

/-- The number of rolls, multiplied die by die; there is none once it reaches `countBound`. -/
def outcomeCount? (pool : Pool) : Option Nat :=
  pool.dice.foldlM (fun rolls die => if rolls * die.sides < countBound then some (rolls * die.sides) else none) 1

end Pool

end DiceTally
