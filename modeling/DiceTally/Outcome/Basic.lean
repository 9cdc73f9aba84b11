import DiceTally.Distribution
import DiceTally.Outcome.Odometer
import DiceTally.Outcome.Sampling

/-!
# Outcomes

An outcome is a roll with its weight.  `Outcomes` are handed out one at a time: all rolls of a pool, random rolls
of it, or the combinations of the results of earlier distributions.
-/

namespace DiceTally

abbrev Outcome := Tuple × Decimal

/-- The product of weights from left to right, the largest number standing for one out of range. -/
def weightProduct (weights : List Decimal) : Decimal :=
  weights.foldl Decimal.mulSaturating Decimal.one

/-- The outcome of faces that have come up. -/
def Outcome.ofFaces (faces : List Face) : Outcome :=
  (faces.map (·.value), weightProduct (faces.map (·.weight)))

def Outcome.join (parts : List Outcome) : Outcome :=
  (parts.flatMap (·.1), weightProduct (parts.map (·.2)))

/-- Random rolls still to be made. -/
structure Sampler (R : Type) where
  dice : List Die
  left : Nat
  random : R

namespace Sampler

variable {R : Type}

/-- The sampler of a pool, for a number of rolls. -/
def ofPool (pool : Pool) (count : Nat) (random : R) : Sampler R := ⟨pool.dice, count, random⟩

/-- The next roll, if there is one, and the sampler with one roll less to make. -/
def next (choose : Chooser R) (s : Sampler R) : Option Outcome × Sampler R :=
  match s.left with
  | 0 => (none, s)
  | n + 1 =>
    let (faces, random) := rollDice choose s.dice s.random
    (faces.map Outcome.ofFaces, { s with left := n, random := random })

/-- The bounds told for the number of rolls to be made, which are 64-bit numbers. -/
def sizeHint (s : Sampler R) : Nat × Option Nat :=
  let n := min s.left (bound64 - 1)
  (n, some n)

end Sampler

/-- Outcomes that are handed out one at a time. -/
inductive Outcomes where
  | given (outcomes : List Outcome)
  | rolls (faces : Odometer Face)
  | combinations (parts : Odometer Outcome)
  | samples (sampler : Sampler RandomWords)

namespace Outcomes

/-- All rolls of a pool, the last die changing fastest. -/
def enumerate (pool : Pool) : Outcomes :=
  rolls (.ofLists (pool.dice.map (·.faces)))

def sample (pool : Pool) (count : Nat) (words : List UInt32) : Outcomes :=
  samples (.ofPool pool count ⟨words, 0⟩)

/-- All combinations of a result of each distribution, the last one changing fastest; of no distributions there is
none. -/
def combine (distributions : List Distribution) : Outcomes :=
  combinations (if distributions.isEmpty then .finished else .ofLists (distributions.map (·.entries)))

/-- The next outcome and the outcomes after it. -/
def next? : Outcomes → Option (Outcome × Outcomes)
  | given [] => none
  | given (outcome :: rest) => some (outcome, given rest)
  | rolls faces => faces.next?.map fun (shown, rest) => (.ofFaces shown, rolls rest)
  | combinations parts => parts.next?.map fun (shown, rest) => (.join shown, combinations rest)
  | samples sampler =>
    let (outcome, rest) := sampler.next chooseByWords
    outcome.map fun outcome => (outcome, samples rest)

def left : Outcomes → Nat
  | given outcomes => outcomes.length
  | rolls faces => faces.left
  | combinations parts => parts.left
  | samples sampler => sampler.left

/-- The first outcomes, at most `n`, and the outcomes after them. -/
def take : Nat → Outcomes → List Outcome × Outcomes
  | 0, outcomes => ([], outcomes)
  | n + 1, outcomes =>
    match outcomes.next? with
    | none => ([], outcomes)
    | some (outcome, rest) =>
      let (more, rest) := take n rest
      (outcome :: more, rest)

end Outcomes

end DiceTally
