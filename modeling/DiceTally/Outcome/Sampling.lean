import DiceTally.Dice.Pool

/-!
# Rolling dice at random

Dice are rolled with a `Chooser`, which chooses a face of each die by a source of randomness.  The source that is used
is a list of 32-bit words, which zeros follow.  A face of a die with `n` sides is chosen by multiplying a word by `n`:
the upper half of the product is the index, and the lower half must lie in a zone whose size is a multiple of `n`, or
the next word is taken.  So every face belongs to equally many words.
-/

namespace DiceTally

/-- A supply of random words and the number of words taken from it. -/
structure RandomWords where
  words : List UInt32
  used : Nat

/-- The largest lower half of a product that is accepted. -/
def acceptedZone (n : Nat) : Nat := (n * Nat.pow 2 (31 - n.log2) - 1) % bound32

/-- Takes words until one is accepted; the zeros after the last word always are. -/
def pickIndex (n used : Nat) : List UInt32 → Nat × RandomWords
  | [] => (0, ⟨[], used + 1⟩)
  | w :: ws =>
    let product := w.toNat * n
    if product % bound32 ≤ acceptedZone n then (product / bound32, ⟨ws, used + 1⟩)
    else pickIndex n (used + 1) ws

/-- Chooses one of some faces, none if there are none, by a source of randomness, and tells what is left of it. -/
abbrev Chooser (R : Type) := List Face → R → Option Face × R

/-- Chooses a face by random words. -/
def chooseByWords : Chooser RandomWords := fun faces random =>
  if faces.isEmpty then (none, random)
  else
    let (index, random) := pickIndex faces.length random.used random.words
    (faces[index]?, random)

/-- A face of each die; the roll ends where none can be chosen. -/
def rollDice {R : Type} (choose : Chooser R) : List Die → R → Option (List Face) × R
  | [], random => (some [], random)
  | die :: dice, random =>
    match choose die.faces random with
    | (none, random) => (none, random)
    | (some face, random) =>
      let (faces, random) := rollDice choose dice random
      (faces.map (face :: ·), random)

end DiceTally
