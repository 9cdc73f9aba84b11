/-!
# Values of dice

A die shows a signed 64-bit number.  Arithmetic on values is done on the integers and brought back by
`Value.ofInt?`, which refuses what does not fit; `Value.ofText?` and `Value.text` read and write a value in
decimal digits.
-/

namespace DiceTally

/-- The number on the face of a die. -/
abbrev Value := Int64

/-- The values shown by a pool of dice, in the order of the dice. -/
abbrev Tuple := List Value

/-- Values lie from `-Value.bound` up to, not including, `Value.bound`: this is `2 ^ 63`. -/
abbrev Value.bound : Int := 0x8000000000000000

/-- The bound of unsigned numbers of 32 bits. -/
abbrev bound32 : Nat := 0x100000000

/-- The bound of unsigned numbers of 64 bits. -/
abbrev bound64 : Nat := 0x10000000000000000

def sumOf (counts : List Nat) : Nat := counts.foldr (· + ·) 0

/-- The natural number written in decimal digits; none without a digit or with any other character. -/
def natOfChars? (cs : List Char) : Option Nat :=
  if cs.isEmpty || !cs.all Char.isDigit then none else some (Nat.ofDigitChars 10 cs 0)

/-- An unsigned number, which may carry a plus sign. -/
def unsignedOfChars? : List Char → Option Nat
  | '+' :: cs => natOfChars? cs
  | cs => natOfChars? cs

/-- An integer, which may carry one sign. -/
def intOfChars? : List Char → Option Int
  | '-' :: cs => (natOfChars? cs).map fun n => -(n : Int)
  | '+' :: cs => (natOfChars? cs).map fun n => (n : Int)
  | cs => (natOfChars? cs).map fun n => (n : Int)

def unsignedOfText? (bound : Nat) (s : String) : Option Nat :=
  (unsignedOfChars? s.toList).filter (· < bound)

namespace Value

/-- The value equal to an integer, if there is one. -/
def ofInt? (n : Int) : Option Value :=
  if -bound ≤ n ∧ n < bound then some (Int64.ofInt n) else none

/-- Reads an optional sign and decimal digits. -/
def ofText? (s : String) : Option Value :=
  (intOfChars? s.toList).bind ofInt?

/-- The decimal digits of a value, with a minus sign in front of a negative one. -/
def text (v : Value) : String :=
  toString v.toInt

theorem toInt_of_ofInt? {n : Int} {v : Value} (h : ofInt? n = some v) : v.toInt = n := by
  unfold ofInt? at h
  split at h
  · rename_i hn
    cases h
    exact Int64.toInt_ofInt_of_le hn.1 hn.2
  · cases h

theorem ofInt?_toInt (v : Value) : ofInt? v.toInt = some v := by
  unfold ofInt?
  rw [if_pos ⟨v.le_toInt, v.toInt_lt⟩, Int64.ofInt_toInt]

end Value

/-- A tuple written between square brackets, its values separated by a comma and a space. -/
def Tuple.text (t : Tuple) : String :=
  "[" ++ ", ".intercalate (t.map Value.text) ++ "]"

end DiceTally
