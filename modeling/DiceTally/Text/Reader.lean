/-!
# Reading a text from its front

A reader takes what it reads off the front of a text and gives it with the rest.  Digits are those of ASCII.
-/

namespace DiceTally

/-- Reads from the front of a text and gives the rest of it. -/
abbrev TextReader (α : Type) := List Char → Option (α × List Char)

/-- The value of a hexadecimal digit. -/
def hexValue? (c : Char) : Option Nat :=
  if c.isDigit then some (c.toNat - '0'.toNat)
  else if 'a' ≤ c && c ≤ 'f' then some (c.toNat - 'a'.toNat + 10)
  else if 'A' ≤ c && c ≤ 'F' then some (c.toNat - 'A'.toNat + 10)
  else none

/-- The number that digits of a base up to sixteen write. -/
def numberOfDigits? (base : Nat) (cs : List Char) : Option Nat :=
  cs.foldlM (fun n c => ((hexValue? c).filter (· < base)).map fun d => base * n + d) 0

end DiceTally
