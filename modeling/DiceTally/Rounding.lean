/-!
# Rounding a quotient

A quotient of two natural numbers, with a sign, is rounded to an integer in one of the five ways that a pipeline
can ask for (`Rounding.divide`), or to the nearest integer with a half going to the even one (`halfEven`), which
is how decimal numbers drop digits.
-/

namespace DiceTally

def tenTo (n : Nat) : Nat := Nat.pow 10 n

/-- How a result of `scale` and `exp` becomes an integer; the half modes send a half away from or towards zero. -/
inductive Rounding where
  | ceil
  | floor
  | truncate
  | halfUp
  | halfDown
  deriving DecidableEq, Repr, Inhabited

namespace Rounding

/-- The word that selects a rounding. -/
def tag : Rounding → String
  | ceil => "r-ceil"
  | floor => "r-floor"
  | truncate => "r-truncate"
  | halfUp => "r-half-up"
  | halfDown => "r-half-down"

def all : List Rounding := [ceil, floor, truncate, halfUp, halfDown]

def ofTag? (t : String) : Option Rounding :=
  all.find? fun r => r.tag == t

/-- Whether a quotient with the remainder `r` of `d` and the given sign moves away from zero. -/
def away (mode : Rounding) (negative : Bool) (r d : Nat) : Bool :=
  match mode with
  | ceil => !negative && 0 < r
  | floor => negative && 0 < r
  | truncate => false
  | halfUp => d ≤ 2 * r
  | halfDown => d < 2 * r

/-- The magnitude of the quotient `n / d` with the given sign, rounded. -/
def divide (mode : Rounding) (negative : Bool) (n d : Nat) : Nat :=
  if mode.away negative (n % d) d then n / d + 1 else n / d

end Rounding

/-- The integer nearest to `n / d`, the even one of two. -/
def halfEven (n d : Nat) : Nat :=
  let q := n / d
  let r := n % d
  if d < 2 * r || (2 * r == d && q % 2 == 1) then q + 1 else q

/-- The integer nearest to `n / d`, the larger one of two. -/
def halfAway (n d : Nat) : Nat :=
  Rounding.halfUp.divide false n d

end DiceTally
