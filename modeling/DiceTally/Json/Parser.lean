import DiceTally.Json.Basic
import DiceTally.Text.Reader
import DiceTally.Value

/-!
# Reading JSON

`Json.parse?` reads one value; every reader below gives what it has read and the rest of the text.  Arrays and
objects may be nested to a depth of 127, which is the measure of the recursion.  The digits of a number that is no
integer are gathered into 64 bits as far as they fit, and scaled by a power of ten in doubles.
-/

namespace DiceTally

def skipJsonBlank (cs : List Char) : List Char :=
  cs.dropWhile fun c => c == ' ' || c == '\t' || c == '\n' || c == '\r'

/-! ### Numbers -/

/-- The parts of a number: the digits before and after the point, and the exponent. -/
structure NumberText where
  negative : Bool
  whole : List Char
  fraction : Option (List Char)
  exponent : Option Int
  deriving DecidableEq, Repr

/-- One or more digits. -/
def readDigitRun : TextReader (List Char) := fun cs =>
  let digits := cs.takeWhile Char.isDigit
  if digits.isEmpty then none else some (digits, cs.dropWhile Char.isDigit)

def readFraction : TextReader (Option (List Char))
  | '.' :: cs => (readDigitRun cs).map fun (digits, rest) => (some digits, rest)
  | cs => some (none, cs)

def readExponent : TextReader (Option Int)
  | [] => some (none, [])
  | c :: cs =>
    if c == 'e' || c == 'E' then
      let (negative, cs) :=
        match cs with
        | '-' :: cs => (true, cs)
        | '+' :: cs => (false, cs)
        | cs => (false, cs)
      (readDigitRun cs).map fun (digits, rest) =>
        let n : Int := Nat.ofDigitChars 10 digits 0
        (some (if negative then -n else n), rest)
    else some (none, c :: cs)

/-- Cuts a number off a text; a zero may stand in front of other digits only behind the point. -/
def readNumberText : TextReader NumberText := fun cs => do
  let (negative, cs) :=
    match cs with
    | '-' :: cs => (true, cs)
    | cs => (false, cs)
  let (whole, cs) ← readDigitRun cs
  if 1 < whole.length && whole.head? == some '0' then none
  else
    let (fraction, cs) ← readFraction cs
    let (exponent, cs) ← readExponent cs
    return (⟨negative, whole, fraction, exponent⟩, cs)

/-- Digits taken onto a number while it stays within 64 bits, and the digits left. -/
def takeDigits (n : Nat) : List Char → Nat × List Char
  | [] => (n, [])
  | c :: cs =>
    let next := 10 * n + (c.toNat - '0'.toNat)
    if next < bound64 then takeDigits next cs else (n, c :: cs)

/-- The double `f * 10 ^ e`, unless it is too large; a number of steps is needed only for small results. -/
def scaleByTen (f : Float) (e : Int) : Option Float :=
  if e.natAbs ≤ 308 then
    if 0 ≤ e then
      let r := f * powerOfTen e.toNat
      if r.isFinite then some r else none
    else some (f / powerOfTen (-e).toNat)
  else if f == 0 then some f
  else if 0 < e then none
  else scaleByTen (f / powerOfTen 308) (e + 308)
termination_by e.natAbs
decreasing_by omega

def NumberText.toFloat? (t : NumberText) : Option Float :=
  let (n, wholeLeft) := takeDigits 0 t.whole
  let fraction := t.fraction.getD []
  let (n, fractionLeft) := takeDigits n fraction
  let e : Int := t.exponent.getD 0 + wholeLeft.length - (fraction.length - fractionLeft.length : Nat)
  (scaleByTen (nearestDouble n) e).map fun f => if t.negative then -f else f

/-- The number: an integer where it is written as one and in range, but `-0` is a double. -/
def NumberText.toNumber? (t : NumberText) : Option JsonNumber :=
  let n := Nat.ofDigitChars 10 t.whole 0
  if t.fraction.isNone && t.exponent.isNone && (if t.negative then 0 < n && n ≤ Value.bound else n < bound64) then
    some (.int (if t.negative then -(n : Int) else n))
  else t.toFloat?.map .float

/-! ### Strings -/

/-- The character after a backslash, apart from `u`. -/
def unescapeChar? : Char → Option Char
  | '"' => some '"'
  | '\\' => some '\\'
  | '/' => some '/'
  | 'b' => some '\x08'
  | 'f' => some '\x0c'
  | 'n' => some '\n'
  | 'r' => some '\r'
  | 't' => some '\t'
  | _ => none

/-- Whether a code unit is the first half of a pair. -/
def isHighSurrogate (n : Nat) : Bool := 0xD800 ≤ n && n < 0xDC00

/-- Whether a code unit is the second half of a pair. -/
def isLowSurrogate (n : Nat) : Bool := 0xDC00 ≤ n && n < 0xE000

/-- The characters of a string up to its closing quotation mark. -/
def readStringChars : TextReader (List Char)
  | [] => none
  | '"' :: cs => some ([], cs)
  | '\\' :: 'u' :: a :: b :: c :: d :: cs => do
    let n ← numberOfDigits? 16 [a, b, c, d]
    if isLowSurrogate n then none
    else if isHighSurrogate n then
      match cs with
      | '\\' :: 'u' :: a :: b :: c :: d :: cs => do
        let m ← numberOfDigits? 16 [a, b, c, d]
        if isLowSurrogate m then
          let (chars, rest) ← readStringChars cs
          return (Char.ofNat (0x10000 + (n - 0xD800) * 1024 + (m - 0xDC00)) :: chars, rest)
        else none
      | _ => none
    else
      let (chars, rest) ← readStringChars cs
      return (Char.ofNat n :: chars, rest)
  | '\\' :: c :: cs => do
    let c ← unescapeChar? c
    let (chars, rest) ← readStringChars cs
    return (c :: chars, rest)
  | c :: cs =>
    if c.toNat < 32 || c == '\\' then none
    else do
      let (chars, rest) ← readStringChars cs
      return (c :: chars, rest)

/-! ### Values -/

/-- Items separated by commas up to the closing character; `fuel` bounds their number. -/
def readSeparated {α : Type} (item : TextReader α) (closing : Char) : Nat → TextReader (List α)
  | 0, _ => none
  | fuel + 1, cs => do
    let (first, cs) ← item cs
    match skipJsonBlank cs with
    | [] => none
    | c :: cs =>
      if c == closing then return ([first], cs)
      else if c == ',' then
        let (others, cs) ← readSeparated item closing fuel cs
        return (first :: others, cs)
      else none

/-- The items after an opening bracket; there may be none. -/
def readItems {α : Type} (item : TextReader α) (closing : Char) : TextReader (List α) := fun cs =>
  match skipJsonBlank cs with
  | [] => none
  | c :: rest => if c == closing then some ([], rest) else readSeparated item closing cs.length cs

def readMember {α : Type} (value : TextReader α) : TextReader (String × α) := fun cs =>
  match skipJsonBlank cs with
  | '"' :: cs => do
    let (key, cs) ← readStringChars cs
    match skipJsonBlank cs with
    | ':' :: cs => do
      let (v, cs) ← value cs
      return ((String.ofList key, v), cs)
    | _ => none
  | _ => none

/-- A word that stands for a value. -/
def readWord (word : String) (value : Json) : TextReader Json := fun cs =>
  if word.toList.isPrefixOf cs then some (value, cs.drop word.length) else none

namespace Json

/-- Reads a value that neither is nor holds an array or object. -/
def readScalar : TextReader Json := fun cs =>
  match cs with
  | '"' :: cs => (readStringChars cs).map fun (chars, rest) => (string (String.ofList chars), rest)
  | 't' :: _ => readWord "true" (bool true) cs
  | 'f' :: _ => readWord "false" (bool false) cs
  | 'n' :: _ => readWord "null" null cs
  | _ => do
    let (text, rest) ← readNumberText cs
    return (number (← text.toNumber?), rest)

/-- Reads a value whose arrays and objects are nested at most `depth` deep. -/
def readValue : Nat → TextReader Json
  | 0, cs =>
    match skipJsonBlank cs with
    | '[' :: _ => none
    | '\x7b' :: _ => none
    | cs => readScalar cs
  | depth + 1, cs =>
    match skipJsonBlank cs with
    | '[' :: cs => (readItems (readValue depth) ']' cs).map fun (items, rest) => (array items, rest)
    | '\x7b' :: cs =>
      (readItems (readMember (readValue depth)) '\x7d' cs).map fun (members, rest) => (ofMembers members, rest)
    | cs => readScalar cs

/-- The depth to which arrays and objects may be nested. -/
def maxDepth : Nat := 127

/-- Reads a text that holds one value. -/
def parse? (s : String) : Option Json :=
  match readValue maxDepth s.toList with
  | some (value, rest) => if (skipJsonBlank rest).isEmpty then some value else none
  | none => none

end Json

end DiceTally
