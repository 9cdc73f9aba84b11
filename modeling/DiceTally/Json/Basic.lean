import DiceTally.Double.Shortest
import Std.Data.TreeMap

/-!
# JSON values

A number is an integer when it is written as one and is in range, and a double otherwise.  The members of an object
are kept in the order of their keys, of several members with one key the last (`Json.ofMembers`).  `Json.compact`
writes a value on one line, `Json.prettyObject` an object with one member on each line.
-/

namespace DiceTally

inductive JsonNumber where
  | int (n : Int)
  | float (f : Float)

inductive Json where
  | null
  | bool (b : Bool)
  | number (n : JsonNumber)
  | string (s : String)
  | array (items : List Json)
  | object (members : List (String × Json))
  deriving Inhabited

/-- Members in the order of their keys, the last one of each key. -/
def sortMembers (members : List (String × Json)) : List (String × Json) :=
  (Std.TreeMap.ofList members).toList

def Json.ofMembers (members : List (String × Json)) : Json :=
  .object (sortMembers members)

/-! ### Numbers as text -/

/-- How doubles are written: positional notation for decimal exponents from `low` up to, not including, `high`, and
otherwise one digit before the point and a signed exponent. -/
structure FloatFormat where
  low : Int
  high : Int

def jsonFloat : FloatFormat := ⟨-5, 16⟩

/-- The digits of a number that is `0.d₁d₂…` times a power of ten, in positional notation with at least one digit
on each side of the point. -/
def positionalDigits (digits : List Char) (pointAt : Int) : List Char :=
  let zeros (n : Int) : List Char := List.replicate n.toNat '0'
  if pointAt ≤ 0 then '0' :: '.' :: zeros (-pointAt) ++ digits
  else
    let padded := digits ++ zeros (pointAt - digits.length)
    let fraction := padded.drop pointAt.toNat
    padded.take pointAt.toNat ++ '.' :: if fraction.isEmpty then ['0'] else fraction

def exponentDigits (digits : List Char) (exponent : Int) : List Char :=
  let mark := if exponent < 0 then '-' else '+'
  digits.take 1 ++ (if digits.length ≤ 1 then [] else '.' :: digits.drop 1) ++
    'e' :: mark :: Nat.toDigits 10 exponent.natAbs

/-- A finite double with its shortest digits. -/
def FloatFormat.text (format : FloatFormat) (b : Binary) : String :=
  let sign := if b.negative then "-" else ""
  if b.mantissa = 0 then sign ++ "0.0"
  else
    let short := Shortest.ofBinary b.mantissa b.exponent
    let digits := Nat.toDigits 10 short.digits
    let exponent := short.place + digits.length - 1
    let body :=
      if format.low ≤ exponent && exponent < format.high then positionalDigits digits (exponent + 1)
      else exponentDigits digits exponent
    sign ++ String.ofList body

/-- A number as text; a double that is not finite is no number. -/
def JsonNumber.text : JsonNumber → String
  | int n => toString n
  | float f =>
    match Binary.ofFloat? f with
    | some b => jsonFloat.text b
    | none => "null"

/-! ### Strings as text -/

/-- The hexadecimal digits of a code point, at least `width` of them. -/
def hexDigits (width n : Nat) : List Char :=
  let ds := Nat.toDigits 16 n
  List.replicate (width - ds.length) '0' ++ ds

/-- A character inside a quoted string. -/
def escapeChar (c : Char) : List Char :=
  if c == '"' || c == '\\' then ['\\', c]
  else if c == '\n' then ['\\', 'n']
  else if c == '\r' then ['\\', 'r']
  else if c == '\t' then ['\\', 't']
  else if c.toNat = 8 then ['\\', 'b']
  else if c.toNat = 12 then ['\\', 'f']
  else if c.toNat < 32 then '\\' :: 'u' :: hexDigits 4 c.toNat
  else [c]

def quoteJson (s : String) : String :=
  String.ofList ('"' :: s.toList.flatMap escapeChar ++ ['"'])

/-! ### Values as text -/

namespace Json

mutual

/-- A value on one line. -/
def compact : Json → String
  | null => "null"
  | bool b => if b then "true" else "false"
  | number n => n.text
  | string s => quoteJson s
  | array items => "[" ++ ",".intercalate (compactItems items) ++ "]"
  | object members => "\x7b" ++ ",".intercalate (compactMembers members) ++ "\x7d"

def compactItems : List Json → List String
  | [] => []
  | item :: items => item.compact :: compactItems items

def compactMembers : List (String × Json) → List String
  | [] => []
  | (key, value) :: members => (quoteJson key ++ ":" ++ value.compact) :: compactMembers members

end

/-- An object with one member on each line, behind two spaces. -/
def prettyObject (members : List (String × Json)) : String :=
  if members.isEmpty then "\x7b\x7d"
  else
    let lines := members.map fun (key, value) => "  " ++ quoteJson key ++ ": " ++ value.compact
    "\x7b\n" ++ ",\n".intercalate lines ++ "\n\x7d"

end Json

end DiceTally
