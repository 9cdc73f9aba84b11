import DiceTally.Text.Blank

/-!
# Tokens and the reserved vocabulary

A pipeline is written in words.  `Token.normalize` cuts the words at white space and makes every square bracket
a token of its own, so that only the text of the words counts and not how it was split into words.  The rest of
the module is the vocabulary: the words that the language keeps for itself.
-/

namespace DiceTally

namespace Token

/-- The characters that are tokens of their own. -/
def isBracketChar (c : Char) : Bool := c == '[' || c == ']'

/-- A finished word in front of the tokens that follow it; an empty word is no token. -/
def close (word : List Char) (rest : List (List Char)) : List (List Char) :=
  if word.isEmpty then rest else word.reverse :: rest

/-- The tokens of a text, `word` holding the letters of the word being read, the last one first. -/
def scan (word : List Char) : List Char → List (List Char)
  | [] => close word []
  | c :: cs =>
    if isBlank c then close word (scan [] cs)
    else if isBracketChar c then close word ([c] :: scan [] cs)
    else scan (c :: word) cs

def ofText (s : String) : List String :=
  (scan [] s.toList).map String.ofList

def normalize (words : List String) : List String :=
  words.flatMap ofText

/-! ### Vocabulary -/

def operations : List String :=
  ["id", "sum", "min", "max", "sort", "prod", "bit-or", "bit-xor", "bit-and", "add", "scale", "exp", "set-to",
    "bound", "select", "reroll", "slice-apply"]

/-- The operations that take an `if` block. -/
def guardable : List String := ["add", "scale", "exp", "set-to", "bound", "reroll"]

/-- The operations that may start an `else` branch. -/
def branchable : List String := ["add", "scale", "exp", "set-to", "bound"]

def comparisons : List String := ["eq", "ne", "gt", "ge", "lt", "le"]

def connectives : List String := ["not", "and", "or"]

def roundingTags : List String := ["r-ceil", "r-floor", "r-truncate", "r-half-up", "r-half-down"]

def isOperation (t : String) : Bool := operations.contains t

/-- The words that structure a pipeline. -/
def isLogic (t : String) : Bool := t == "if" || t == "else" || t == "then"

def isBracket (t : String) : Bool := t == "[" || t == "]"

/-- The words that end a list of `mod` divisors. -/
def isComparing (t : String) : Bool :=
  t == "mod" || comparisons.contains t || connectives.contains t

/-- The words that no operation can be named by. -/
def isReserved (t : String) : Bool :=
  isOperation t || isLogic t || isComparing t || isBracket t || roundingTags.contains t || t == "as-base"

end Token

end DiceTally
