import DiceTally.Text.Reader
import DiceTally.Toml.Basic
import DiceTally.Value

/-!
# Reading TOML

`Toml.parse?` reads a document of headers and assignments, one on a line.  Arrays, floating-point numbers and dates
are not read, because no setting is made of them: a document that holds one is refused.
-/

namespace DiceTally

namespace Toml

/-! ### Lines -/

/-- The text after spaces and tabs. -/
def skipSpace (cs : List Char) : List Char :=
  cs.dropWhile fun c => c == ' ' || c == '\t'

/-- Whether a character may stand for itself: no control character may but the tab. -/
def isPlain (c : Char) : Bool := c == '\t' || (0x20 ≤ c.toNat && c.toNat != 0x7F)

/-- The text after the end of a line, with or without a carriage return. -/
def afterNewline? : List Char → Option (List Char)
  | '\n' :: cs => some cs
  | '\r' :: '\n' :: cs => some cs
  | _ => none

/-- The text after a comment, if there is one. -/
def skipComment : List Char → List Char
  | '#' :: cs => cs.dropWhile isPlain
  | cs => cs

/-- The text after the rest of a line that holds nothing more. -/
def afterLine? (cs : List Char) : Option (List Char) :=
  match skipComment (skipSpace cs) with
  | [] => some []
  | cs => afterNewline? cs

/-! ### Texts -/

/-- The character whose code point is given in `count` hexadecimal digits. -/
def readCodePoint (count : Nat) : TextReader Char := fun cs => do
  let n ← numberOfDigits? 16 (cs.take count)
  if count ≤ cs.length ∧ n.isValidChar then some (Char.ofNat n, cs.drop count) else none

/-- The character that stands behind a backslash. -/
def readEscape : TextReader Char
  | 'b' :: cs => some ('\x08', cs)
  | 't' :: cs => some ('\t', cs)
  | 'n' :: cs => some ('\n', cs)
  | 'f' :: cs => some ('\x0c', cs)
  | 'r' :: cs => some ('\r', cs)
  | '"' :: cs => some ('"', cs)
  | '\\' :: cs => some ('\\', cs)
  | 'u' :: cs => readCodePoint 4 cs
  | 'U' :: cs => readCodePoint 8 cs
  | _ => none

/-- A text on one line up to its closing mark; `fuel` bounds its length. -/
def readShortText (mark : Char) (escapes : Bool) : Nat → TextReader (List Char)
  | _, [] => none
  | 0, _ => none
  | fuel + 1, c :: cs =>
    if c == mark then some ([], cs)
    else if escapes && c == '\\' then do
      let (c, cs) ← readEscape cs
      let (more, cs) ← readShortText mark escapes fuel cs
      return (c :: more, cs)
    else if isPlain c then do
      let (more, cs) ← readShortText mark escapes fuel cs
      return (c :: more, cs)
    else none

/-- The text after spaces and ends of lines. -/
def skipLines : List Char → List Char
  | ' ' :: cs => skipLines cs
  | '\t' :: cs => skipLines cs
  | '\n' :: cs => skipLines cs
  | '\r' :: '\n' :: cs => skipLines cs
  | cs => cs

/-- A text on any number of lines up to three closing marks; `fuel` bounds its length.  One or two marks belong to
the text, also in front of the closing ones, and a backslash at the end of a line joins it to the next text. -/
def readLongText (mark : Char) (escapes : Bool) : Nat → TextReader (List Char)
  | 0, _ => none
  | fuel + 1, cs =>
    let marks := cs.takeWhile (· == mark)
    let unmarked := cs.drop marks.length
    if 3 ≤ marks.length then if marks.length ≤ 5 then some (marks.drop 3, unmarked) else none
    else if marks.isEmpty then
      match afterNewline? cs, cs with
      | some cs, _ => do
        let (more, cs) ← readLongText mark escapes fuel cs
        return ('\n' :: more, cs)
      | none, [] => none
      | none, c :: cs =>
        if escapes && c == '\\' then
          match afterNewline? (skipSpace cs) with
          | some cs => readLongText mark escapes fuel (skipLines cs)
          | none => do
            let (c, cs) ← readEscape cs
            let (more, cs) ← readLongText mark escapes fuel cs
            return (c :: more, cs)
        else if isPlain c then do
          let (more, cs) ← readLongText mark escapes fuel cs
          return (c :: more, cs)
        else none
    else do
      let (more, cs) ← readLongText mark escapes fuel unmarked
      return (marks ++ more, cs)

/-- A text behind its first mark; only double quotation marks allow for escapes. -/
def readText (mark : Char) : TextReader String := fun cs =>
  let escapes := mark == '"'
  let long := cs.take 2 == [mark, mark]
  let read :=
    if long then
      let body := cs.drop 2
      readLongText mark escapes cs.length ((afterNewline? body).getD body)
    else readShortText mark escapes cs.length cs
  read.map fun (chars, rest) => (String.ofList chars, rest)

/-! ### Integers -/

/-- Digits without the underscores between them; an underscore must have a digit on each side. -/
def joinDigits? : List Char → Option (List Char)
  | [] => none
  | ['_'] => none
  | [c] => some [c]
  | '_' :: _ => none
  | c :: '_' :: cs => (joinDigits? cs).map (c :: ·)
  | c :: cs => (joinDigits? cs).map (c :: ·)

/-- A number in decimal digits without leading zeros. -/
def decimal? (cs : List Char) : Option Nat := do
  let digits ← joinDigits? cs
  if cs.head? == some '0' && 1 < cs.length then none else numberOfDigits? 10 digits

/-- The integer that a word writes: in decimal digits with an optional sign, or in another base with its mark. -/
def integerOfWord? (word : List Char) : Option Int :=
  let n : Option Int :=
    match word with
    | '0' :: 'x' :: cs => ((joinDigits? cs).bind (numberOfDigits? 16)).map Int.ofNat
    | '0' :: 'o' :: cs => ((joinDigits? cs).bind (numberOfDigits? 8)).map Int.ofNat
    | '0' :: 'b' :: cs => ((joinDigits? cs).bind (numberOfDigits? 2)).map Int.ofNat
    | '-' :: cs => (decimal? cs).map fun n => -(n : Int)
    | '+' :: cs => (decimal? cs).map Int.ofNat
    | cs => (decimal? cs).map Int.ofNat
  n.filter fun n => -Value.bound ≤ n && n < Value.bound

/-! ### Keys and values -/

/-- Whether a character may stand in a key without quotation marks. -/
def isKeyChar (c : Char) : Bool := c.isAlphanum || c == '_' || c == '-'

def readKeyPart : TextReader String
  | '"' :: cs => (readShortText '"' true cs.length cs).map fun (chars, rest) => (String.ofList chars, rest)
  | '\'' :: cs => (readShortText '\'' false cs.length cs).map fun (chars, rest) => (String.ofList chars, rest)
  | cs =>
    let chars := cs.takeWhile isKeyChar
    if chars.isEmpty then none else some (String.ofList chars, cs.dropWhile isKeyChar)

/-- The parts of a dotted key and the spaces around them; `fuel` bounds their number. -/
def readKeyParts : Nat → TextReader (List String)
  | 0, _ => none
  | fuel + 1, cs => do
    let (part, cs) ← readKeyPart (skipSpace cs)
    match skipSpace cs with
    | '.' :: cs =>
      let (more, cs) ← readKeyParts fuel cs
      return (part :: more, cs)
    | cs => return ([part], cs)

def readKey : TextReader (List String) := fun cs => readKeyParts (cs.length + 1) cs

structure Assignment where
  key : List String
  value : Toml

/-- A key, an equals sign and a value. -/
def readAssignment (value : TextReader Toml) : TextReader Assignment := fun cs => do
  let (key, cs) ← readKey cs
  match cs with
  | '=' :: cs =>
    let (v, cs) ← value (skipSpace cs)
    return (⟨key, v⟩, cs)
  | _ => none

/-- Assignments separated by commas up to a closing brace; `fuel` bounds their number. -/
def readAssignments (value : TextReader Toml) : Nat → TextReader (List Assignment)
  | 0, _ => none
  | fuel + 1, cs => do
    let (first, cs) ← readAssignment value cs
    match skipSpace cs with
    | ',' :: cs =>
      let (others, cs) ← readAssignments value fuel cs
      return (first :: others, cs)
    | '\x7d' :: cs => return ([first], cs)
    | _ => none

/-- The table that assignments make. -/
def tableOf? (assignments : List Assignment) : Option Toml :=
  (assignments.foldlM (fun entries a => assign a.value a.key entries) []).map (table .whole)

/-- Whether a character belongs to a word that is a value. -/
def isWordChar (c : Char) : Bool := isKeyChar c || c == '+' || c == '.' || c == ':'

/-- A value that is written as one word. -/
def readWordValue : TextReader Toml := fun cs =>
  let word := cs.takeWhile isWordChar
  let rest := cs.dropWhile isWordChar
  if word == "true".toList then some (boolean true, rest)
  else if word == "false".toList then some (boolean false, rest)
  else (integerOfWord? word).map fun n => (integer n, rest)

/-- A value in which tables are nested less than `depth` deep. -/
def readValue : Nat → TextReader Toml
  | 0, _ => none
  | depth + 1, cs =>
    match cs with
    | '"' :: cs => (readText '"' cs).map fun (s, rest) => (text s, rest)
    | '\'' :: cs => (readText '\'' cs).map fun (s, rest) => (text s, rest)
    | '\x7b' :: cs =>
      match skipSpace cs with
      | '\x7d' :: cs => some (table .whole [], cs)
      | _ => do
        let (assignments, cs) ← readAssignments (readValue depth) cs.length cs
        return (← tableOf? assignments, cs)
    | _ => readWordValue cs

/-- The depth to which values may be nested. -/
def maxDepth : Nat := 80

/-! ### Documents -/

inductive Line where
  | blank
  | header (path : List String)
  | assignment (a : Assignment)

def readLine : TextReader Line := fun cs =>
  match afterLine? cs with
  | some rest => some (.blank, rest)
  | none =>
    match skipSpace cs with
    | '[' :: cs => do
      let (path, cs) ← readKey cs
      match cs with
      | ']' :: cs => return (.header path, ← afterLine? cs)
      | _ => none
    | cs => do
      let (a, cs) ← readAssignment (readValue maxDepth) cs
      return (.assignment a, ← afterLine? cs)

/-- The lines of a text; `fuel` bounds their number. -/
def readLines : Nat → List Char → Option (List Line)
  | _, [] => some []
  | 0, _ => none
  | fuel + 1, cs => do
    let (line, rest) ← readLine cs
    return line :: (← readLines fuel rest)

/-- The entries that lines make, `path` leading to the table of the last header. -/
def gather (path : List String) (entries : Entries) : List Line → Option Entries
  | [] => some entries
  | .blank :: lines => gather path entries lines
  | .header path :: lines => (openTable path entries).bind fun entries => gather path entries lines
  | .assignment a :: lines =>
    (changeAt (assign a.value a.key) path entries).bind fun entries => gather path entries lines

/-- The text without a byte order mark at its front. -/
def skipMark : List Char → List Char
  | '\uFEFF' :: cs => cs
  | cs => cs

def parse? (s : String) : Option Entries :=
  let cs := skipMark s.toList
  (readLines cs.length cs).bind (gather [] [])

end Toml

end DiceTally
