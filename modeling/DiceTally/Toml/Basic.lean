/-!
# TOML tables

The values that settings are made of: texts, integers, truth values and tables of them.  How a table came into
being decides how it may still grow: a header gives a table its own section once, and a dotted key reaches only
into tables that no header has defined.

* `Toml.openTable` makes the table of a header,
* `Toml.assign` gives a value to a dotted key.
-/

namespace DiceTally

/-- How a table came into being. -/
inductive TableOrigin where
  /-- by a header of its own -/
  | header
  /-- by a header of a table inside it -/
  | implied
  /-- by a dotted key -/
  | dotted
  /-- as a value, complete from the start -/
  | whole
  deriving DecidableEq, Repr

inductive Toml where
  | text (s : String)
  | integer (n : Int)
  | boolean (b : Bool)
  | table (origin : TableOrigin) (entries : List (String × Toml))

namespace Toml

/-- The entries of a table, in the order in which they were made. -/
abbrev Entries := List (String × Toml)

/-- The entries with another value for a key that is there. -/
def replace (key : String) (value : Toml) (entries : Entries) : Entries :=
  entries.map fun (k, v) => if k = key then (k, value) else (k, v)

/-- Makes the table that a header names.  Only a table that other headers have implied may be there already. -/
def openTable : List String → Entries → Option Entries
  | [], _ => none
  | [key], entries =>
    match entries.lookup key with
    | none => some (entries ++ [(key, table .header [])])
    | some (table .implied inner) => some (replace key (table .header inner) entries)
    | some _ => none
  | key :: path, entries =>
    match entries.lookup key with
    | none => (openTable path []).map fun inner => entries ++ [(key, table .implied inner)]
    | some (table .whole _) => none
    | some (table origin inner) => (openTable path inner).map fun inner => replace key (table origin inner) entries
    | some _ => none

/-- Gives a value to a dotted key that has none.  The tables it leads through must not have a header of their own,
and the last of them must have come into being by dotted keys. -/
def assign (value : Toml) : List String → Entries → Option Entries
  | [], _ => none
  | [key], entries => if (entries.lookup key).isSome then none else some (entries ++ [(key, value)])
  | key :: path, entries =>
    match entries.lookup key with
    | none => (assign value path []).map fun inner => entries ++ [(key, table .dotted inner)]
    | some (table .dotted inner) =>
      (assign value path inner).map fun inner => replace key (table .dotted inner) entries
    | some (table .implied inner) =>
      if path.length = 1 then none
      else (assign value path inner).map fun inner => replace key (table .implied inner) entries
    | some _ => none

/-- Changes the entries of the table that a path leads to. -/
def changeAt (change : Entries → Option Entries) : List String → Entries → Option Entries
  | [], entries => change entries
  | key :: path, entries =>
    match entries.lookup key with
    | some (table origin inner) =>
      (changeAt change path inner).map fun inner => replace key (table origin inner) entries
    | _ => none

/-! ### Views -/

def text? : Toml → Option String
  | text s => some s
  | _ => none

def integer? : Toml → Option Int
  | integer n => some n
  | _ => none

def boolean? : Toml → Option Bool
  | boolean b => some b
  | _ => none

def entries? : Toml → Option Entries
  | table _ entries => some entries
  | _ => none

end Toml

end DiceTally
