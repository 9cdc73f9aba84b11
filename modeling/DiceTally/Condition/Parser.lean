import DiceTally.Condition.Basic
import DiceTally.ParseError
import DiceTally.Token

/-!
# Reading conditions

The tokens are first gathered into nodes: brackets, connectives and comparisons with their operands.  Then each
pair of brackets is replaced by the condition between them, and `not`, `and` and `or` are applied in that order,
each from left to right.  `Condition.parse` reads a whole condition; no tokens at all are the condition `always`.
-/

namespace DiceTally

inductive Connective where
  | not
  | and
  | or
  deriving DecidableEq, Repr

def Connective.keyword : Connective → String
  | not => "not"
  | and => "and"
  | or => "or"

/-- The parts of a condition without brackets. -/
inductive Piece where
  | connective (c : Connective)
  | condition (c : Condition)
  deriving DecidableEq, Repr

/-- The parts of a condition. -/
inductive Node where
  | opening
  | closing
  | piece (p : Piece)
  deriving DecidableEq, Repr

namespace Condition

/-! ### Comparisons -/

/-- Reads values, reporting the first token that is none. -/
def readValues (operation : String) (tokens : List String) : Except ParseError (List Value) :=
  tokens.mapM fun t =>
    match Value.ofText? t with
    | some v => .ok v
    | none => .error (.invalidParameter operation t .integer)

/-- Reads a comparison, behind any number of `mod` with divisors. -/
def leaf : List String → Except ParseError Condition
  | [] => .error (.condition .noComparison)
  | word :: rest =>
    if word = "mod" then
      let divisors := rest.takeWhile fun t => !Token.isComparing t
      let inner := rest.dropWhile fun t => !Token.isComparing t
      if divisors.isEmpty then .error (.condition .noDivisor)
      else do
        let values ← readValues "mod" divisors
        if values.contains 0 then throw (.condition .zeroDivisor)
        else if inner.isEmpty then throw (.condition .bareModulo)
        else return .modulo values (← leaf inner)
    else
      match Comparison.ofKeyword? word with
      | none => .error (.unknownComparison word)
      | some comparison =>
        if rest.isEmpty then .error (.condition (.noOperand word))
        else (readValues word rest).map (.compare comparison)
termination_by tokens => tokens.length
decreasing_by exact Nat.lt_succ_of_le (List.dropWhile_suffix _).length_le

/-! ### Nodes -/

/-- The node that a token is by itself. -/
def marker? : String → Option Node
  | "[" => some .opening
  | "]" => some .closing
  | "not" => some (.piece (.connective .not))
  | "and" => some (.piece (.connective .and))
  | "or" => some (.piece (.connective .or))
  | _ => none

/-- The comparison that a run of other tokens is; an empty run is nothing. -/
def run (tokens : List String) : Except ParseError (List Node) :=
  if tokens.isEmpty then .ok [] else (leaf tokens).map fun c => [.piece (.condition c)]

/-- The nodes of a list of tokens, `pending` being the tokens of the run being gathered. -/
def nodes (pending : List String) : List String → Except ParseError (List Node)
  | [] => run pending
  | t :: ts =>
    match marker? t with
    | none => nodes (pending ++ [t]) ts
    | some node => do
      let before ← run pending
      let after ← nodes [] ts
      return before ++ node :: after

/-! ### Connectives -/

/-- Applies every `not` to the condition after it. -/
def applyNot : List Piece → Except ParseError (List Piece)
  | [] => .ok []
  | .connective .not :: .condition c :: rest => do
    return .condition (.not c) :: (← applyNot rest)
  | .connective .not :: .connective .not :: _ => .error (.condition .doubleNegation)
  | .connective .not :: _ => .error (.condition .danglingNot)
  | piece :: rest => do return piece :: (← applyNot rest)

/-- A binary connective, with the condition it makes of two. -/
structure Join where
  connective : Connective
  make : Condition → Condition → Condition

def Join.and : Join := ⟨.and, .and⟩

def Join.or : Join := ⟨.or, .or⟩

/-- Applies a binary connective from left to right; `done` holds the pieces passed, the last one first. -/
def applyJoin (join : Join) (done : List Piece) : List Piece → Except ParseError (List Piece)
  | [] => .ok done.reverse
  | .condition c :: rest => applyJoin join (.condition c :: done) rest
  | .connective k :: rest =>
    if k ≠ join.connective then applyJoin join (.connective k :: done) rest
    else
      match done, rest with
      | .condition left :: done, .condition right :: rest =>
        applyJoin join (.condition (join.make left right) :: done) rest
      | .condition _ :: _, _ => .error (.condition (.noRight k.keyword))
      | _, _ => .error (.condition (.noLeft k.keyword))

/-- The condition of pieces without brackets. -/
def ofPieces (pieces : List Piece) : Except ParseError Condition := do
  let pieces ← applyNot pieces
  let pieces ← applyJoin .and [] pieces
  let pieces ← applyJoin .or [] pieces
  match pieces with
  | [.condition c] => .ok c
  | [] => .error (.condition .noComparison)
  | _ => .error (.condition .notJoined)

/-! ### Brackets -/

/-- Splits the nodes after an opening bracket at the bracket that closes it; `depth` further brackets are open. -/
def splitClosing (depth : Nat) : List Node → Option (List Node × List Node)
  | [] => none
  | .opening :: rest => (splitClosing (depth + 1) rest).map fun (inner, after) => (.opening :: inner, after)
  | .closing :: rest =>
    match depth with
    | 0 => some ([], rest)
    | depth + 1 => (splitClosing depth rest).map fun (inner, after) => (.closing :: inner, after)
  | .piece p :: rest => (splitClosing depth rest).map fun (inner, after) => (.piece p :: inner, after)

theorem length_of_splitClosing {depth : Nat} {nodes inner after : List Node}
    (h : splitClosing depth nodes = some (inner, after)) : inner.length + after.length < nodes.length := by
  induction nodes generalizing depth inner after with
  | nil => simp [splitClosing] at h
  | cons node rest ih =>
    cases node with
    | opening =>
      simp only [splitClosing, Option.map_eq_some_iff, Prod.exists, Prod.mk.injEq] at h
      obtain ⟨i, a, hs, rfl, rfl⟩ := h
      have := ih hs
      simp only [List.length_cons]
      omega
    | closing =>
      cases depth with
      | zero =>
        simp only [splitClosing, Option.some.injEq, Prod.mk.injEq] at h
        obtain ⟨rfl, rfl⟩ := h
        simp
      | succ depth =>
        simp only [splitClosing, Option.map_eq_some_iff, Prod.exists, Prod.mk.injEq] at h
        obtain ⟨i, a, hs, rfl, rfl⟩ := h
        have := ih hs
        simp only [List.length_cons]
        omega
    | piece p =>
      simp only [splitClosing, Option.map_eq_some_iff, Prod.exists, Prod.mk.injEq] at h
      obtain ⟨i, a, hs, rfl, rfl⟩ := h
      have := ih hs
      simp only [List.length_cons]
      omega

/-- The pieces of a list of nodes, every pair of brackets replaced by the condition between them. -/
def pieces : List Node → Except ParseError (List Piece)
  | [] => .ok []
  | .piece p :: rest => do return p :: (← pieces rest)
  | .closing :: _ => .error (.unbalanced .condition)
  | .opening :: rest =>
    match _h : splitClosing 0 rest with
    | none => .error (.unbalanced .condition)
    | some (inner, after) => do
      if inner.isEmpty then throw .emptyBrackets
      let group ← ofPieces (← pieces inner)
      return .condition group :: (← pieces after)
termination_by nodes => nodes.length
decreasing_by
  · simp
  · have := length_of_splitClosing _h
    simp only [List.length_cons]
    omega
  · have := length_of_splitClosing _h
    simp only [List.length_cons]
    omega

def parse (tokens : List String) : Except ParseError Condition :=
  if tokens.isEmpty then .ok .always
  else do ofPieces (← pieces (← nodes [] tokens))

end Condition

end DiceTally
