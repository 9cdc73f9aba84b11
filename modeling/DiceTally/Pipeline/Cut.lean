import DiceTally.ParseError
import DiceTally.Registry

/-!
# The first stage of a pipeline

`Cut.ofTokens` cuts the first stage off a list of tokens without reading what is inside it: the tokens between
its brackets, its parameters, the tokens of its condition and of its `else` branch, and the tokens that follow.
All of these together are fewer than the tokens that were cut (`size_of_ofTokens`), on which the reading of
pipelines rests.
-/

namespace DiceTally

/-- The tokens of an `if` block. -/
structure Guard where
  condition : List String
  otherwise : Option (List String)
  deriving DecidableEq, Repr

/-- A stage whose parts are not yet read. -/
inductive Stage where
  /-- a pipeline between brackets -/
  | group (body : List String) (guard : Option Guard)
  /-- `slice-apply`, which takes all that follows as its operations; whether `if` follows its parameters -/
  | slices (params : List String) (guarded : Bool)
  /-- any other operation -/
  | call (name : String) (params : List String) (guard : Option Guard)
  deriving DecidableEq, Repr

/-- The first stage of a pipeline and the tokens after it. -/
structure Cut where
  stage : Stage
  rest : List String
  deriving DecidableEq, Repr

/-- Splits tokens in front of the first one outside of brackets that satisfies `isEnd`; `depth` brackets are
open. -/
def splitTop (isEnd : String → Bool) (depth : Nat) : List String → List String × List String
  | [] => ([], [])
  | t :: ts =>
    let go (depth : Nat) := let (before, after) := splitTop isEnd depth ts; (t :: before, after)
    if t = "[" then go (depth + 1)
    else if t = "]" then go (depth - 1)
    else if depth = 0 && isEnd t then ([], t :: ts)
    else go depth

/-- Splits the tokens after an opening bracket at the bracket that closes it; `depth` further brackets are
open. -/
def splitBracket (depth : Nat) : List String → Option (List String × List String)
  | [] => none
  | t :: ts =>
    let go (depth : Nat) := (splitBracket depth ts).map fun (body, after) => (t :: body, after)
    if t = "[" then go (depth + 1)
    else if t = "]" then
      match depth with
      | 0 => some ([], ts)
      | depth + 1 => go depth
    else go depth

/-- The tokens after a `then` that may stand in front. -/
def dropThen : List String → List String
  | [] => []
  | t :: ts => if t = "then" then ts else t :: ts

/-- Splits the tokens after `if` into condition, branch and what follows the block. -/
def Guard.split (tokens : List String) : Guard × List String :=
  let (condition, rest) := splitTop (fun t => t == "else" || t == "then") 0 tokens
  match rest with
  | [] => (⟨condition, none⟩, [])
  | t :: ts =>
    if t = "else" then
      let (branch, rest) := splitTop (fun t => t == "then") 0 ts
      (⟨condition, some branch⟩, dropThen rest)
    else (⟨condition, none⟩, dropThen rest)

/-- Splits an `if` block that may stand in front. -/
def splitGuard : List String → Option Guard × List String
  | [] => (none, [])
  | t :: ts =>
    if t = "if" then
      let (guard, rest) := Guard.split ts
      (some guard, rest)
    else (none, t :: ts)

/-- The tokens that end a list of parameters. -/
def stopsParams (registry : Registry) (t : String) : Bool :=
  Token.isOperation t || Token.isLogic t || Token.isBracket t || registry.contains t

namespace Cut

/-- Cuts off the first stage. -/
def ofTokens (registry : Registry) : List String → Except ParseError Cut
  | [] => .error .emptyPipeline
  | head :: tail =>
    if head = "[" then
      match splitBracket 0 tail with
      | none => .error (.unbalanced .pipeline)
      | some (body, after) =>
        if body.isEmpty then .error .emptyBrackets
        else
          let (guard, rest) := splitGuard after
          .ok ⟨.group body guard, rest⟩
    else if head = "]" then .error (.unbalanced .pipeline)
    else if Token.isLogic head then .error (.unknownOperation head)
    else
      let params := tail.takeWhile fun t => !stopsParams registry t
      let after := tail.dropWhile fun t => !stopsParams registry t
      if head = "slice-apply" then .ok ⟨.slices params (after.head? == some "if"), after⟩
      else
        let (guard, rest) := splitGuard after
        .ok ⟨.call head params guard, rest⟩

/-- The tokens that the stage leaves to the next one. -/
def after (cut : Cut) : List String :=
  match cut.stage with
  | .slices .. => []
  | _ => cut.rest

/-! ### Sizes -/

/-- The number of tokens of a branch. -/
def branchSize : Option (List String) → Nat
  | none => 0
  | some tokens => tokens.length

/-- The number of tokens in the branch of an `if` block. -/
def guardSize : Option Guard → Nat
  | none => 0
  | some guard => branchSize guard.otherwise

/-- The number of tokens inside a stage that are still to be read as pipelines. -/
def stageSize : Stage → Nat
  | .group body guard => body.length + guardSize guard
  | .slices .. => 0
  | .call _ _ guard => guardSize guard

/-- The number of tokens inside and after a stage that are still to be read as pipelines. -/
def size (cut : Cut) : Nat := stageSize cut.stage + cut.rest.length

theorem length_splitTop (isEnd : String → Bool) (depth : Nat) (tokens : List String) :
    (splitTop isEnd depth tokens).1.length + (splitTop isEnd depth tokens).2.length = tokens.length := by
  induction tokens generalizing depth with
  | nil => simp [splitTop]
  | cons t ts ih =>
    unfold splitTop
    have h1 := ih (depth + 1)
    have h2 := ih (depth - 1)
    have h3 := ih depth
    dsimp only
    split
    · simp only [List.length_cons]; omega
    · split
      · simp only [List.length_cons]; omega
      · split
        · simp
        · simp only [List.length_cons]; omega

theorem length_of_splitBracket {depth : Nat} {tokens body rest : List String}
    (h : splitBracket depth tokens = some (body, rest)) : body.length + rest.length < tokens.length := by
  induction tokens generalizing depth body rest with
  | nil => simp [splitBracket] at h
  | cons t ts ih =>
    have step : ∀ {d : Nat},
        (splitBracket d ts).map (fun (body, after) => (t :: body, after)) = some (body, rest) →
        body.length + rest.length < (t :: ts).length := by
      intro d hd
      simp only [Option.map_eq_some_iff, Prod.exists, Prod.mk.injEq] at hd
      obtain ⟨b, a, hs, rfl, rfl⟩ := hd
      have := ih hs
      simp only [List.length_cons]
      omega
    unfold splitBracket at h
    dsimp only at h
    split at h
    · exact step h
    · split at h
      · split at h
        · cases h; simp
        · exact step h
      · exact step h

theorem length_dropThen_le (tokens : List String) : (dropThen tokens).length ≤ tokens.length := by
  cases tokens with
  | nil => simp [dropThen]
  | cons t ts =>
    simp only [dropThen]
    split <;> simp

theorem size_guardSplit (tokens : List String) :
    branchSize (Guard.split tokens).1.otherwise + (Guard.split tokens).2.length ≤ tokens.length := by
  have h := length_splitTop (fun t => t == "else" || t == "then") 0 tokens
  unfold Guard.split
  dsimp only
  split
  · simp [branchSize]
  · rename_i t ts heq
    rw [heq, List.length_cons] at h
    split
    · have hb := length_splitTop (fun t => t == "then") 0 ts
      have hd := length_dropThen_le (splitTop (fun t => t == "then") 0 ts).2
      simp only [branchSize]
      omega
    · have hd := length_dropThen_le (t :: ts)
      simp only [branchSize]
      rw [heq]
      simp only [List.length_cons] at hd
      omega

theorem size_splitGuard (tokens : List String) :
    guardSize (splitGuard tokens).1 + (splitGuard tokens).2.length ≤ tokens.length := by
  cases tokens with
  | nil => simp [splitGuard, guardSize]
  | cons t ts =>
    have h := size_guardSplit ts
    simp only [splitGuard]
    split
    · simp only [guardSize, List.length_cons]
      omega
    · simp [guardSize]

/-- What is left to read of a cut is less than what was cut. -/
theorem size_of_ofTokens {registry : Registry} {tokens : List String} {cut : Cut}
    (h : ofTokens registry tokens = .ok cut) : cut.size < tokens.length := by
  cases tokens with
  | nil => simp [ofTokens] at h
  | cons head tail =>
    simp only [ofTokens] at h
    split at h
    · split at h
      · cases h
      · rename_i body rest hs
        split at h
        · cases h
        · cases h
          have h1 := length_of_splitBracket hs
          have h2 := size_splitGuard rest
          simp only [size, stageSize, List.length_cons]
          omega
    · split at h
      · cases h
      · split at h
        · cases h
        · have h1 : (tail.dropWhile fun t => !stopsParams registry t).length ≤ tail.length :=
            (List.dropWhile_suffix _).length_le
          split at h
          · cases h
            simp only [size, stageSize, List.length_cons]
            omega
          · cases h
            have h2 := size_splitGuard (tail.dropWhile fun t => !stopsParams registry t)
            simp only [size, stageSize, List.length_cons]
            omega

theorem length_after_le (cut : Cut) : cut.after.length ≤ cut.size := by
  unfold after size
  split <;> simp

end Cut

end DiceTally
