import DiceTally.Pipeline.Cut
import DiceTally.Pipeline.Parameters

/-!
# Reading pipelines

`Operation.parse` reads a pipeline into an operation.  A pipeline is a stage, followed by another pipeline if
tokens are left.  Every level of it can be wrapped to report the stage of a failure (`validated`), and every level
but the outermost one to keep its results (`memoized`), with a number of its own for each cache.
-/

namespace DiceTally

/-- What every level of a pipeline is wrapped in. -/
structure ParseOptions where
  validate : Bool
  memoize : Bool
  deriving DecidableEq, Repr

/-- The named operations and the wrapping under which a pipeline is read. -/
structure Language where
  registry : Registry
  options : ParseOptions

/-- Reading with a count of the caches numbered so far. -/
abbrev Reading := StateT Nat (Except ParseError)

namespace Operation

/-- Wraps a level of a pipeline. -/
def wrap (options : ParseOptions) (top : Bool) (op : Operation) : Reading Operation :=
  let checked := if options.validate then validated op else op
  if options.memoize && !top then modifyGet fun slot => (memoized slot checked, slot + 1)
  else pure checked

/-- Whether a branch may start with this token. -/
def startsBranch (t : String) : Bool := t == "[" || Token.branchable.contains t

mutual

/-- Reads a pipeline; `top` tells that it is the outermost one. -/
def readPipeline (language : Language) (top : Bool) (tokens : List String) : Reading Operation :=
  match _h : Cut.ofTokens language.registry tokens with
  | .error e => throw e
  | .ok cut => do
    let current ← readStage language cut
    let rest := cut.after
    if rest.isEmpty then wrap language.options top current
    else
      let next ← readPipeline language false rest
      wrap language.options top (andThen current next)
termination_by (tokens.length, 0)
decreasing_by
  · exact Prod.Lex.left _ _ (Cut.size_of_ofTokens _h)
  · exact Prod.Lex.left _ _ (Nat.lt_of_le_of_lt (Cut.length_after_le cut) (Cut.size_of_ofTokens _h))

/-- Reads a stage that has been cut off. -/
def readStage (language : Language) (cut : Cut) : Reading Operation :=
  match cut with
  | ⟨.group body guard, _⟩ => do
    let group ← readPipeline language false body
    readGuard language group guard
  | ⟨.slices params guarded, rest⟩ =>
    if guarded then throw (.notGuardable "slice-apply")
    else
      match params with
      | [token] => do
        let size ← readBlockSize "slice-apply" token
        if rest.isEmpty then throw .missingInner
        else
          match _h : Cut.ofTokens language.registry rest with
          | .error e => throw e
          | .ok first => do
            let inner ← readStage language first
            let inner ← wrap language.options false inner
            if first.after.isEmpty then return sliceApply size inner (primitive .identity)
            else return sliceApply size inner (← readPipeline language false first.after)
      | _ => throw (.arity "slice-apply" .exactlyOne params.length)
  | ⟨.call name params guard, _⟩ =>
    match language.registry.get? name with
    | some callable =>
      if guard.isSome then throw (.notGuardable name)
      else return callable.call name (params.map Param.ofToken)
    | none =>
      if name = "reroll" then
        if !params.isEmpty then throw (.arity name .none params.length)
        else
          match guard with
          | none => return primitive (.reroll .always)
          | some ⟨tokens, otherwise⟩ => do
            let condition ← Condition.parse tokens
            match otherwise with
            | none => return primitive (.reroll condition)
            | some branch => do
              let _ ← readBranch language branch
              throw (.notBranchable name)
      else do
        let op ← ofWords name params
        if guard.isSome && !Token.guardable.contains name then throw (.notGuardable name)
        else readGuard language op guard
termination_by (cut.size, 3)
decreasing_by
  · exact Prod.Lex.right' _ (by simp only [Cut.size, Cut.stageSize]; omega) (by decide)
  · exact Prod.Lex.right' _ (by simp only [Cut.size, Cut.stageSize]; omega) (by decide)
  · exact Prod.Lex.left _ _ (Nat.lt_of_lt_of_eq (Cut.size_of_ofTokens _h) (by simp [Cut.size, Cut.stageSize]))
  · refine Prod.Lex.left _ _ (Nat.lt_of_lt_of_eq (Nat.lt_of_le_of_lt (Cut.length_after_le first)
      (Cut.size_of_ofTokens _h)) (by simp [Cut.size, Cut.stageSize]))
  · exact Prod.Lex.right' _
      (by simp only [Cut.size, Cut.stageSize, Cut.guardSize, Cut.branchSize]; omega) (by decide)
  · exact Prod.Lex.right' _ (by simp only [Cut.size, Cut.stageSize]; omega) (by decide)

/-- Reads the `if` block of a stage, if it has one. -/
def readGuard (language : Language) (op : Operation) (guard : Option Guard) : Reading Operation :=
  match guard with
  | none => return op
  | some ⟨tokens, otherwise⟩ => do
    let condition ← Condition.parse tokens
    match otherwise with
    | none => return conditional condition op (primitive .identity)
    | some branch => return conditional condition op (← readBranch language branch)
termination_by (Cut.guardSize guard, 2)
decreasing_by exact Prod.Lex.right _ (by decide)

/-- Reads the branch after `else`. -/
def readBranch (language : Language) (tokens : List String) : Reading Operation :=
  match tokens with
  | [] => throw .missingElse
  | first :: rest =>
    if startsBranch first then readPipeline language false (first :: rest)
    else throw (.invalidElse first)
termination_by (tokens.length, 1)
decreasing_by exact Prod.Lex.right _ (by decide)

end

/-- Reads a pipeline from its words. -/
def parse (language : Language) (words : List String) : Except ParseError Operation :=
  (readPipeline language true (Token.normalize words)).run' 0

end Operation

end DiceTally
