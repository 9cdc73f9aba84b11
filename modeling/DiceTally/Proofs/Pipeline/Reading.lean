import DiceTally.Pipeline.Parser
import DiceTally.Proofs.Except

/-!
# The steps of reading a pipeline

One equation for each form that a stage can take, so that no later proof opens the recursion of `readPipeline`,
`readStage`, `readGuard` and `readBranch`.
-/

namespace DiceTally

namespace Operation

variable {language : Language}

/-- A level of a pipeline as `wrap` makes it, with the next free number. -/
def wrapped (options : ParseOptions) (top : Bool) (op : Operation) (slot : Nat) : Operation × Nat :=
  let checked := if options.validate then validated op else op
  if options.memoize && !top then (memoized slot checked, slot + 1) else (checked, slot)

@[simp] theorem run_wrap (options : ParseOptions) (top : Bool) (op : Operation) (slot : Nat) :
    (wrap options top op).run slot = .ok (wrapped options top op slot) := by
  unfold wrap wrapped
  dsimp only
  split <;> rfl

@[simp] theorem run_lift {α : Type} (x : Except ParseError α) (n : Nat) :
    (liftM x : Reading α).run n = x.map fun a => (a, n) := by
  cases x <;> rfl

theorem run_bind_eq_ok_iff {α β : Type} {x : Reading α} {f : α → Reading β} {n : Nat} {r : β × Nat} :
    (x >>= f).run n = .ok r ↔ ∃ a m, x.run n = .ok (a, m) ∧ (f a).run m = .ok r := by
  rw [StateT.run_bind, bind_eq_ok_iff]
  exact Prod.exists

theorem run_lift_eq_ok_iff {α : Type} {x : Except ParseError α} {n m : Nat} {a : α} :
    (liftM x : Reading α).run n = .ok (a, m) ↔ x = .ok a ∧ m = n := by
  rw [run_lift]
  cases x with
  | error e => simp [Except.map]
  | ok b => simp [Except.map, eq_comm]

/-! ### Levels -/

theorem readPipeline_error {top : Bool} {tokens : List String} {e : ParseError}
    (h : Cut.ofTokens language.registry tokens = .error e) : readPipeline language top tokens = throw e := by
  rw [readPipeline]
  split
  · simp_all
  · simp_all

theorem readPipeline_ok {top : Bool} {tokens : List String} {cut : Cut}
    (h : Cut.ofTokens language.registry tokens = .ok cut) :
    readPipeline language top tokens = (do
      let current ← readStage language cut
      if cut.after.isEmpty then wrap language.options top current
      else
        let next ← readPipeline language false cut.after
        wrap language.options top (andThen current next)) := by
  rw [readPipeline]
  split
  · simp_all
  · rename_i c hc
    rw [h] at hc
    cases hc
    rfl

/-! ### Stages -/

theorem readStage_group (body : List String) (guard : Option Guard) (rest : List String) :
    readStage language ⟨.group body guard, rest⟩ = (do
      let group ← readPipeline language false body
      readGuard language group guard) := by
  rw [readStage]

theorem readStage_slices_guarded (params rest : List String) :
    readStage language ⟨.slices params true, rest⟩ = throw (.notGuardable "slice-apply") := by
  rw [readStage.eq_def]
  rfl

theorem readStage_slices_arity {params : List String} (h : ∀ token, params ≠ [token]) (rest : List String) :
    readStage language ⟨.slices params false, rest⟩ =
      throw (.arity "slice-apply" .exactlyOne params.length) := by
  rw [readStage.eq_def]
  match params, h with
  | [], _ => rfl
  | [token], h => exact absurd rfl (h token)
  | _ :: _ :: _, _ => rfl

theorem readStage_slices_nil (token : String) :
    readStage language ⟨.slices [token] false, []⟩ = (do
      let _ ← readBlockSize "slice-apply" token
      throw .missingInner) := by
  rw [readStage]
  rfl

theorem readStage_slices_error (token : String) {rest : List String} (hrest : rest ≠ []) {e : ParseError}
    (h : Cut.ofTokens language.registry rest = .error e) :
    readStage language ⟨.slices [token] false, rest⟩ = (do
      let _ ← readBlockSize "slice-apply" token
      throw e) := by
  rw [readStage]
  simp only [Bool.false_eq_true, if_false, List.isEmpty_eq_false_iff.2 hrest]
  congr 1
  funext size
  split
  · simp_all
  · simp_all

theorem readStage_slices_ok (token : String) {rest : List String} (hrest : rest ≠ []) {first : Cut}
    (h : Cut.ofTokens language.registry rest = .ok first) :
    readStage language ⟨.slices [token] false, rest⟩ = (do
      let size ← readBlockSize "slice-apply" token
      let inner ← readStage language first
      let inner ← wrap language.options false inner
      if first.after.isEmpty then return sliceApply size inner (primitive .identity)
      else return sliceApply size inner (← readPipeline language false first.after)) := by
  rw [readStage]
  simp only [Bool.false_eq_true, if_false, List.isEmpty_eq_false_iff.2 hrest]
  congr 1
  funext size
  split
  · simp_all
  · rename_i c hc
    rw [h] at hc
    cases hc
    rfl

theorem readStage_registered {name : String} {callable : Callable}
    (h : language.registry.get? name = some callable) (params : List String) (guard : Option Guard)
    (rest : List String) :
    readStage language ⟨.call name params guard, rest⟩ =
      if guard.isSome then throw (.notGuardable name)
      else return callable.call name (params.map Param.ofToken) := by
  rw [readStage.eq_def]
  simp only [h]

section Reroll

variable (h : language.registry.get? "reroll" = none)

include h

theorem readStage_reroll_arity {params : List String} (hparams : params ≠ []) (guard : Option Guard)
    (rest : List String) :
    readStage language ⟨.call "reroll" params guard, rest⟩ = throw (.arity "reroll" .none params.length) := by
  rw [readStage.eq_def]
  simp [h, hparams]

theorem readStage_reroll (rest : List String) :
    readStage language ⟨.call "reroll" [] none, rest⟩ = pure (primitive (.reroll .always)) := by
  rw [readStage.eq_def]
  simp [h]

theorem readStage_reroll_guarded (tokens rest : List String) :
    readStage language ⟨.call "reroll" [] (some ⟨tokens, none⟩), rest⟩ = (do
      let condition ← Condition.parse tokens
      return primitive (.reroll condition)) := by
  rw [readStage.eq_def]
  simp [h]

theorem readStage_reroll_branch (tokens branch rest : List String) :
    readStage language ⟨.call "reroll" [] (some ⟨tokens, some branch⟩), rest⟩ = (do
      let _ ← Condition.parse tokens
      let _ ← readBranch language branch
      throw (.notBranchable "reroll")) := by
  rw [readStage.eq_def]
  simp [h]

end Reroll

theorem readStage_builtIn {name : String} (h : language.registry.get? name = none) (hname : name ≠ "reroll")
    (params : List String) (guard : Option Guard) (rest : List String) :
    readStage language ⟨.call name params guard, rest⟩ = (do
      let op ← ofWords name params
      if guard.isSome && !Token.guardable.contains name then throw (.notGuardable name)
      else readGuard language op guard) := by
  rw [readStage.eq_def]
  simp only [h, if_neg hname]

/-! ### `if` blocks -/

theorem readGuard_none (op : Operation) : readGuard language op none = pure op := by
  rw [readGuard]

theorem readGuard_some (op : Operation) (tokens : List String) :
    readGuard language op (some ⟨tokens, none⟩) = (do
      let condition ← Condition.parse tokens
      return conditional condition op (primitive .identity)) := by
  rw [readGuard]

theorem readGuard_branch (op : Operation) (tokens branch : List String) :
    readGuard language op (some ⟨tokens, some branch⟩) = (do
      let condition ← Condition.parse tokens
      return conditional condition op (← readBranch language branch)) := by
  rw [readGuard]

theorem readBranch_nil : readBranch language [] = throw .missingElse := by
  rw [readBranch]

theorem readBranch_cons (first : String) (rest : List String) :
    readBranch language (first :: rest) =
      if startsBranch first then readPipeline language false (first :: rest) else throw (.invalidElse first) := by
  rw [readBranch]

end Operation

end DiceTally
