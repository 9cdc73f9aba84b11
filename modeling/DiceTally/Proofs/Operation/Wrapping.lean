import DiceTally.Operation.Eval
import DiceTally.Proofs.Pipeline.Levels

/-!
# What wrapping changes

How the levels of a pipeline are wrapped shows neither in its words (`tokens_wrapLevels`) nor, apart from
`validated`, in its results (`eval_wrapLevels`).  Each cached level has a cache of its own: the numbers that
`wrapLevels` gives out follow each other (`slots_wrapLevels`), so no two levels share one (`apart_of_parse`).
-/

namespace DiceTally

namespace Operation

/-- The cached levels of an operation with their numbers; those of a named pipeline are not among them. -/
def memos : Operation → List (Nat × Operation)
  | sliceApply _ inner outer => inner.memos ++ outer.memos
  | conditional _ taken otherwise => taken.memos ++ otherwise.memos
  | andThen first next => first.memos ++ next.memos
  | validated inner => inner.memos
  | memoized slot inner => inner.memos ++ [(slot, inner)]
  | _ => []

/-- No two cached levels have the same number. -/
def Apart (op : Operation) : Prop := (op.memos.map Prod.fst).Nodup

/-! ### Words -/

section Words

variable (options : ParseOptions) (top : Bool)

@[simp] theorem tokens_wrapped (op : Operation) (slot : Nat) : (wrapped options top op slot).1.tokens = op.tokens := by
  unfold wrapped
  dsimp only
  split <;> split <;> rfl

@[simp] theorem isIdentity_wrapped (op : Operation) (slot : Nat) :
    (wrapped options top op slot).1.isIdentity = op.isIdentity := by
  unfold wrapped
  dsimp only
  split <;> split <;> rfl

@[simp] theorem openEnded_wrapped (op : Operation) (slot : Nat) :
    (wrapped options top op slot).1.openEnded = op.openEnded := by
  unfold wrapped
  dsimp only
  split <;> split <;> rfl

@[simp] theorem isIdentity_wrapLevels (op : Operation) (slot : Nat) :
    (op.wrapLevels options top slot).1.isIdentity = op.isIdentity := by
  induction op generalizing top slot with
  | validated inner ih => simp [wrapLevels, isIdentity, ih]
  | memoized slot inner ih => simp [wrapLevels, isIdentity, ih]
  | _ => rfl

@[simp] theorem openEnded_wrapLevels (op : Operation) (slot : Nat) :
    (op.wrapLevels options top slot).1.openEnded = op.openEnded := by
  induction op generalizing top slot with
  | sliceApply size inner outer _ ih => exact ih false _
  | andThen first next _ ih => exact ih false _
  | validated inner ih => simp [wrapLevels, openEnded, ih]
  | memoized slot inner ih => simp [wrapLevels, openEnded, ih]
  | _ => rfl

/-- Wrapping does not show in the words. -/
@[simp] theorem tokens_wrapLevels (op : Operation) (slot : Nat) :
    (op.wrapLevels options top slot).1.tokens = op.tokens := by
  induction op generalizing top slot with
  | sliceApply size inner outer ihinner ihouter => simp [wrapLevels, tokens, ihinner, ihouter]
  | conditional condition taken otherwise ihtaken ihotherwise => simp [wrapLevels, tokens, ihtaken, ihotherwise]
  | andThen first next ihfirst ihnext => simp [wrapLevels, tokens, ihfirst, ihnext]
  | validated inner ih => simp [wrapLevels, tokens, ih]
  | memoized slot inner ih => simp [wrapLevels, tokens, ih]
  | _ => rfl

end Words

/-! ### Results -/

theorem eval_wrapped (validate memoize top : Bool) (op : Operation) (slot : Nat) (dice : Tuple) :
    (wrapped ⟨validate, memoize⟩ top op slot).1.eval dice =
      if validate then (op.eval dice).mapError (.within op.render dice) else op.eval dice := by
  unfold wrapped
  cases validate <;> cases memoize <;> cases top <;> rfl

/-- Neither caching nor the numbers of the caches nor which level is the outermost one changes a result. -/
theorem eval_wrapLevels (validate memoize memoize' top top' : Bool) (op : Operation) (slot slot' : Nat)
    (dice : Tuple) :
    (op.wrapLevels ⟨validate, memoize⟩ top slot).1.eval dice =
      (op.wrapLevels ⟨validate, memoize'⟩ top' slot').1.eval dice := by
  induction op generalizing top top' slot slot' dice with
  | sliceApply size inner outer ihinner ihouter =>
    have hinner (block : Tuple) := ihinner false false slot slot' block
    simp only [wrapLevels, eval, hinner]
    exact congrArg _ (funext fun results => ihouter false false _ _ _)
  | conditional condition taken otherwise ihtaken ihotherwise =>
    simp only [wrapLevels, eval]
    rw [ihtaken false false slot slot', ihotherwise false false _ (taken.wrapLevels ⟨validate, memoize'⟩ false slot').2]
  | andThen first next ihfirst ihnext =>
    simp only [wrapLevels, eval]
    rw [ihfirst false false slot slot']
    exact congrArg _ (funext fun middle => ihnext false false _ _ _)
  | validated inner ih =>
    simp only [wrapLevels, eval_wrapped, render, tokens_wrapLevels]
    rw [ih false false slot slot']
  | memoized _ inner ih => exact ih false false slot slot' dice
  | _ => rfl

/-! ### Numbers -/

theorem memoSlots_le_iff (op : Operation) (n : Nat) : op.memoSlots ≤ n ↔ ∀ m ∈ op.memos, m.1 < n := by
  have both {op₁ op₂ : Operation} (h₁ : op₁.memoSlots ≤ n ↔ ∀ m ∈ op₁.memos, m.1 < n)
      (h₂ : op₂.memoSlots ≤ n ↔ ∀ m ∈ op₂.memos, m.1 < n) :
      Nat.max op₁.memoSlots op₂.memoSlots ≤ n ↔ ∀ m ∈ op₁.memos ++ op₂.memos, m.1 < n := by
    rw [List.forall_mem_append, ← h₁, ← h₂]
    exact Nat.max_le
  induction op with
  | sliceApply size inner outer ihinner ihouter => exact both ihinner ihouter
  | conditional condition taken otherwise ihtaken ihotherwise => exact both ihtaken ihotherwise
  | andThen first next ihfirst ihnext => exact both ihfirst ihnext
  | validated inner ih => exact ih
  | memoized slot inner ih =>
    rw [memos, List.forall_mem_append, List.forall_mem_singleton, and_comm]
    exact Nat.max_le.trans (and_congr_right' ih)
  | _ => simp [memoSlots, memos]

/-- Every cached level has its number among those of the caches. -/
theorem lt_memoSlots (op : Operation) : ∀ m ∈ op.memos, m.1 < op.memoSlots :=
  (op.memoSlots_le_iff op.memoSlots).1 (Nat.le_refl _)

theorem slots_wrapped (options : ParseOptions) (top : Bool) {op : Operation} {slot count : Nat}
    (h : op.memos.map Prod.fst = List.range' slot count) :
    ∃ count', (wrapped options top op (slot + count)).1.memos.map Prod.fst = List.range' slot count' ∧
      (wrapped options top op (slot + count)).2 = slot + count' := by
  unfold wrapped
  have hchecked : (if options.validate then validated op else op).memos = op.memos := by split <;> rfl
  dsimp only
  split
  · refine ⟨count + 1, ?_, Nat.add_assoc ..⟩
    rw [memos, hchecked, List.map_append, h, List.range'_concat]
    simp
  · exact ⟨count, by rw [hchecked, h], rfl⟩

/-- The numbers of the caches follow each other. -/
theorem slots_wrapLevels (options : ParseOptions) (top : Bool) (op : Operation) (slot : Nat) :
    ∃ count, (op.wrapLevels options top slot).1.memos.map Prod.fst = List.range' slot count ∧
      (op.wrapLevels options top slot).2 = slot + count := by
  have both {op₁ op₂ : Operation} {slot : Nat}
      (h₁ : ∃ count, (op₁.wrapLevels options false slot).1.memos.map Prod.fst = List.range' slot count ∧
        (op₁.wrapLevels options false slot).2 = slot + count)
      (h₂ : ∀ slot, ∃ count, (op₂.wrapLevels options false slot).1.memos.map Prod.fst = List.range' slot count ∧
        (op₂.wrapLevels options false slot).2 = slot + count) :
      ∃ count, ((op₁.wrapLevels options false slot).1.memos ++
          (op₂.wrapLevels options false (op₁.wrapLevels options false slot).2).1.memos).map Prod.fst =
            List.range' slot count ∧
        (op₂.wrapLevels options false (op₁.wrapLevels options false slot).2).2 = slot + count := by
    obtain ⟨count₁, hmemos₁, hnext₁⟩ := h₁
    obtain ⟨count₂, hmemos₂, hnext₂⟩ := h₂ (op₁.wrapLevels options false slot).2
    refine ⟨count₁ + count₂, ?_, ?_⟩
    · rw [List.map_append, hmemos₁, hmemos₂, hnext₁, List.range'_append_1]
    · rw [hnext₂, hnext₁, Nat.add_assoc]
  induction op generalizing top slot with
  | sliceApply size inner outer ihinner ihouter => exact both (ihinner false slot) (ihouter false)
  | conditional condition taken otherwise ihtaken ihotherwise => exact both (ihtaken false slot) (ihotherwise false)
  | andThen first next ihfirst ihnext => exact both (ihfirst false slot) (ihnext false)
  | validated inner ih =>
    obtain ⟨count, hmemos, hnext⟩ := ih false slot
    simp only [wrapLevels, hnext]
    exact slots_wrapped options top hmemos
  | memoized _ inner ih => exact ih false slot
  | _ => exact ⟨0, rfl, rfl⟩

/-- No two cached levels of a pipeline share a cache. -/
theorem apart_of_parse {language : Language} {words : List String} {op : Operation}
    (h : parse language words = .ok op) : op.Apart := by
  obtain ⟨registry, options⟩ := language
  rw [parse_eq_map_outline] at h
  obtain ⟨outline, -, rfl⟩ := map_eq_ok_iff.1 h
  obtain ⟨count, hmemos, -⟩ := slots_wrapLevels options true outline 0
  rw [Apart, hmemos]
  exact List.nodup_range'

end Operation

end DiceTally
