import DiceTally.Proofs.Pipeline.Cut
import DiceTally.Proofs.Pipeline.Derivation
import DiceTally.Proofs.Pipeline.Parameters

/-!
# The shape of pipelines

What holds everywhere in an operation that has been read, whatever the options: every step is well formed, blocks
have a size, conditions are well formed, and a named operation stands for what is registered under its name and has
parameters that are tokens of the pipeline (`wellFormed_of_parse`).
-/

namespace DiceTally

namespace Operation

/-- The parameters of a named operation are read from tokens that may be parameters. -/
def ParamsFrom (registry : Registry) (tokens : List String) (params : List Param) : Prop :=
  ∃ words : List String, params = words.map Param.ofToken ∧ ∀ w ∈ words, w ∈ tokens ∧ stopsParams registry w = false

/-- What holds of every operation read from the given tokens. -/
def WellFormed (registry : Registry) (tokens : List String) : Operation → Prop
  | primitive step => step.WellFormed
  | sliceApply size inner outer => 0 < size ∧ (size : Int) < Value.bound ∧
    inner.WellFormed registry tokens ∧ outer.WellFormed registry tokens
  | conditional condition taken otherwise => (condition = .always ∨ condition.WellFormed) ∧
    taken.WellFormed registry tokens ∧ otherwise.WellFormed registry tokens
  | native name params function =>
    registry.get? name = some (.native function) ∧ ParamsFrom registry tokens params
  | defined name params pipeline =>
    registry.get? name = some (.defined pipeline) ∧ ParamsFrom registry tokens params
  | andThen first next => first.WellFormed registry tokens ∧ next.WellFormed registry tokens
  | validated inner => inner.WellFormed registry tokens
  | memoized _ inner => inner.WellFormed registry tokens

variable {language : Language} {all : List String}

theorem wellFormed_wrapped {op : Operation} (h : op.WellFormed language.registry all) (options : ParseOptions)
    (top : Bool) (slot : Nat) : (wrapped options top op slot).1.WellFormed language.registry all := by
  unfold wrapped
  dsimp only
  split <;> split <;> exact h

theorem wellFormed_ofWords {name : String} {params : List String} {op : Operation}
    (h : ofWords name params = .ok op) : op.WellFormed language.registry all := by
  rcases ofWords_cases h with ⟨step, rfl, hstep⟩ | ⟨size, step, rfl, hpos, hlt, hstep⟩
  · exact hstep
  · exact ⟨hpos, hlt, hstep, trivial⟩

theorem wellFormed_call {name : String} {callable : Callable}
    (h : language.registry.get? name = some callable) {words : List String}
    (hwords : ∀ w ∈ words, w ∈ all ∧ stopsParams language.registry w = false) :
    (callable.call name (words.map Param.ofToken)).WellFormed language.registry all := by
  cases callable with
  | native function => exact ⟨h, words, rfl, hwords⟩
  | defined pipeline => exact ⟨h, words, rfl, hwords⟩

/-- All tokens of a part are among the given ones. -/
def PartWithin (registry : Registry) (all : List String) : Part → Prop
  | .pipeline _ tokens => tokens ⊆ all
  | .stage cut => cut.Within registry all
  | .guarded op guard => op.WellFormed registry all ∧ ∀ g ∈ guard, g.Within all
  | .branch tokens => tokens ⊆ all

theorem Reads.wellFormed {part : Part} {n k : Nat} {op : Operation} (h : Reads language part n op k)
    (hpart : PartWithin language.registry all part) : op.WellFormed language.registry all := by
  induction h with
  | last hcut _ _ ih => exact wellFormed_wrapped (ih (Cut.within_of_ofTokens hcut hpart)) ..
  | andThen hcut _ _ _ ihcurrent ihnext =>
    have hwithin := Cut.within_of_ofTokens hcut hpart
    refine wellFormed_wrapped ?_ ..
    exact ⟨ihcurrent hwithin, ihnext hwithin.after⟩
  | group _ _ ihinner ihop =>
    obtain ⟨⟨hbody, hguard⟩, -⟩ := hpart
    exact ihop ⟨ihinner hbody, hguard⟩
  | slicesLast hsize _ hfirst _ _ ih =>
    obtain ⟨hpos, hlt⟩ := readBlockSize_bounds hsize
    have hinner := ih (Cut.within_of_ofTokens hfirst hpart.2)
    exact ⟨hpos, hlt, wellFormed_wrapped hinner .., trivial⟩
  | slices hsize _ hfirst _ _ _ ihinner ihouter =>
    obtain ⟨hpos, hlt⟩ := readBlockSize_bounds hsize
    have hwithin := Cut.within_of_ofTokens hfirst hpart.2
    exact ⟨hpos, hlt, wellFormed_wrapped (ihinner hwithin) .., ihouter hwithin.after⟩
  | registered hget => exact wellFormed_call hget hpart.1.1
  | reroll _ => exact .inl rfl
  | rerollIf _ hcondition => exact Condition.wellFormed_of_parse hcondition
  | builtIn _ _ hbuilt _ _ ih => exact ih ⟨wellFormed_ofWords hbuilt, hpart.1.2⟩
  | unguarded => exact hpart.1
  | guarded hcondition => exact ⟨Condition.wellFormed_of_parse hcondition, hpart.1, trivial⟩
  | branched hcondition _ ih =>
    obtain ⟨hop, hguard⟩ := hpart
    exact ⟨Condition.wellFormed_of_parse hcondition, hop, ih ((hguard _ rfl).2 _ rfl)⟩
  | branch _ _ ih => exact ih hpart

/-- What holds everywhere in an operation that has been read. -/
theorem wellFormed_of_parse {words : List String} {op : Operation} (h : parse language words = .ok op) :
    op.WellFormed language.registry (Token.normalize words) := by
  obtain ⟨k, hreads⟩ := parse_eq_ok_iff.1 h
  exact hreads.wellFormed (List.Subset.refl _)

end Operation

end DiceTally
