import DiceTally.Proofs.Pipeline.Comparison

/-!
# Operations without their wrapping

`Operation.unwrapped` takes all `validated` and `memoized` nodes out of an operation, and out of the named pipelines
that it calls.  What a pipeline is read as is, up to wrapping, the same under all options, also if the named
pipelines themselves have been read under others; and it is refused for the same reason (`parse_unwrapped`).
-/

namespace DiceTally

namespace Operation

/-- An operation without the wrapping of levels, here and in the pipelines that are called by name. -/
def unwrapped : Operation → Operation
  | primitive step => primitive step
  | sliceApply size inner outer => sliceApply size inner.unwrapped outer.unwrapped
  | conditional condition taken otherwise => conditional condition taken.unwrapped otherwise.unwrapped
  | native name params function => native name params function
  | defined name params pipeline => defined name params pipeline.unwrapped
  | andThen first next => andThen first.unwrapped next.unwrapped
  | validated inner => inner.unwrapped
  | memoized _ inner => inner.unwrapped

@[simp] theorem unwrapped_wrapped (options : ParseOptions) (top : Bool) (op : Operation) (slot : Nat) :
    (wrapped options top op slot).1.unwrapped = op.unwrapped := by
  unfold wrapped
  dsimp only
  split <;> split <;> rfl

end Operation

def Callable.unwrapped : Callable → Callable
  | native function => native function
  | defined pipeline => defined pipeline.unwrapped

theorem Callable.unwrapped_call (name : String) (params : List Param) (callable : Callable) :
    (callable.call name params).unwrapped = callable.unwrapped.call name params := by
  cases callable <;> rfl

namespace Registry

/-- The names of two registries are the same and stand for the same, up to wrapping. -/
def Counterpart (r r' : Registry) : Prop :=
  ∀ name, (r.get? name).map Callable.unwrapped = (r'.get? name).map Callable.unwrapped

variable {r r' : Registry}

theorem Counterpart.refl (r : Registry) : r.Counterpart r := fun _ => rfl

theorem Counterpart.contains (h : r.Counterpart r') (name : String) : r.contains name = r'.contains name := by
  have hsome := congrArg Option.isSome (h name)
  simpa [Registry.contains] using hsome

theorem Counterpart.get?_none (h : r.Counterpart r') {name : String} (hget : r.get? name = none) :
    r'.get? name = none := by
  have hname := h name
  rw [hget] at hname
  exact Option.map_eq_none_iff.1 hname.symm

theorem Counterpart.get?_some (h : r.Counterpart r') {name : String} {callable : Callable}
    (hget : r.get? name = some callable) :
    ∃ callable', r'.get? name = some callable' ∧ callable'.unwrapped = callable.unwrapped := by
  have hname := h name
  rw [hget] at hname
  exact Option.map_eq_some_iff.1 hname.symm

end Registry

namespace Operation

/-! ### Readings -/

/-- Operations that are the same up to wrapping, read with counterparts of the named pipelines. -/
def sameUnwrapped {registry registry' : Registry} (hregistry : registry.Counterpart registry')
    (options options' : ParseOptions) : Comparison ⟨registry, options⟩ ⟨registry', options'⟩ where
  Same _ _ op _ op' := op.unwrapped = op'.unwrapped
  primitive _ _ := rfl
  builtIn _ _ := rfl
  call h := by
    obtain ⟨callable', hget', hsame⟩ := hregistry.get?_some h
    exact ⟨callable', hget', fun _ _ => by rw [Callable.unwrapped_call, Callable.unwrapped_call, hsame]⟩
  missing h := hregistry.get?_none h
  sliceApply hinner houter := by simp only [unwrapped, hinner, houter]
  conditional htaken hotherwise := by simp only [unwrapped, htaken, hotherwise]
  andThen hfirst hnext := by simp only [unwrapped, hfirst, hnext]
  wrapped h _ _ := by rw [unwrapped_wrapped, unwrapped_wrapped, h]

/-- A pipeline is refused for the same reason or read as the same operation up to wrapping. -/
theorem parse_unwrapped {registry registry' : Registry} (h : registry.Counterpart registry')
    (options options' : ParseOptions) (words : List String) :
    (∃ e, parse ⟨registry, options⟩ words = .error e ∧ parse ⟨registry', options'⟩ words = .error e) ∨
      ∃ op op', parse ⟨registry, options⟩ words = .ok op ∧ parse ⟨registry', options'⟩ words = .ok op' ∧
        op.unwrapped = op'.unwrapped := by
  unfold parse
  rw [StateT.run'_eq, StateT.run'_eq]
  rcases (sameUnwrapped h options options').related_readPipeline true (Token.normalize words) 0 0 with
    ⟨e, hx, hy⟩ | ⟨r, r', hx, hy, hsame⟩
  · rw [hx, hy]
    exact .inl ⟨e, rfl, rfl⟩
  · rw [hx, hy]
    exact .inr ⟨r.1, r'.1, rfl, rfl, hsame⟩

end Operation

end DiceTally
