import DiceTally.Proofs.Pipeline.Comparison
import DiceTally.Proofs.Pipeline.Parameters

/-!
# Levels of a pipeline

The options under which a pipeline is read only say what every level of it is wrapped in.  Read under `outline`
every level is a `validated` node and nothing else is added; `wrapLevels` puts the wrapping of other options in the
place of these nodes, and `parse_eq_map_outline` says that this is how any options read.
-/

namespace DiceTally

/-- The options that mark every level by a `validated` node. -/
def ParseOptions.outline : ParseOptions := ⟨true, false⟩

namespace Operation

/-- An outline with its levels wrapped under other options, the caches numbered from `slot` on in the order in which
the levels end; with the next free number. -/
def wrapLevels (options : ParseOptions) (top : Bool) : Operation → Nat → Operation × Nat
  | sliceApply size inner outer, slot =>
    let (inner, slot) := inner.wrapLevels options false slot
    let (outer, slot) := outer.wrapLevels options false slot
    (sliceApply size inner outer, slot)
  | conditional condition taken otherwise, slot =>
    let (taken, slot) := taken.wrapLevels options false slot
    let (otherwise, slot) := otherwise.wrapLevels options false slot
    (conditional condition taken otherwise, slot)
  | andThen first next, slot =>
    let (first, slot) := first.wrapLevels options false slot
    let (next, slot) := next.wrapLevels options false slot
    (andThen first next, slot)
  | validated inner, slot =>
    let (inner, slot) := inner.wrapLevels options false slot
    wrapped options top inner slot
  -- an outline has no such node
  | memoized _ inner, slot => inner.wrapLevels options false slot
  | op, slot => (op, slot)

theorem wrapLevels_ofWords {name : String} {params : List String} {op : Operation}
    (h : ofWords name params = .ok op) (options : ParseOptions) (slot : Nat) :
    op.wrapLevels options false slot = (op, slot) := by
  rcases ofWords_cases h with ⟨step, rfl, -⟩ | ⟨size, step, rfl, -⟩
  · rfl
  · rfl

/-! ### Reading under any options -/

/-- An operation that has been read under the options, and the outline that it comes from by wrapping. -/
def wrapping (registry : Registry) (options : ParseOptions) :
    Comparison ⟨registry, options⟩ ⟨registry, .outline⟩ where
  Same top n op k outline := outline.wrapLevels options top n = (op, k)
  primitive _ _ := rfl
  -- a built-in operation has no levels of its own
  builtIn h n := wrapLevels_ofWords h options n
  call {_ callable} h := ⟨callable, h, fun _ _ => by cases callable <;> rfl⟩
  missing h := h
  sliceApply hinner houter := by simp only [wrapLevels, hinner, houter]
  conditional htaken hotherwise := by simp only [wrapLevels, htaken, hotherwise]
  andThen hfirst hnext := by simp only [wrapLevels, hfirst, hnext]
  wrapped {n k op outline} h top m := by
    show (validated outline).wrapLevels options top n = _
    rw [wrapLevels, h]

/-- Started at the number `n`, a reading under any options gives what its outline is wrapped to from `n` on. -/
theorem run_readPipeline (registry : Registry) (options : ParseOptions) (top : Bool) (tokens : List String)
    (n m : Nat) :
    (readPipeline ⟨registry, options⟩ top tokens).run n =
      ((readPipeline ⟨registry, .outline⟩ top tokens).run m).map fun r => r.1.wrapLevels options top n := by
  rcases (wrapping registry options).related_readPipeline top tokens n m with
    ⟨e, hread, houtline⟩ | ⟨r, r', hread, houtline, hsame⟩
  · rw [hread, houtline]
    rfl
  · rw [hread, houtline]
    exact congrArg Except.ok hsame.symm

/-- A pipeline read under any options is its outline with the levels wrapped. -/
theorem parse_eq_map_outline (registry : Registry) (options : ParseOptions) (words : List String) :
    parse ⟨registry, options⟩ words =
      (parse ⟨registry, .outline⟩ words).map fun op => (op.wrapLevels options true 0).1 := by
  have h := run_readPipeline registry options true (Token.normalize words) 0 0
  unfold parse
  rw [StateT.run'_eq, StateT.run'_eq, h]
  cases (readPipeline ⟨registry, .outline⟩ true (Token.normalize words)).run 0 <;> rfl

end Operation

end DiceTally
