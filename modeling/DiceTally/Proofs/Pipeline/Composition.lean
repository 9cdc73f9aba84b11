import DiceTally.Proofs.Operation.Failures
import DiceTally.Proofs.Operation.Wrapping
import DiceTally.Proofs.Pipeline.Meaning

/-!
# Meanings under any options

How the levels of a pipeline are wrapped changes neither its results nor the root causes of its failures
(`sameCauses_wrapLevels`), so what words mean does not depend on the options under which they are read
(`means_of_parse`, `parse_of_means`).
-/

namespace DiceTally

/-- A part that is, if it is a pipeline, the outermost level or not. -/
def Part.withTop (top : Bool) : Part → Part
  | pipeline _ tokens => pipeline top tokens
  | part => part

namespace Operation

/-- Operations with the same results; their failures may differ in text. -/
def SameResults (op op' : Operation) : Prop :=
  ∀ dice result, op.eval dice = .ok result ↔ op'.eval dice = .ok result

theorem SameResults.refl (op : Operation) : op.SameResults op := fun _ _ => Iff.rfl

theorem SameResults.trans {op op' op'' : Operation} (h : op.SameResults op') (h' : op'.SameResults op'') :
    op.SameResults op'' := fun dice result => (h dice result).trans (h' dice result)

theorem SameResults.symm {op op' : Operation} (h : op.SameResults op') : op'.SameResults op :=
  fun dice result => (h dice result).symm

theorem SameResults.andThen {first first' next next' : Operation} (h : first.SameResults first')
    (hnext : next.SameResults next') : (andThen first next).SameResults (.andThen first' next') := by
  intro dice result
  simp only [eval, bind_eq_ok_iff, h _ _, hnext _ _]

theorem SameResults.conditional (condition : Condition) {taken taken' otherwise otherwise' : Operation}
    (htaken : taken.SameResults taken') (hotherwise : otherwise.SameResults otherwise') :
    (conditional condition taken otherwise).SameResults (.conditional condition taken' otherwise') := by
  intro dice result
  simp only [eval, bind_eq_ok_iff, htaken _ _, hotherwise _ _]

/-- Operations with the same results and the same root causes of failures. -/
def SameCauses (op op' : Operation) : Prop := ∀ dice, rooted (op.eval dice) = rooted (op'.eval dice)

theorem SameCauses.sameResults {op op' : Operation} (h : op.SameCauses op') : op.SameResults op' := by
  intro dice result
  rw [← rooted_eq_ok_iff, h dice, rooted_eq_ok_iff]

section

variable {first first' next next' : Operation}

theorem SameCauses.andThen (h : first.SameCauses first') (hnext : next.SameCauses next') :
    (andThen first next).SameCauses (.andThen first' next') := by
  intro dice
  simp only [eval, rooted_bind, h _, hnext _]

theorem SameCauses.conditional (condition : Condition) (h : first.SameCauses first') (hnext : next.SameCauses next') :
    (conditional condition first next).SameCauses (.conditional condition first' next') := by
  intro dice
  simp only [eval, rooted_bind, h _, hnext _]

theorem SameCauses.sliceApply (size : Nat) (h : first.SameCauses first') (hnext : next.SameCauses next') :
    (sliceApply size first next).SameCauses (.sliceApply size first' next') := by
  intro dice
  simp only [eval, rooted_bind, rooted_mapM, h _, hnext _]

end

theorem rooted_eval_wrapped (options : ParseOptions) (top : Bool) (op : Operation) (slot : Nat) (dice : Tuple) :
    rooted ((wrapped options top op slot).1.eval dice) = rooted (op.eval dice) := by
  obtain ⟨validate, memoize⟩ := options
  rw [eval_wrapped]
  split
  · exact rooted_within ..
  · rfl

theorem eval_wrapped_eq_ok_iff (options : ParseOptions) (top : Bool) (op : Operation) (slot : Nat)
    (dice result : Tuple) : (wrapped options top op slot).1.eval dice = .ok result ↔ op.eval dice = .ok result := by
  rw [← rooted_eq_ok_iff, rooted_eval_wrapped, rooted_eq_ok_iff]

/-- The wrapping of levels shows in the text of failures only. -/
theorem sameCauses_wrapLevels (options options' : ParseOptions) (top top' : Bool) (op : Operation)
    (slot slot' : Nat) : (op.wrapLevels options top slot).1.SameCauses (op.wrapLevels options' top' slot').1 := by
  induction op generalizing top top' slot slot' with
  | sliceApply size inner outer ihinner ihouter =>
    exact (ihinner false false _ _).sliceApply size (ihouter false false _ _)
  | conditional condition taken otherwise ihtaken ihotherwise =>
    exact (ihtaken false false _ _).conditional condition (ihotherwise false false _ _)
  | andThen first next ihfirst ihnext => exact (ihfirst false false _ _).andThen (ihnext false false _ _)
  | validated inner ih =>
    intro dice
    simp only [wrapLevels, rooted_eval_wrapped, ih false false slot slot' _]
  | memoized _ inner ih => exact ih false false slot slot'
  | _ => exact fun _ => rfl

/-! ### Meanings of words -/

variable {registry : Registry}

/-- Under options that wrap nothing no caches are numbered, and the outermost level is like any other. -/
theorem reads_plain {part : Part} {n k : Nat} {op : Operation} (h : Reads ⟨registry, .plain⟩ part n op k) (top : Bool)
    (m : Nat) : Reads ⟨registry, .plain⟩ (part.withTop top) m op m := by
  induction h generalizing top m with
  | last hcut _ hafter ih => exact .last hcut (ih top m) hafter
  | andThen hcut _ hafter _ ihcurrent ihnext => exact .andThen hcut (ihcurrent top m) hafter (ihnext false m)
  | group _ _ ihinner ihop => exact .group (ihinner false m) (ihop top m)
  | slicesLast hsize hrest hfirst _ hafter ih => exact .slicesLast hsize hrest hfirst (ih top m) hafter
  | @slices token rest size first inner outer _ _ _ hsize hrest hfirst _ hafter _ ihinner ihouter =>
    have hread : Reads ⟨registry, .plain⟩ (.stage ⟨.slices [token] false, rest⟩) m
        (sliceApply size (wrapped .plain false inner m).1 outer) m :=
      .slices hsize hrest hfirst (ihinner top m) hafter (ihouter false m)
    exact hread
  | registered hget => exact .registered hget
  | reroll hget => exact .reroll hget
  | rerollIf hget hcondition => exact .rerollIf hget hcondition
  | builtIn hget hname hbuilt hguard _ ih => exact .builtIn hget hname hbuilt hguard (ih top m)
  | unguarded => exact .unguarded
  | guarded hcondition => exact .guarded hcondition
  | branched hcondition _ ih => exact .branched hcondition (ih top m)
  | branch hstart _ ih => exact .branch hstart (ih false m)

/-- What is read under some options is what the words mean. -/
theorem means_of_parse {options : ParseOptions} {words : List String} {op : Operation}
    (h : parse ⟨registry, options⟩ words = .ok op) :
    ∃ read : Operation, Means registry (Token.normalize words) read ∧ op.SameCauses read := by
  rw [parse_eq_map_outline] at h
  obtain ⟨outline, houtline, rfl⟩ := map_eq_ok_iff.1 h
  have hplain : parse ⟨registry, .plain⟩ words = .ok (outline.wrapLevels .plain true 0).1 := by
    rw [parse_eq_map_outline, houtline]
    rfl
  obtain ⟨k, hreads⟩ := parse_eq_ok_iff.1 hplain
  exact ⟨_, ⟨_, rfl, fun top n => reads_plain hreads top n⟩, sameCauses_wrapLevels options .plain true true outline 0 0⟩

/-- Words that mean something can be read under any options. -/
theorem parse_of_means {words : List String} {op : Operation} (h : Means registry (Token.normalize words) op)
    (options : ParseOptions) : ∃ read : Operation, parse ⟨registry, options⟩ words = .ok read ∧ read.SameCauses op := by
  obtain ⟨plain, heval, hreads⟩ := h
  have hplain := parse_eq_ok_iff.2 ⟨0, hreads true 0⟩
  rw [parse_eq_map_outline] at hplain
  obtain ⟨outline, houtline, rfl⟩ := map_eq_ok_iff.1 hplain
  refine ⟨(outline.wrapLevels options true 0).1, ?_, fun dice => ?_⟩
  · rw [parse_eq_map_outline, houtline]
    rfl
  · rw [← heval]
    exact sameCauses_wrapLevels options .plain true true outline 0 0 dice

end Operation

end DiceTally
