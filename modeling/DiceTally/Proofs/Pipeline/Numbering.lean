import DiceTally.Proofs.Operation.Wrapping
import DiceTally.Proofs.Pipeline.Derivation
import Mathlib

/-!
# Cached levels

The caches of a pipeline are numbered in the order in which its levels end, from `0` on and without a gap
(`numbers_of_parse`), and every level but the outermost one has a cache: what a sequence goes on with, what a guard
falls back to and what is applied to the results of blocks (`Layered`).
-/

namespace DiceTally

/-- What is read as a level inside a pipeline. -/
def Part.IsInner : Part → Prop
  | pipeline top _ => top = false
  | branch _ => True
  | _ => False

namespace Operation

/-! ### The number of caches -/

/-- Numbers without a gap are as many as there are caches. -/
theorem memoSlots_of_range {op : Operation} {n : Nat} (h : op.memos.map Prod.fst = List.range n) :
    op.memoSlots = n := by
  refine Nat.le_antisymm ((op.memoSlots_le_iff n).2 fun m hm => ?_) (Nat.le_of_not_lt fun hlt => ?_)
  · have hmem : m.1 ∈ op.memos.map Prod.fst := List.mem_map_of_mem hm
    rwa [h, List.mem_range] at hmem
  · have hmem : op.memoSlots ∈ op.memos.map Prod.fst := by rwa [h, List.mem_range]
    obtain ⟨m, hm, hnumber⟩ := List.mem_map.1 hmem
    have := op.lt_memoSlots m hm
    omega

/-- The caches of a pipeline are numbered without a gap, in the order in which the levels end. -/
theorem numbers_of_parse {language : Language} {words : List String} {op : Operation}
    (h : parse language words = .ok op) : op.memos.map Prod.fst = List.range op.memoSlots := by
  obtain ⟨registry, options⟩ := language
  rw [parse_eq_map_outline] at h
  obtain ⟨outline, -, rfl⟩ := map_eq_ok_iff.1 h
  obtain ⟨count, hmemos, -⟩ := slots_wrapLevels options true outline 0
  rw [← List.range_eq_range'] at hmemos
  rw [memoSlots_of_range hmemos, hmemos]

/-- Without caching no level has a cache. -/
theorem memos_wrapLevels_eq_nil {options : ParseOptions} (h : options.memoize = false) (top : Bool) (op : Operation)
    (slot : Nat) : (op.wrapLevels options top slot).1.memos = [] := by
  induction op generalizing top slot with
  | sliceApply size inner outer ihinner ihouter => exact List.append_eq_nil_iff.2 ⟨ihinner false _, ihouter false _⟩
  | conditional condition taken otherwise ihtaken ihotherwise =>
    exact List.append_eq_nil_iff.2 ⟨ihtaken false _, ihotherwise false _⟩
  | andThen first next ihfirst ihnext => exact List.append_eq_nil_iff.2 ⟨ihfirst false _, ihnext false _⟩
  | validated inner ih =>
    have hinner := ih false slot
    simp only [wrapLevels, wrapped, h, Bool.false_and, Bool.false_eq_true, if_false]
    split <;> exact hinner
  | memoized _ inner ih => exact ih false slot
  | _ => rfl

/-! ### Where the levels stand -/

/-- A level with a cache. -/
def IsCached (op : Operation) : Prop := ∃ slot inner, op = memoized slot inner

/-- A level whose failures are reported. -/
def IsValidated (op : Operation) : Prop := ∃ inner, op = validated inner

/-- All that is read as a level inside a pipeline has a cache: the next steps of a sequence, and the branches and the
outer operations that are not left out.  Where `validate` is set, there is a `validated` node under each cache. -/
def Layered (validate : Bool) : Operation → Prop
  | sliceApply _ inner outer =>
    (outer.IsCached ∨ outer = primitive .identity) ∧ inner.Layered validate ∧ outer.Layered validate
  | conditional _ taken otherwise =>
    (otherwise.IsCached ∨ otherwise = primitive .identity) ∧ taken.Layered validate ∧ otherwise.Layered validate
  | andThen first next => next.IsCached ∧ first.Layered validate ∧ next.Layered validate
  | validated inner => inner.Layered validate
  | memoized _ inner => (validate = true → inner.IsValidated) ∧ inner.Layered validate
  | _ => True

variable {language : Language}

theorem isCached_wrapped {options : ParseOptions} (h : options.memoize = true) {top : Bool} (htop : top = false)
    (op : Operation) (slot : Nat) : (wrapped options top op slot).1.IsCached := by
  simp [wrapped, h, htop, IsCached]

theorem layered_wrapped (options : ParseOptions) (top : Bool) {op : Operation} (h : op.Layered options.validate)
    (slot : Nat) : (wrapped options top op slot).1.Layered options.validate := by
  have hchecked : (if options.validate then validated op else op).Layered options.validate := by split <;> exact h
  unfold wrapped
  dsimp only
  split
  · refine ⟨fun hvalidate => ⟨op, ?_⟩, hchecked⟩
    rw [if_pos hvalidate]
  · exact hchecked

theorem layered_ofWords {name : String} {params : List String} {op : Operation} (h : ofWords name params = .ok op)
    (validate : Bool) : op.Layered validate := by
  rcases ofWords_cases h with ⟨step, rfl, -⟩ | ⟨size, step, rfl, -⟩
  · exact trivial
  · exact ⟨.inr rfl, trivial, trivial⟩

/-- What is read is layered, if the guarded operation is, and inside a pipeline each level has a cache. -/
theorem Reads.layered {part : Part} {n k : Nat} {op : Operation} (h : Reads language part n op k)
    (hmemoize : language.options.memoize = true)
    (hpart : ∀ op guard, part = .guarded op guard → op.Layered language.options.validate) :
    op.Layered language.options.validate ∧ (part.IsInner → op.IsCached) := by
  induction h with
  | @last top _ _ current _ k _ _ _ ih =>
    exact ⟨layered_wrapped _ top (ih nofun).1 k, fun htop => isCached_wrapped hmemoize htop current k⟩
  | @andThen top _ _ current next _ _ l _ _ _ _ ihcurrent ihnext =>
    obtain ⟨hnext, hinner⟩ := ihnext nofun
    have hboth : (Operation.andThen current next).Layered language.options.validate :=
      ⟨hinner rfl, (ihcurrent nofun).1, hnext⟩
    exact ⟨layered_wrapped _ top hboth l, fun htop => isCached_wrapped hmemoize htop _ l⟩
  | group _ _ ihinner ihop =>
    refine ⟨(ihop ?_).1, nofun⟩
    rintro op guard ⟨⟩
    exact (ihinner nofun).1
  | slicesLast _ _ _ _ _ ih => exact ⟨⟨.inr rfl, layered_wrapped _ false (ih nofun).1 _, trivial⟩, nofun⟩
  | slices _ _ _ _ _ _ ihinner ihouter =>
    obtain ⟨houter, hinner⟩ := ihouter nofun
    exact ⟨⟨.inl (hinner rfl), layered_wrapped _ false (ihinner nofun).1 _, houter⟩, nofun⟩
  | @registered _ _ _ callable => exact ⟨by cases callable <;> trivial, nofun⟩
  | reroll => exact ⟨trivial, nofun⟩
  | rerollIf => exact ⟨trivial, nofun⟩
  | builtIn _ _ hbuilt _ _ ih =>
    refine ⟨(ih ?_).1, nofun⟩
    rintro op guard ⟨⟩
    exact layered_ofWords hbuilt _
  | unguarded => exact ⟨hpart _ _ rfl, nofun⟩
  | guarded => exact ⟨⟨.inr rfl, hpart _ _ rfl, trivial⟩, nofun⟩
  | branched _ _ ih =>
    obtain ⟨hother, hinner⟩ := ih nofun
    exact ⟨⟨.inl (hinner trivial), hpart _ _ rfl, hother⟩, nofun⟩
  | branch _ _ ih => exact ⟨(ih nofun).1, fun _ => (ih nofun).2 rfl⟩

/-- How the caches of a pipeline are numbered and where its levels stand.  With caching the numbers of the caches, in
the order in which their levels end, are `0` to `n - 1` where `n` is the number of caches, and all levels inside the
pipeline have a cache; without it there is none. -/
theorem caches_of_parse {registry : Registry} {options : ParseOptions} {words : List String} {op : Operation}
    (h : parse ⟨registry, options⟩ words = .ok op) :
    (options.memoize = true →
        op.memos.map Prod.fst = List.range op.memoSlots ∧ op.Layered options.validate) ∧
      (options.memoize = false → op.memos = [] ∧ op.memoSlots = 0) := by
  have hnumbers := numbers_of_parse h
  constructor
  · intro hmemoize
    obtain ⟨k, hreads⟩ := parse_eq_ok_iff.1 h
    exact ⟨hnumbers, (hreads.layered hmemoize nofun).1⟩
  · intro hmemoize
    have hnone : op.memos = [] := by
      rw [parse_eq_map_outline] at h
      obtain ⟨outline, -, rfl⟩ := map_eq_ok_iff.1 h
      exact memos_wrapLevels_eq_nil hmemoize true outline 0
    rw [hnone] at hnumbers
    exact ⟨hnone, List.range_eq_nil.1 hnumbers.symm⟩

/-- Sorted or raised dice, then the largest sum of two. -/
def sortedOrRaised : Operation :=
  validated (andThen
    (conditional (.compare .gt [2]) (memoized 0 (validated (primitive .sort)))
      (memoized 1 (validated (primitive (.add [1])))))
    (memoized 4 (validated (sliceApply 2 (memoized 2 (validated (primitive (.reduce .sum))))
      (memoized 3 (validated (primitive (.reduce .max))))))))

theorem caches_of_parse_sortedOrRaised :
    parse ⟨.empty, ⟨true, true⟩⟩ ["[sort] if gt 2 else add 1 then slice-apply 2 sum max"] = .ok sortedOrRaised ∧
      sortedOrRaised.memos.map Prod.fst = List.range sortedOrRaised.memoSlots ∧ sortedOrRaised.Layered true := by
  have hparse : parse ⟨.empty, ⟨true, true⟩⟩ ["[sort] if gt 2 else add 1 then slice-apply 2 sum max"] =
      .ok sortedOrRaised := by cbv
  exact ⟨hparse, (caches_of_parse hparse).1 rfl⟩

end Operation

end DiceTally
