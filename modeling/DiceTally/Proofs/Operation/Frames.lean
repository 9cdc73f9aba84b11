import DiceTally.Proofs.Operation.Caches

/-!
# What an evaluation leaves as it is

An evaluation asks and fills the caches of its operation, and those of the named pipelines that it calls.  What these
steps keep is kept by the whole evaluation (`leaves_run`).  So the caches of named pipelines stay faithful, whatever
the caches of the operation hold (`namesSound_run`), and caches with other numbers stay as they are (`caches_run`).
-/

namespace DiceTally

namespace Cached

variable {α β : Type} {R : Store → Prop}

/-- The evaluation keeps a property of the store, also when it fails. -/
def Leaves (R : Store → Prop) (body : Cached α) : Prop := ∀ s, R s → R (body.run s).2

theorem leaves_ofExcept (result : Except EvalError α) : (ofExcept result).Leaves R := fun _ hs => hs

theorem Leaves.bind {body : Cached α} {f : α → Cached β} (h : body.Leaves R) (hf : ∀ a, (f a).Leaves R) :
    (body >>= f).Leaves R := by
  intro s hs
  have hafter := h s hs
  cases hrun : body.run s with
  | mk result after =>
    rw [hrun] at hafter
    cases result with
    | error e =>
      rw [run_bind_error hrun]
      exact hafter
    | ok a =>
      rw [run_bind_ok hrun]
      exact hf a after hafter

theorem leaves_mapM {f : α → Cached β} (h : ∀ a, (f a).Leaves R) (xs : List α) : (xs.mapM f).Leaves R := by
  induction xs with
  | nil => exact leaves_ofExcept (.ok [])
  | cons x xs ih =>
    rw [List.mapM_cons]
    exact (h x).bind fun y => ih.bind fun ys => leaves_ofExcept (.ok (y :: ys))

end Cached

namespace Operation

variable {registry : Registry}

/-- A property of the store is kept by an evaluation if asking and filling the caches of the operation keep it, and
the calls of named pipelines do. -/
theorem leaves_run {R : Store → Prop} {op : Operation} (hop : op.Linked registry)
    (hcaches : ∀ m ∈ op.memos, (∀ s input, R s → R (s.get m.1 input).2) ∧
      ∀ s input output, R s → R (s.insert m.1 input output))
    (hcall : ∀ name pipeline, registry.get? name = some (.defined pipeline) →
      ∀ dice, (withDefinition name pipeline (pipeline.run dice)).Leaves R) (dice : Tuple) :
    (op.run dice).Leaves R := by
  induction op generalizing dice with
  | primitive step => exact Cached.leaves_ofExcept _
  | sliceApply size inner outer ihinner ihouter =>
    obtain ⟨hinner, houter⟩ := List.forall_mem_append.1 hcaches
    unfold run
    exact (Cached.leaves_mapM (ihinner hop.1 hinner) _).bind fun results => ihouter hop.2 houter _
  | conditional condition taken otherwise ihtaken ihotherwise =>
    obtain ⟨htaken, hotherwise⟩ := List.forall_mem_append.1 hcaches
    unfold run
    exact (ihtaken hop.1 htaken dice).bind fun t => (ihotherwise hop.2 hotherwise dice).bind fun f =>
      Cached.leaves_ofExcept _
  | native name params function => exact Cached.leaves_ofExcept _
  | defined name params pipeline =>
    unfold run
    split
    · exact hcall name pipeline hop dice
    · exact Cached.leaves_ofExcept _
  | andThen first next ihfirst ihnext =>
    obtain ⟨hfirst, hnext⟩ := List.forall_mem_append.1 hcaches
    unfold run
    exact (ihfirst hop.1 hfirst dice).bind fun middle => ihnext hop.2 hnext middle
  | validated inner ih => exact ih hop hcaches dice
  | memoized slot inner ih =>
    obtain ⟨hinner, hslot⟩ := List.forall_mem_append.1 hcaches
    obtain ⟨hget, hinsert⟩ := hslot (slot, inner) (List.mem_singleton_self _)
    intro s hs
    cases hfound : (s.get slot dice).1 with
    | some output =>
      rw [Cached.run_memoized_of_some hfound]
      exact hget s dice hs
    | none =>
      rw [Cached.run_memoized_of_none hfound]
      have hafter := ih hop hinner dice _ (hget s dice hs)
      cases hrun : (inner.run dice).run (s.get slot dice).2 with
      | mk result after =>
        rw [hrun] at hafter
        cases result with
        | error e => exact hafter
        | ok output => exact hinsert after dice output hafter

/-- A named pipeline answers from faithful caches as it does without caches, and leaves faithful caches. -/
theorem run_call (hregistry : registry.Parsed) {name : String} {pipeline : Operation}
    (hget : registry.get? name = some (.defined pipeline)) (dice : Tuple) {s : Store} (hs : s.NamesSound registry) :
    ((withDefinition name pipeline (pipeline.run dice)).run s).1 = pipeline.eval dice ∧
      ((withDefinition name pipeline (pipeline.run dice)).run s).2.caches = s.caches ∧
      ((withDefinition name pipeline (pipeline.run dice)).run s).2.NamesSound registry := by
  obtain ⟨options, words, hparse⟩ := hregistry name pipeline hget
  exact Cached.run_withDefinition hget
    (agrees_run_of_linked hregistry (linked_of_parsed hparse) (List.Subset.refl _) (apart_of_parse hparse) dice) hs

/-- The caches of named pipelines stay faithful, whatever the caches of the operation hold. -/
theorem namesSound_run (hregistry : registry.Parsed) {op : Operation} (hop : op.Linked registry) (dice : Tuple) :
    (op.run dice).Leaves (Store.NamesSound registry) :=
  leaves_run hop (fun m _ => ⟨fun _ input hs => hs.get m.1 input, fun _ _ _ hs => hs⟩)
    (fun _ _ hget dice _ hs => (run_call hregistry hget dice hs).2.2) dice

/-- Evaluation fills the caches of the operation only. -/
theorem caches_run {op : Operation} (hop : op.Linked registry) {slot : Nat} (hslot : ∀ m ∈ op.memos, m.1 ≠ slot)
    (dice : Tuple) (s : Store) : ((op.run dice).run s).2.caches[slot]? = s.caches[slot]? := by
  have hkeeps : (op.run dice).Leaves fun after => after.caches[slot]? = s.caches[slot]? := by
    -- a named pipeline has caches of its own
    refine leaves_run hop (fun m hm => ⟨fun after input hafter => ?get, fun after input output hafter => ?insert⟩)
      (fun _ _ _ _ _ hafter => hafter) dice
    case get =>
      rw [Store.caches_get]
      simp only [hslot m hm, if_false, Option.map_id']
      exact hafter
    case insert =>
      rw [Store.caches_insert]
      simp only [hslot m hm, if_false, Option.map_id']
      exact hafter
  exact hkeeps s rfl

end Operation

end DiceTally
