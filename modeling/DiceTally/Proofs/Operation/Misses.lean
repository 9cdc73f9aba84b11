import DiceTally.Proofs.Memo
import DiceTally.Proofs.Operation.Frames
import DiceTally.Proofs.Operation.Sessions

/-!
# Requests without success

A cached level that has a result for an input gives it without being evaluated (`eq_of_visits_kept`).  One that has none
asks its cache without success, is evaluated, and its result is kept.  While it is evaluated its own cache is not used,
so every request without success leads to one new result (`settled_run`).  With a capacity no cache ever holds more, at
no moment of an evaluation (`bounded_of_visits`).
-/

namespace DiceTally

/-! ### Unbounded caches -/

namespace MemoCache

variable {c : MemoCache}

/-- An unbounded cache that holds one result for every request without success. -/
def Settled (c : MemoCache) : Prop := c.capacity = none ∧ c.misses = c.size

theorem settled_new : (new none).Settled := ⟨rfl, rfl⟩

theorem Settled.get {input output : Tuple} (h : c.Settled) (hfound : (c.get input).1 = some output) :
    (c.get input).2.Settled := by
  rw [fst_get] at hfound
  rw [snd_get, hfound]
  exact h

/-- The result that was missing is a new one. -/
theorem Settled.insert {input : Tuple} (h : c.Settled) (hmissed : (c.get input).1 = none) (output : Tuple) :
    ((c.get input).2.insert input output).Settled := by
  obtain ⟨hcapacity, hmisses⟩ := h
  rw [fst_get] at hmissed
  have hget : (c.get input).2 = { c with misses := c.misses + 1 } := by rw [snd_get, hmissed]; rfl
  have hnew : ¬c.entries.contains input = true := by
    rw [Std.TreeMap.contains_eq_isSome_getElem?, hmissed]
    simp
  have hinsert : (c.get input).2.insert input output =
      { c with misses := c.misses + 1, entries := c.entries.insert input output } := by
    rw [hget, MemoCache.insert, hcapacity]
  refine ⟨by rw [hinsert]; exact hcapacity, ?_⟩
  rw [hinsert]
  show c.misses + 1 = (c.entries.insert input output).size
  rw [Std.TreeMap.size_insert, if_neg hnew, hmisses]
  rfl

end MemoCache

/-- All caches are settled but those with the given numbers, the levels of which are being evaluated. -/
def Store.Settled (busy : List Nat) (s : Store) : Prop :=
  ∀ slot, slot ∉ busy → ∀ c, s.caches[slot]? = some c → c.Settled

namespace Cached

variable {α β : Type} {R : Store → Prop}

/-- An evaluation that has a result keeps a property of the store. -/
def Preserves (R : Store → Prop) (body : Cached α) : Prop := ∀ s a s', R s → body.run s = (.ok a, s') → R s'

theorem preserves_ofExcept (result : Except EvalError α) : (ofExcept result).Preserves R := by
  intro s a s' hs hrun
  cases hrun
  exact hs

theorem Preserves.bind {body : Cached α} {f : α → Cached β} (h : body.Preserves R) (hf : ∀ a, (f a).Preserves R) :
    (body >>= f).Preserves R := by
  intro s b s' hs hrun
  cases hfirst : body.run s with
  | mk result middle =>
    cases result with
    | error e =>
      rw [run_bind_error hfirst] at hrun
      cases hrun
    | ok a =>
      rw [run_bind_ok hfirst] at hrun
      exact hf a middle b s' (h s a middle hs hfirst) hrun

theorem preserves_mapM {f : α → Cached β} (h : ∀ a, (f a).Preserves R) (xs : List α) : (xs.mapM f).Preserves R := by
  induction xs with
  | nil => exact preserves_ofExcept (.ok [])
  | cons x xs ih =>
    rw [List.mapM_cons]
    exact (h x).bind fun y => ih.bind fun ys => preserves_ofExcept (.ok (y :: ys))

theorem Preserves.mapError {body : Cached Tuple} (h : body.Preserves R) (f : EvalError → EvalError) :
    (body.mapError f).Preserves R := by
  intro s a s' hs hrun
  obtain ⟨hresult, rfl⟩ := Prod.mk.inj hrun
  exact h s a _ hs (Prod.ext (mapError_eq_ok_iff.1 hresult) rfl)

end Cached

namespace Operation

variable {registry : Registry}

/-- A cached level answers from its cache, or is evaluated, its own cache being put aside, and fills it. -/
theorem preserves_memoized {slot : Nat} {inner : Operation} {busy : List Nat} {dice : Tuple}
    (hlinked : inner.Linked registry) (hslots : ∀ m ∈ inner.memos, m.1 ≠ slot)
    (hinner : (inner.run dice).Preserves (Store.Settled (slot :: busy))) :
    ((memoized slot inner).run dice).Preserves (Store.Settled busy) := by
  intro s result s' hs hrun
  cases hfound : (s.get slot dice).1 with
  | some output =>
    rw [Cached.run_memoized_of_some hfound] at hrun
    cases hrun
    intro other hother c hc
    rw [Store.caches_get] at hc
    obtain ⟨cache, hcache, rfl⟩ := Option.map_eq_some_iff.1 hc
    have hsettled := hs other hother cache hcache
    split
    · rename_i hslot
      subst hslot
      rw [Store.get_fst, hcache] at hfound
      exact hsettled.get hfound
    · exact hsettled
  | none =>
    rw [Cached.run_memoized_of_none hfound] at hrun
    cases hevaluated : (inner.run dice).run (s.get slot dice).2 with
    | mk evaluated after =>
      rw [hevaluated] at hrun
      cases evaluated with
      | error e => cases hrun
      | ok output =>
        cases hrun
        have hasked : (s.get slot dice).2.Settled (slot :: busy) := by
          intro other hother c hc
          have hne : slot ≠ other := (List.ne_of_not_mem_cons hother).symm
          rw [Store.caches_get] at hc
          obtain ⟨cache, hcache, rfl⟩ := Option.map_eq_some_iff.1 hc
          rw [if_neg hne]
          exact hs other (List.not_mem_of_not_mem_cons hother) cache hcache
        have hafter := hinner _ _ _ hasked hevaluated
        -- nobody has used the cache of the level meanwhile
        have hkept : after.caches[slot]? = (s.get slot dice).2.caches[slot]? := by
          have hframe := caches_run hlinked hslots dice (s.get slot dice).2
          rwa [hevaluated] at hframe
        intro other hother c hc
        rw [Store.caches_insert] at hc
        obtain ⟨cache, hcache, rfl⟩ := Option.map_eq_some_iff.1 hc
        by_cases hslot : slot = other
        · subst hslot
          rw [hkept, Store.caches_get] at hcache
          obtain ⟨asked, hasked, rfl⟩ := Option.map_eq_some_iff.1 hcache
          rw [Store.get_fst, hasked] at hfound
          rw [if_pos rfl, if_pos rfl]
          exact (hs slot hother asked hasked).insert hfound result
        · rw [if_neg hslot]
          exact hafter other (by simp [hother, Ne.symm hslot]) cache hcache

/-- After an evaluation with a result every cache that was settled is settled again. -/
theorem settled_run {op : Operation} (hlinked : op.Linked registry) (happart : op.Apart) {busy : List Nat}
    (hbusy : ∀ m ∈ op.memos, m.1 ∉ busy) (dice : Tuple) : (op.run dice).Preserves (Store.Settled busy) := by
  have apart_append {op₁ op₂ : Operation} (h : ((op₁.memos ++ op₂.memos).map Prod.fst).Nodup) :
      op₁.Apart ∧ op₂.Apart := by
    rw [List.map_append] at h
    exact ⟨h.of_append_left, h.of_append_right⟩
  induction op generalizing busy dice with
  | primitive step => exact Cached.preserves_ofExcept _
  | sliceApply size inner outer ihinner ihouter =>
    obtain ⟨hinner, houter⟩ := apart_append happart
    obtain ⟨hbusyInner, hbusyOuter⟩ := List.forall_mem_append.1 hbusy
    unfold run
    exact (Cached.preserves_mapM (ihinner hlinked.1 hinner hbusyInner) _).bind fun results =>
      ihouter hlinked.2 houter hbusyOuter _
  | conditional condition taken otherwise ihtaken ihotherwise =>
    obtain ⟨htaken, hotherwise⟩ := apart_append happart
    obtain ⟨hbusyTaken, hbusyOtherwise⟩ := List.forall_mem_append.1 hbusy
    unfold run
    exact (ihtaken hlinked.1 htaken hbusyTaken dice).bind fun t =>
      (ihotherwise hlinked.2 hotherwise hbusyOtherwise dice).bind fun f => Cached.preserves_ofExcept _
  | native name params function => exact Cached.preserves_ofExcept _
  | defined name params pipeline =>
    unfold run
    split
    -- the caches of the caller are put back as they were
    · refine Cached.Preserves.mapError (fun s a s' hs hrun => ?_) _
      obtain ⟨-, rfl⟩ := Prod.mk.inj hrun
      exact hs
    · exact Cached.preserves_ofExcept (.error _)
  | andThen first next ihfirst ihnext =>
    obtain ⟨hfirst, hnext⟩ := apart_append happart
    obtain ⟨hbusyFirst, hbusyNext⟩ := List.forall_mem_append.1 hbusy
    unfold run
    exact (ihfirst hlinked.1 hfirst hbusyFirst dice).bind fun middle => ihnext hlinked.2 hnext hbusyNext middle
  | validated inner ih => exact (ih hlinked happart hbusy dice).mapError _
  | memoized slot inner ih =>
    obtain ⟨hbusyInner, hbusySlot⟩ := List.forall_mem_append.1 hbusy
    rw [Apart, memos, List.map_append, List.nodup_append'] at happart
    obtain ⟨hinner, -, hdisjoint⟩ := happart
    have hslots : ∀ m ∈ inner.memos, m.1 ≠ slot := by
      rintro m hm rfl
      exact hdisjoint (List.mem_map_of_mem hm) (List.mem_singleton_self _)
    refine preserves_memoized hlinked hslots (ih hlinked hinner (fun m hm hmem => ?_) dice)
    rcases List.mem_cons.1 hmem with hslot | hmem
    · exact hslots m hm hslot
    · exact hbusyInner m hm hmem

/-- Caches may be cut off and new ones added. -/
theorem settled_handOver {op : Operation} {s : Store} (hs : s.Settled []) (kept : Nat) :
    (s.handOver op (s.caches.take kept)).Settled [] := by
  intro slot hslot c (hc : (s.caches.take kept ++ List.replicate _ (MemoCache.new none))[slot]? = some c)
  rw [List.getElem?_append] at hc
  split at hc
  · rw [List.getElem?_take] at hc
    split at hc
    · exact hs slot hslot c hc
    · cases hc
  · rw [(List.mem_replicate.1 (List.mem_of_getElem? hc)).2]
    exact MemoCache.settled_new

/-- A session in which every answer is a result leaves settled caches. -/
theorem settled_session {op : Operation} (hlinked : op.Linked registry) (happart : op.Apart) {steps : List Step}
    {results : List Tuple} {s : Store} (hs : s.Settled []) (hok : (op.session steps s).1 = results.map .ok) :
    (op.session steps s).2.Settled [] := by
  induction steps generalizing s results with
  | nil => exact hs
  | cons step steps ih =>
    cases step with
    | apply dice =>
      have hanswers : (op.session (.apply dice :: steps) s).1 =
          (op.apply dice s).1 :: (op.session steps (op.apply dice s).2).1 := rfl
      rw [hanswers] at hok
      cases results with
      | nil => cases hok
      | cons result results =>
        obtain ⟨hanswer, hrest⟩ := List.cons.inj hok
        have hnobody : ∀ m ∈ op.memos, m.1 ∉ [] := fun _ _ => List.not_mem_nil
        exact ih (settled_run hlinked happart hnobody dice s result _ hs (Prod.ext hanswer rfl)) hrest
    | handOver kept => exact ih (settled_handOver hs kept) hok

theorem settled_new (op : Operation) : (Store.new op none).Settled [] := by
  intro slot _ c (hc : (op.freshCaches none)[slot]? = some c)
  rw [(List.mem_replicate.1 (List.mem_of_getElem? hc)).2]
  exact MemoCache.settled_new

/-- The counts over settled caches. -/
theorem misses_eq_entries {s : Store} (hs : s.Settled []) :
    (∀ c ∈ s.caches, c.misses = c.size) ∧ s.stats.misses = s.stats.entries := by
  have hall : ∀ c ∈ s.caches, c.misses = c.size := by
    intro c hc
    obtain ⟨slot, hslot⟩ := List.getElem?_of_mem hc
    exact (hs slot List.not_mem_nil c hslot).2
  exact ⟨hall, congrArg sumOf (List.map_congr_left hall)⟩

end Operation

/-! ### Caches with a capacity -/

namespace MemoCache

/-- A cache with a capacity that keeps no more. -/
def HoldsAtMost (n : Nat) (c : MemoCache) : Prop := c.capacity = some n ∧ c.Fits

variable {n : Nat} {c : MemoCache}

theorem holdsAtMost_new (n : Nat) : (new (some n)).HoldsAtMost n := ⟨rfl, fits_new (some n)⟩

theorem HoldsAtMost.get (h : c.HoldsAtMost n) (input : Tuple) : (c.get input).2.HoldsAtMost n :=
  ⟨(c.capacity_get input).trans h.1, h.2.get input⟩

theorem HoldsAtMost.insert (h : c.HoldsAtMost n) (input output : Tuple) : (c.insert input output).HoldsAtMost n :=
  ⟨(c.counts_insert input output).2.2.trans h.1, h.2.insert input output⟩

theorem HoldsAtMost.size_le (h : c.HoldsAtMost n) : c.size ≤ n := h.2 n h.1

end MemoCache

/-- All caches, also those of named pipelines, have the capacity and keep no more. -/
structure Store.Bounded (n : Nat) (s : Store) : Prop where
  capacity_eq : s.capacity = some n
  own : ∀ (slot : Nat) (cache : MemoCache), s.caches[slot]? = some cache → cache.HoldsAtMost n
  named : ∀ name caches, s.definitions.lookup name = some caches → ∀ cache ∈ caches, cache.HoldsAtMost n

namespace Store

variable {n : Nat} {s : Store}

theorem bounded_new (op : Operation) (n : Nat) : (Store.new op (some n)).Bounded n where
  capacity_eq := rfl
  own slot cache hcache := by
    have hcache : (op.freshCaches (some n))[slot]? = some cache := hcache
    rw [(List.mem_replicate.1 (List.mem_of_getElem? hcache)).2]
    exact MemoCache.holdsAtMost_new n
  named name caches h := by cases h

theorem Bounded.get (h : s.Bounded n) (slot : Nat) (input : Tuple) : (s.get slot input).2.Bounded n := by
  have hown : ∀ (other : Nat) (cache : MemoCache),
      (s.get slot input).2.caches[other]? = some cache → cache.HoldsAtMost n := by
    intro other cache hcache
    rw [caches_get] at hcache
    obtain ⟨asked, hasked, rfl⟩ := Option.map_eq_some_iff.1 hcache
    split
    · exact (h.own other asked hasked).get input
    · exact h.own other asked hasked
  unfold Store.get at hown ⊢
  split at hown
  · exact h
  · exact ⟨h.capacity_eq, hown, h.named⟩

theorem Bounded.insert (h : s.Bounded n) (slot : Nat) (input output : Tuple) :
    (s.insert slot input output).Bounded n := by
  refine ⟨h.capacity_eq, fun other cache hcache => ?_, h.named⟩
  rw [caches_insert] at hcache
  obtain ⟨filled, hfilled, rfl⟩ := Option.map_eq_some_iff.1 hcache
  split
  · exact (h.own other filled hfilled).insert input output
  · exact h.own other filled hfilled

/-- The caches of a named pipeline take the place of those of the caller. -/
theorem Bounded.enter (h : s.Bounded n) (name : String) (pipeline : Operation) :
    Bounded n { s with caches := s.definitionCaches name pipeline } := by
  refine ⟨h.capacity_eq, fun slot cache hcache => ?_, h.named⟩
  have hmem : cache ∈ s.definitionCaches name pipeline := List.mem_of_getElem? hcache
  unfold definitionCaches at hmem
  cases hlookup : s.definitions.lookup name with
  | some caches =>
    rw [hlookup] at hmem
    exact h.named name caches hlookup cache hmem
  | none =>
    rw [hlookup, Option.getD_none, Operation.freshCaches, h.capacity_eq] at hmem
    rw [(List.mem_replicate.1 hmem).2]
    exact MemoCache.holdsAtMost_new n

/-- The caches of the caller are put back, and those of the named pipeline are kept under its name. -/
theorem Bounded.leave (h : s.Bounded n) {after : Store} (hafter : after.Bounded n) (name : String) :
    Bounded n { after with caches := s.caches, definitions := setCaches name after.caches after.definitions } := by
  refine ⟨hafter.capacity_eq, h.own, fun other caches hlookup cache hcache => ?_⟩
  have hlookup : (setCaches name after.caches after.definitions).lookup other = some caches := hlookup
  rw [lookup_setCaches] at hlookup
  split at hlookup
  · cases hlookup
    obtain ⟨slot, hslot⟩ := List.getElem?_of_mem hcache
    exact hafter.own slot cache hslot
  · exact hafter.named other caches hlookup cache hcache

end Store

namespace Operation

variable {registry : Registry} {n : Nat}

theorem bounded_call {pipeline : Operation} (h : ∀ dice, (pipeline.run dice).Leaves (Store.Bounded n)) (name : String)
    (dice : Tuple) : (withDefinition name pipeline (pipeline.run dice)).Leaves (Store.Bounded n) :=
  fun _ hs => hs.leave (h dice _ (hs.enter name pipeline)) name

/-- Evaluation keeps the capacity of all caches. -/
theorem bounded_run (hregistry : registry.Parsed) {op : Operation} (hop : op.Linked registry) (dice : Tuple) :
    (op.run dice).Leaves (Store.Bounded n) := by
  have hcaches (op : Operation) : ∀ m ∈ op.memos,
      (∀ s input, Store.Bounded n s → (s.get m.1 input).2.Bounded n) ∧
        ∀ s input output, Store.Bounded n s → (s.insert m.1 input output).Bounded n :=
    fun m _ => ⟨fun _ input hs => hs.get m.1 input, fun _ input output hs => hs.insert m.1 input output⟩
  refine leaves_run hop (hcaches op) (fun name pipeline hget => bounded_call (fun dice => ?_) name) dice
  -- a named pipeline calls no other one
  obtain ⟨options, words, hparse⟩ := hregistry name pipeline hget
  have hlinked : pipeline.Linked .empty := linked_of_parsed hparse
  exact leaves_run hlinked (hcaches pipeline) (fun _ _ h => by cases h) dice

/-- The stores that the evaluation of an operation on a tuple visits: at its start, inside of its parts and at
its end.  While a named pipeline is evaluated its caches are kept under its name. -/
inductive Visits : Operation → Tuple → Store → Store → Prop where
  | start (op : Operation) (dice : Tuple) (s : Store) : Visits op dice s s
  | finish (op : Operation) (dice : Tuple) (s : Store) : Visits op dice s ((op.run dice).run s).2
  | block {size : Nat} {inner outer : Operation} {dice block : Tuple} {before after results : List Tuple}
    {s middle moment : Store} (hblocks : blocks size dice = before ++ block :: after)
    (hbefore : (before.mapM fun block => inner.run block).run s = (.ok results, middle))
    (h : Visits inner block middle moment) : Visits (sliceApply size inner outer) dice s moment
  | outer {size : Nat} {inner outer : Operation} {dice : Tuple} {results : List Tuple} {s middle moment : Store}
    (hblocks : ((blocks size dice).mapM fun block => inner.run block).run s = (.ok results, middle))
    (h : Visits outer results.flatten middle moment) : Visits (sliceApply size inner outer) dice s moment
  | taken {condition : Condition} {taken otherwise : Operation} {dice : Tuple} {s moment : Store}
    (h : Visits taken dice s moment) : Visits (conditional condition taken otherwise) dice s moment
  | otherwise {condition : Condition} {taken otherwise : Operation} {dice result : Tuple} {s middle moment : Store}
    (htaken : (taken.run dice).run s = (.ok result, middle)) (h : Visits otherwise dice middle moment) :
    Visits (conditional condition taken otherwise) dice s moment
  | pipeline {name : String} {pipeline : Operation} {dice : Tuple} {s inside : Store}
    (h : Visits pipeline dice { s with caches := s.definitionCaches name pipeline } inside) :
    Visits (defined name [] pipeline) dice s
      { inside with caches := s.caches, definitions := setCaches name inside.caches inside.definitions }
  | first {first next : Operation} {dice : Tuple} {s moment : Store} (h : Visits first dice s moment) :
    Visits (andThen first next) dice s moment
  | next {first next : Operation} {dice result : Tuple} {s middle moment : Store}
    (hfirst : (first.run dice).run s = (.ok result, middle)) (h : Visits next result middle moment) :
    Visits (andThen first next) dice s moment
  | validated {inner : Operation} {dice : Tuple} {s moment : Store} (h : Visits inner dice s moment) :
    Visits (validated inner) dice s moment
  | asked (slot : Nat) (inner : Operation) (dice : Tuple) (s : Store) :
    Visits (memoized slot inner) dice s (s.get slot dice).2
  | evaluated {slot : Nat} {inner : Operation} {dice : Tuple} {s moment : Store}
    (hmissed : (s.get slot dice).1 = none) (h : Visits inner dice (s.get slot dice).2 moment) :
    Visits (memoized slot inner) dice s moment

/-- Where a result is kept the level is not evaluated: there is nothing between the request and the answer. -/
theorem eq_of_visits_kept {slot : Nat} {inner : Operation} {dice output : Tuple} {s moment : Store}
    (hkept : (s.get slot dice).1 = some output) (h : Visits (memoized slot inner) dice s moment) :
    moment = s ∨ moment = (s.get slot dice).2 := by
  cases h with
  | start => exact .inl rfl
  | finish => exact .inr (by rw [Cached.run_memoized_of_some hkept])
  | asked => exact .inr rfl
  | evaluated hmissed =>
    rw [hkept] at hmissed
    cases hmissed

/-- At every moment of an evaluation all caches keep to their capacity. -/
theorem bounded_of_visits (hregistry : registry.Parsed) {op : Operation} (hop : op.Linked registry) {dice : Tuple}
    {s moment : Store} (h : op.Visits dice s moment) (hs : s.Bounded n) : moment.Bounded n := by
  have hrun {op : Operation} (hop : op.Linked registry) {dice result : Tuple} {s middle : Store} (hs : s.Bounded n)
      (hrun : (op.run dice).run s = (.ok result, middle)) : middle.Bounded n := by
    have hafter := bounded_run hregistry hop dice s hs
    rwa [hrun] at hafter
  have hblocks {inner : Operation} (hinner : inner.Linked registry) {before results : List Tuple} {s middle : Store}
      (hs : s.Bounded n) (hbefore : (before.mapM fun block => inner.run block).run s = (.ok results, middle)) :
      middle.Bounded n := by
    have hafter := Cached.leaves_mapM (bounded_run hregistry hinner) before s hs
    rwa [hbefore] at hafter
  induction h with
  | start => exact hs
  | finish op dice s => exact bounded_run hregistry hop dice s hs
  | block _ hbefore _ ih => exact ih hop.1 (hblocks hop.1 hs hbefore)
  | outer hbefore _ ih => exact ih hop.2 (hblocks hop.1 hs hbefore)
  | taken _ ih => exact ih hop.1 hs
  | otherwise htaken _ ih => exact ih hop.2 (hrun hop.1 hs htaken)
  | @pipeline name pipeline dice s inside _ ih =>
    obtain ⟨options, words, hparse⟩ := hregistry name pipeline hop
    exact hs.leave (ih (linked_of_parsed hparse) (hs.enter name pipeline)) name
  | first _ ih => exact ih hop.1 hs
  | next hfirst _ ih => exact ih hop.2 (hrun hop.1 hs hfirst)
  | validated _ ih => exact ih hop hs
  | asked slot inner dice s => exact hs.get slot dice
  | @evaluated slot inner dice s moment _ _ ih => exact ih hop (hs.get slot dice)

/-- Evaluation neither adds nor removes caches of the operation. -/
theorem length_caches_run {op : Operation} (hop : op.Linked registry) (dice : Tuple) (s : Store) :
    ((op.run dice).run s).2.caches.length = s.caches.length := by
  have hkeeps : (op.run dice).Leaves fun after => after.caches.length = s.caches.length := by
    refine leaves_run hop (fun m _ => ⟨fun after input hafter => ?get, fun after input output hafter => ?insert⟩)
      (fun _ _ _ _ _ hafter => hafter) dice
    case get =>
      unfold Store.get
      split
      · exact hafter
      · exact List.length_set.trans hafter
    case insert => exact (List.length_modify _ _ _).trans hafter
  exact hkeeps s rfl

/-- A session in which all caches are handed over leaves caches that keep to their capacity. -/
theorem bounded_session (hregistry : registry.Parsed) {op : Operation} (hop : op.Linked registry) {steps : List Step}
    (hfull : ∀ kept, .handOver kept ∈ steps → op.memoSlots ≤ kept) {s : Store} (hs : s.Bounded n)
    (hlength : s.caches.length = op.memoSlots) : (op.session steps s).2.Bounded n := by
  induction steps generalizing s with
  | nil => exact hs
  | cons step steps ih =>
    have hfull' : ∀ kept, .handOver kept ∈ steps → op.memoSlots ≤ kept :=
      fun kept hkept => hfull kept (List.mem_cons_of_mem _ hkept)
    cases step with
    | apply dice =>
      exact ih hfull' (bounded_run hregistry hop dice s hs) ((length_caches_run hop dice s).trans hlength)
    | handOver kept =>
      have hkept : s.caches.length ≤ kept := by
        have := hfull kept List.mem_cons_self
        omega
      -- nothing is missing, so no cache is added
      have hsame : s.handOver op (s.caches.take kept) = s := by
        rw [List.take_of_length_le hkept, Store.handOver, hlength, Nat.sub_self]
        simp
      have hsession : op.session (.handOver kept :: steps) s = op.session steps s := by
        rw [session, hsame]
      rw [hsession]
      exact ih hfull' hs hlength

/-- In a session with unbounded caches in which every answer is a result, each cache holds one result for every request
without success, also after caches have been handed over.  With a capacity, and as long as all caches are handed over,
no cache ever holds more results, not even while an evaluation is going on; this includes the caches of named pipelines.
A level is evaluated only after a request without success: an input that is kept is answered from the cache, and
nothing happens but that the request is counted. -/
theorem computed_once {registry : Registry} (hregistry : registry.Built) {options : ParseOptions}
    {words : List String} {op : Operation} (h : parse ⟨registry, options⟩ words = .ok op) :
    (∀ (steps : List Step) (results : List Tuple), (op.session steps (.new op none)).1 = results.map .ok →
      (∀ c ∈ (op.session steps (.new op none)).2.caches, c.misses = c.size) ∧
        (op.session steps (.new op none)).2.stats.misses = (op.session steps (.new op none)).2.stats.entries) ∧
    (∀ (n : Nat) (steps : List Step), (∀ kept, .handOver kept ∈ steps → op.memoSlots ≤ kept) →
      ∀ dice moment, op.Visits dice (op.session steps (.new op (some n))).2 moment →
        (∀ c ∈ moment.caches, c.size ≤ n) ∧
          ∀ name caches, moment.definitions.lookup name = some caches → ∀ c ∈ caches, c.size ≤ n) ∧
    ∀ (slot : Nat) (inner : Operation) (dice output : Tuple) (s : Store), (s.get slot dice).1 = some output →
      ((memoized slot inner).run dice).run s = (.ok output, (s.get slot dice).2) ∧
        ∀ moment, Visits (memoized slot inner) dice s moment → moment = s ∨ moment = (s.get slot dice).2 := by
  have hlinked : op.Linked registry := (wellFormed_of_parse h).linked
  refine ⟨?_, ?_, fun slot inner dice output s hkept =>
    ⟨Cached.run_memoized_of_some hkept inner, fun moment => eq_of_visits_kept hkept⟩⟩
  · intro steps results hok
    exact misses_eq_entries (settled_session hlinked (apart_of_parse h) (settled_new op) hok)
  · intro n steps hfull dice moment hpasses
    have hlength : (Store.new op (some n)).caches.length = op.memoSlots := List.length_replicate
    have hsession := bounded_session hregistry.parsed hlinked hfull (Store.bounded_new op n) hlength
    have hmoment := bounded_of_visits hregistry.parsed hlinked hpasses hsession
    refine ⟨fun c hc => ?_, fun name caches hlookup c hc => (hmoment.named name caches hlookup c hc).size_le⟩
    obtain ⟨slot, hslot⟩ := List.getElem?_of_mem hc
    exact (hmoment.own slot c hslot).size_le

/-- The pipeline `slice-apply 2 sum low` with cached levels. -/
def lowestSum : Operation :=
  .sliceApply 2 (.memoized 0 (.primitive (.reduce .sum)))
    (.memoized 1 (.defined "low" [] (.andThen (.primitive .sort) (.memoized 0 (.primitive (.select [0]))))))

def lowestSumSteps : List Step := [.apply [3, 1, 3, 1, 2], .handOver 2, .apply [3, 1, 1, 0]]

/-- One block comes three times and is evaluated once; the other block and the two lists of sums are new. -/
theorem computed_once_lowestSum :
    parse ⟨sessionRegistry, ⟨false, true⟩⟩ ["slice-apply 2 sum low"] = .ok lowestSum ∧
      (lowestSum.session lowestSumSteps (.new lowestSum none)).1 = [[4], [1]].map .ok ∧
      (lowestSum.session lowestSumSteps (.new lowestSum none)).2.stats.misses =
        (lowestSum.session lowestSumSteps (.new lowestSum none)).2.stats.entries ∧
      (lowestSum.session lowestSumSteps (.new lowestSum none)).2.stats = ⟨2, 4, 4⟩ ∧
      lowestSum.memoSlots ≤ 2 ∧
      (∀ c ∈ (lowestSum.apply [3, 1, 1, 0]
          (lowestSum.session [.apply [3, 1, 3, 1, 2], .handOver 2] (.new lowestSum (some 1))).2).2.caches,
        c.size ≤ 1) ∧
      (((memoized 0 (primitive (.reduce .sum))).run [3, 1]).run
          (lowestSum.apply [3, 1, 3, 1, 2] (.new lowestSum none)).2).1 = .ok [4] := by
  have hparse : parse ⟨sessionRegistry, ⟨false, true⟩⟩ ["slice-apply 2 sum low"] = .ok lowestSum := by cbv
  have hresults : (lowestSum.session lowestSumSteps (.new lowestSum none)).1 = [[4], [1]].map .ok := by cbv
  have hcounts : (lowestSum.session lowestSumSteps (.new lowestSum none)).2.stats = ⟨2, 4, 4⟩ := by cbv
  have hkept : ((lowestSum.apply [3, 1, 3, 1, 2] (.new lowestSum none)).2.get 0 [3, 1]).1 = some [4] := by cbv
  have hfull : ∀ kept, Step.handOver kept ∈ [Step.apply [3, 1, 3, 1, 2], .handOver 2] → lowestSum.memoSlots ≤ kept := by
    intro kept hkept
    simp only [List.mem_cons, List.not_mem_nil, or_false, reduceCtorEq, false_or, Step.handOver.injEq] at hkept
    rw [hkept]
    decide
  obtain ⟨hunbounded, hbounded, hhit⟩ := computed_once built_sessionRegistry hparse
  exact ⟨hparse, hresults, (hunbounded _ _ hresults).2, hcounts, by decide, (hbounded 1 _ hfull _ _ (.finish ..)).1,
    congrArg Prod.fst (hhit 0 _ _ _ _ hkept).1⟩

end Operation

end DiceTally
