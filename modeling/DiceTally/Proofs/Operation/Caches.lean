import DiceTally.Operation.Cached
import DiceTally.Proofs.Memo
import DiceTally.Proofs.Operation.Wrapping
import DiceTally.Proofs.Pipeline.WellFormed
import DiceTally.Proofs.Registry
import Mathlib.Data.List.Nodup

/-!
# Caches keep what was computed

A cache is faithful to a function when all that it keeps are results of that function.  A store is sound for an
operation when every cached level of it, and of every named pipeline, has a faithful cache.  Evaluation with a sound
store gives the result of the evaluation without caches and leaves a sound store, also when it fails
(`agrees_run`).
-/

namespace DiceTally

/-! ### One cache -/

/-- All that a cache keeps are results of a function. -/
def MemoCache.Faithful (f : Tuple → Except EvalError Tuple) (c : MemoCache) : Prop :=
  ∀ input output, c.entries[input]? = some output → f input = .ok output

namespace MemoCache

variable {f : Tuple → Except EvalError Tuple} {c : MemoCache}

theorem faithful_new (f : Tuple → Except EvalError Tuple) (capacity : Option Nat) : (new capacity).Faithful f := by
  intro input output h
  simp [new] at h

theorem Faithful.get (h : c.Faithful f) (input : Tuple) : (c.get input).2.Faithful f := by
  intro x y hxy
  rw [entries_get] at hxy
  exact h x y hxy

theorem Faithful.of_get (h : c.Faithful f) {input output : Tuple} (hget : (c.get input).1 = some output) :
    f input = .ok output := by
  rw [fst_get] at hget
  exact h input output hget

/-- The only entry that is new is the one that is kept. -/
theorem Faithful.insert (h : c.Faithful f) {input output : Tuple} (hf : f input = .ok output) :
    (c.insert input output).Faithful f := by
  intro x y hxy
  rcases of_entries_insert hxy with ⟨rfl, rfl⟩ | hkept
  · exact hf
  · exact h x y hkept

end MemoCache

/-! ### All caches -/

namespace Operation

/-- Every cached level has a faithful cache, or none. -/
def Keeps (root : Operation) (caches : List MemoCache) : Prop :=
  ∀ m ∈ root.memos, ∀ c, caches[m.1]? = some c → c.Faithful m.2.eval

theorem keeps_of_all {root : Operation} {caches : List MemoCache}
    (h : ∀ c ∈ caches, ∀ f, c.Faithful f) : root.Keeps caches :=
  fun _ _ c hc => h c (List.mem_of_getElem? hc) _

theorem keeps_freshCaches (root : Operation) (capacity : Option Nat) : root.Keeps (root.freshCaches capacity) :=
  keeps_of_all fun c hc f => by rw [(List.mem_replicate.1 hc).2]; exact MemoCache.faithful_new f capacity

/-- Caches may be cut off and fresh ones added. -/
theorem Keeps.extend {root : Operation} {caches : List MemoCache} (h : root.Keeps caches) (kept missing : Nat)
    (capacity : Option Nat) :
    root.Keeps (caches.take kept ++ List.replicate missing (MemoCache.new capacity)) := by
  intro m hm c hc
  rw [List.getElem?_append] at hc
  split at hc
  · rw [List.getElem?_take] at hc
    split at hc
    · exact h m hm c hc
    · cases hc
  · rw [(List.mem_replicate.1 (List.mem_of_getElem? hc)).2]
    exact MemoCache.faithful_new _ capacity

end Operation

/-- A store for the evaluation of an operation, or of parts of it. -/
structure Store.Sound (registry : Registry) (root : Operation) (s : Store) : Prop where
  own : root.Keeps s.caches
  named : ∀ name pipeline, registry.get? name = some (.defined pipeline) →
    pipeline.Keeps (s.definitionCaches name pipeline)

namespace Store

/-- The caches of all named pipelines are faithful. -/
def NamesSound (registry : Registry) (s : Store) : Prop :=
  ∀ name pipeline, registry.get? name = some (.defined pipeline) →
    pipeline.Keeps (s.definitionCaches name pipeline)

variable {registry : Registry} {root : Operation} {s : Store}

theorem sound_new (registry : Registry) (root : Operation) (capacity : Option Nat) :
    (Store.new root capacity).Sound registry root :=
  ⟨Operation.keeps_freshCaches root capacity, fun _ pipeline _ => Operation.keeps_freshCaches pipeline capacity⟩

theorem Sound.handOver (h : s.Sound registry root) (kept : Nat) :
    (s.handOver root (s.caches.take kept)).Sound registry root :=
  ⟨h.own.extend kept _ none, h.named⟩

theorem caches_get (s : Store) (slot : Nat) (input : Tuple) (other : Nat) :
    (s.get slot input).2.caches[other]? =
      s.caches[other]?.map fun c => if slot = other then (c.get input).2 else c := by
  unfold get
  cases hcache : s.caches[slot]? with
  | none =>
    by_cases hother : slot = other
    · simp [← hother, hcache]
    · simp [hother]
  | some cache =>
    dsimp only
    rw [List.getElem?_set]
    by_cases hother : slot = other
    · subst hother
      obtain ⟨hlt, -⟩ := List.getElem?_eq_some_iff.1 hcache
      rw [if_pos rfl, if_pos hlt, hcache, Option.map_some, if_pos rfl]
    · simp [hother]

theorem caches_insert (s : Store) (slot : Nat) (input output : Tuple) (other : Nat) :
    (s.insert slot input output).caches[other]? =
      s.caches[other]?.map fun c => if slot = other then c.insert input output else c := by
  simp [insert, List.getElem?_modify]

/-- Caches that are missing are empty ones. -/
theorem caches_handOver (s : Store) {op : Operation} (caches : List MemoCache) {slot : Nat} (h : slot < op.memoSlots) :
    (s.handOver op caches).caches[slot]? = some (caches[slot]?.getD (MemoCache.new none)) := by
  unfold handOver
  dsimp only
  rw [List.getElem?_append]
  split
  · rename_i hlt
    simp [hlt]
  · rename_i hge
    have hlt : slot - caches.length < op.memoSlots - caches.length := by omega
    rw [List.getElem?_replicate_of_lt hlt, List.getElem?_eq_none (Nat.not_lt.1 hge)]
    rfl

theorem get_fst (s : Store) (slot : Nat) (input : Tuple) :
    (s.get slot input).1 = s.caches[slot]?.bind fun c => (c.get input).1 := by
  unfold get
  cases s.caches[slot]? <;> rfl

theorem NamesSound.get (h : s.NamesSound registry) (slot : Nat) (input : Tuple) :
    (s.get slot input).2.NamesSound registry := by
  unfold Store.get
  split <;> exact h

/-- Asking a cache only counts the request. -/
theorem Sound.get (h : s.Sound registry root) (slot : Nat) (input : Tuple) :
    (s.get slot input).2.Sound registry root := by
  refine ⟨fun m hm c hc => ?_, NamesSound.get h.named slot input⟩
  rw [caches_get] at hc
  obtain ⟨cache, hcache, rfl⟩ := Option.map_eq_some_iff.1 hc
  split
  · exact (h.own m hm cache hcache).get input
  · exact h.own m hm cache hcache

theorem Sound.of_get (h : s.Sound registry root) {slot : Nat} {inner : Operation} (hm : (slot, inner) ∈ root.memos)
    {input output : Tuple} (hget : (s.get slot input).1 = some output) : inner.eval input = .ok output := by
  rw [get_fst] at hget
  obtain ⟨cache, hcache, hget⟩ := Option.bind_eq_some_iff.1 hget
  exact (h.own _ hm cache hcache).of_get hget

/-- A result is kept for one level only, since no other level has the number. -/
theorem Sound.insert (h : s.Sound registry root) (happart : root.Apart) {slot : Nat} {inner : Operation}
    (hm : (slot, inner) ∈ root.memos) {input output : Tuple} (heval : inner.eval input = .ok output) :
    (s.insert slot input output).Sound registry root := by
  refine ⟨fun m hm' c hc => ?_, h.named⟩
  rw [caches_insert] at hc
  obtain ⟨cache, hcache, rfl⟩ := Option.map_eq_some_iff.1 hc
  split
  · rename_i hslot
    -- two levels with one number are the same level
    obtain rfl : m = (slot, inner) := List.inj_on_of_nodup_map happart hm' hm hslot.symm
    exact (h.own _ hm cache hcache).insert heval
  · exact h.own m hm' cache hcache

end Store

theorem lookup_setCaches (name other : String) (caches : List MemoCache) (named : List (String × List MemoCache)) :
    (setCaches name caches named).lookup other = if other = name then some caches else named.lookup other := by
  induction named with
  | nil => exact lookup_cons_eq_ite name other caches []
  | cons entry rest ih =>
    obtain ⟨n, c⟩ := entry
    unfold setCaches
    by_cases hn : n = name
    · subst hn
      rw [if_pos rfl, lookup_cons_eq_ite, lookup_cons_eq_ite]
      split <;> rfl
    · rw [if_neg hn, lookup_cons_eq_ite, lookup_cons_eq_ite, ih]
      by_cases hother : other = n
      · rw [if_pos hother, if_neg (hother ▸ hn), if_pos hother]
      · rw [if_neg hother, if_neg hother]

theorem Store.definitionCaches_setCaches (s : Store) (own caches : List MemoCache) (name other : String)
    (pipeline : Operation) :
    Store.definitionCaches { s with caches := own, definitions := setCaches name caches s.definitions } other pipeline =
      if other = name then caches else s.definitionCaches other pipeline := by
  unfold Store.definitionCaches
  rw [lookup_setCaches]
  split <;> rfl

/-! ### Evaluation with caches -/

/-- In every store with a property, an evaluation has the given result and leaves a store with the property. -/
def Cached.Agrees {α : Type} (P : Store → Prop) (body : Cached α) (result : Except EvalError α) : Prop :=
  ∀ s, P s → (body.run s).1 = result ∧ P (body.run s).2

namespace Cached

variable {P : Store → Prop}

theorem agrees_ofExcept {α : Type} (P : Store → Prop) (result : Except EvalError α) :
    (Cached.ofExcept result).Agrees P result := fun _ hs => ⟨rfl, hs⟩

theorem run_bind_ok {α β : Type} {body : Cached α} {s s' : Store} {a : α} (h : body.run s = (.ok a, s'))
    (f : α → Cached β) : (body >>= f).run s = (f a).run s' := by
  have hrun : (body >>= f).run s = ((ExceptT.bindCont f (body.run s).1).run (body.run s).2) := rfl
  rw [hrun, h]
  rfl

theorem run_bind_error {α β : Type} {body : Cached α} {s s' : Store} {e : EvalError}
    (h : body.run s = (.error e, s')) (f : α → Cached β) : (body >>= f).run s = (.error e, s') := by
  have hrun : (body >>= f).run s = ((ExceptT.bindCont f (body.run s).1).run (body.run s).2) := rfl
  rw [hrun, h]
  rfl

theorem Agrees.bind {α β : Type} {body : Cached α} {result : Except EvalError α} {f : α → Cached β}
    {g : α → Except EvalError β} (h : body.Agrees P result) (hf : ∀ a, (f a).Agrees P (g a)) :
    (body >>= f).Agrees P (result >>= g) := by
  intro s hs
  obtain ⟨hresult, hafter⟩ := h s hs
  cases result with
  | error e =>
    rw [run_bind_error (Prod.ext hresult rfl)]
    exact ⟨rfl, hafter⟩
  | ok a =>
    rw [run_bind_ok (Prod.ext hresult rfl)]
    exact hf a _ hafter

theorem agrees_mapM {α β : Type} {f : α → Cached β} {g : α → Except EvalError β}
    (h : ∀ a, (f a).Agrees P (g a)) (xs : List α) : (xs.mapM f).Agrees P (xs.mapM g) := by
  induction xs with
  | nil => exact agrees_ofExcept P (.ok [])
  | cons x xs ih =>
    rw [List.mapM_cons, List.mapM_cons]
    exact (h x).bind fun y => ih.bind fun ys => agrees_ofExcept P (.ok (y :: ys))

theorem Agrees.mapError {body : Cached Tuple} {result : Except EvalError Tuple} (h : body.Agrees P result)
    (f : EvalError → EvalError) : (body.mapError f).Agrees P (result.mapError f) :=
  fun s hs => ⟨congrArg (Except.mapError f) (h s hs).1, (h s hs).2⟩

/-- A named pipeline is evaluated on its own caches, and those of the caller are as before. -/
theorem run_withDefinition {registry : Registry} {name : String} {pipeline : Operation}
    (hget : registry.get? name = some (.defined pipeline)) {body : Cached Tuple} {result : Except EvalError Tuple}
    (h : body.Agrees (Store.Sound registry pipeline) result) {s : Store} (hs : s.NamesSound registry) :
    ((withDefinition name pipeline body).run s).1 = result ∧
      ((withDefinition name pipeline body).run s).2.caches = s.caches ∧
      ((withDefinition name pipeline body).run s).2.NamesSound registry := by
  obtain ⟨hresult, hafter⟩ := h { s with caches := s.definitionCaches name pipeline } ⟨hs _ _ hget, hs⟩
  refine ⟨hresult, rfl, fun other other' hother => ?_⟩
  have hcaches := Store.definitionCaches_setCaches
    (body.run { s with caches := s.definitionCaches name pipeline }).2 s.caches
    (body.run { s with caches := s.definitionCaches name pipeline }).2.caches name other other'
  refine (congrArg other'.Keeps hcaches).mpr ?_
  split
  · rename_i heq
    rw [heq, hget] at hother
    cases hother
    exact hafter.own
  · exact hafter.named other other' hother

theorem agrees_withDefinition {registry : Registry} {root : Operation} {name : String} {pipeline : Operation}
    (hget : registry.get? name = some (.defined pipeline)) {body : Cached Tuple} {result : Except EvalError Tuple}
    (h : body.Agrees (Store.Sound registry pipeline) result) :
    (withDefinition name pipeline body).Agrees (Store.Sound registry root) result := by
  intro s hs
  obtain ⟨hresult, hcaches, hnames⟩ := run_withDefinition hget h hs.named
  exact ⟨hresult, hcaches ▸ hs.own, hnames⟩

/-- A result that is kept. -/
theorem run_memoized_of_some {slot : Nat} {dice output : Tuple} {s : Store} (h : (s.get slot dice).1 = some output)
    (inner : Operation) : ((Operation.memoized slot inner).run dice).run s = (.ok output, (s.get slot dice).2) := by
  have hget : (modifyGet (fun s => s.get slot dice) : Cached (Option Tuple)).run s =
      (.ok (some output), (s.get slot dice).2) := congrArg (fun found => (Except.ok found, (s.get slot dice).2)) h
  rw [Operation.run, run_bind_ok hget]
  rfl

/-- Without a result that is kept the level is evaluated, and its result is kept. -/
theorem run_memoized_of_none {slot : Nat} {dice : Tuple} {s : Store} (h : (s.get slot dice).1 = none)
    (inner : Operation) :
    ((Operation.memoized slot inner).run dice).run s =
      match (inner.run dice).run (s.get slot dice).2 with
      | (.ok output, after) => (.ok output, after.insert slot dice output)
      | (.error e, after) => (.error e, after) := by
  have hget : (modifyGet (fun s => s.get slot dice) : Cached (Option Tuple)).run s =
      (.ok none, (s.get slot dice).2) := congrArg (fun found => (Except.ok found, (s.get slot dice).2)) h
  rw [Operation.run, run_bind_ok hget]
  dsimp only
  cases hrun : (inner.run dice).run (s.get slot dice).2 with
  | mk result after =>
    cases result with
    | error e => rw [run_bind_error hrun]
    | ok output =>
      rw [run_bind_ok hrun]
      rfl

/-- A cached level answers from its cache, or fills it. -/
theorem agrees_memoized {registry : Registry} {root : Operation} (happart : root.Apart) {slot : Nat}
    {inner : Operation} (hm : (slot, inner) ∈ root.memos) {dice : Tuple}
    (h : (inner.run dice).Agrees (Store.Sound registry root) (inner.eval dice)) :
    ((Operation.memoized slot inner).run dice).Agrees (Store.Sound registry root) (inner.eval dice) := by
  intro s hs
  have hsound := hs.get slot dice
  -- a found answer was computed before; otherwise the level is evaluated, and only a result is kept
  cases hfound : (s.get slot dice).1 with
  | some output =>
    rw [run_memoized_of_some hfound]
    exact ⟨(hs.of_get hm hfound).symm, hsound⟩
  | none =>
    rw [run_memoized_of_none hfound]
    obtain ⟨hresult, hafter⟩ := h _ hsound
    cases hrun : (inner.run dice).run (s.get slot dice).2 with
    | mk result after =>
      rw [hrun] at hresult hafter
      cases result with
      | error e => exact ⟨hresult, hafter⟩
      | ok output => exact ⟨hresult, hafter.insert happart hm hresult.symm⟩

end Cached

namespace Operation

/-- Named pipelines are called as they are registered. -/
def Linked (registry : Registry) : Operation → Prop
  | sliceApply _ inner outer => inner.Linked registry ∧ outer.Linked registry
  | conditional _ taken otherwise => taken.Linked registry ∧ otherwise.Linked registry
  | defined name _ pipeline => registry.get? name = some (.defined pipeline)
  | andThen first next => first.Linked registry ∧ next.Linked registry
  | validated inner => inner.Linked registry
  | memoized _ inner => inner.Linked registry
  | _ => True

theorem WellFormed.linked {registry : Registry} {tokens : List String} {op : Operation}
    (h : op.WellFormed registry tokens) : op.Linked registry := by
  induction op with
  | sliceApply size inner outer ihinner ihouter => exact ⟨ihinner h.2.2.1, ihouter h.2.2.2⟩
  | conditional condition taken otherwise ihtaken ihotherwise => exact ⟨ihtaken h.2.1, ihotherwise h.2.2⟩
  | defined name params pipeline => exact h.1
  | andThen first next ihfirst ihnext => exact ⟨ihfirst h.1, ihnext h.2⟩
  | validated inner ih => exact ih h
  | memoized slot inner ih => exact ih h
  | _ => trivial

/-- What is read with the built-in operations only calls no named operation. -/
theorem wellFormed_of_empty {tokens : List String} {op : Operation} (h : op.WellFormed .empty tokens)
    (registry : Registry) : op.WellFormed registry tokens := by
  induction op with
  | primitive step => exact h
  | sliceApply size inner outer ihinner ihouter => exact ⟨h.1, h.2.1, ihinner h.2.2.1, ihouter h.2.2.2⟩
  | conditional condition taken otherwise ihtaken ihotherwise => exact ⟨h.1, ihtaken h.2.1, ihotherwise h.2.2⟩
  | native name params function => cases h.1
  | defined name params pipeline => cases h.1
  | andThen first next ihfirst ihnext => exact ⟨ihfirst h.1, ihnext h.2⟩
  | validated inner ih => exact ih h
  | memoized slot inner ih => exact ih h

theorem linked_of_parsed {registry : Registry} {options : ParseOptions} {words : List String} {pipeline : Operation}
    (h : parse ⟨.empty, options⟩ words = .ok pipeline) : pipeline.Linked registry :=
  (wellFormed_of_empty (wellFormed_of_parse h) registry).linked

/-- Evaluation with caches gives what evaluation without them gives. -/
theorem agrees_run_of_linked {registry : Registry} (hregistry : registry.Parsed) {op root : Operation}
    (hop : op.Linked registry) (hmemos : op.memos ⊆ root.memos) (happart : root.Apart) (dice : Tuple) :
    (op.run dice).Agrees (Store.Sound registry root) (op.eval dice) := by
  -- `root` varies: a named pipeline is evaluated on its own caches, as its own root
  induction op generalizing root dice with
  | primitive step => exact Cached.agrees_ofExcept _ _
  | sliceApply size inner outer ihinner ihouter =>
    obtain ⟨hinner, houter⟩ := List.append_subset.1 hmemos
    unfold run eval
    exact (Cached.agrees_mapM (ihinner hop.1 hinner happart) _).bind fun results => ihouter hop.2 houter happart _
  | conditional condition taken otherwise ihtaken ihotherwise =>
    obtain ⟨htaken, hotherwise⟩ := List.append_subset.1 hmemos
    unfold run eval
    exact (ihtaken hop.1 htaken happart dice).bind fun t =>
      (ihotherwise hop.2 hotherwise happart dice).bind fun f => Cached.agrees_ofExcept _ _
  | native name params function => exact Cached.agrees_ofExcept _ _
  | defined name params pipeline ih =>
    unfold run eval
    split
    -- what is registered has been parsed, so the levels of the named pipeline are apart as well
    · obtain ⟨options, words, hparse⟩ := hregistry name pipeline hop
      have hrun := ih (linked_of_parsed hparse) (List.Subset.refl _) (apart_of_parse hparse) dice
      exact (Cached.agrees_withDefinition hop hrun).mapError _
    · exact Cached.agrees_ofExcept _ _
  | andThen first next ihfirst ihnext =>
    obtain ⟨hfirst, hnext⟩ := List.append_subset.1 hmemos
    unfold run eval
    exact (ihfirst hop.1 hfirst happart dice).bind fun middle => ihnext hop.2 hnext happart middle
  | validated inner ih => exact (ih hop hmemos happart dice).mapError _
  | memoized slot inner ih =>
    obtain ⟨hinner, hm⟩ := List.append_subset.1 hmemos
    exact Cached.agrees_memoized happart (hm (List.mem_singleton_self _)) (ih hop hinner happart dice)

theorem agrees_run {registry : Registry} (hregistry : registry.Built) {op root : Operation} {tokens : List String}
    (hop : op.WellFormed registry tokens) (hmemos : op.memos ⊆ root.memos) (happart : root.Apart) (dice : Tuple) :
    (op.run dice).Agrees (Store.Sound registry root) (op.eval dice) :=
  agrees_run_of_linked hregistry.parsed hop.linked hmemos happart dice

end Operation

end DiceTally
