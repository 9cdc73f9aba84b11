import DiceTally.Definition
import DiceTally.Proofs.Operation.Frames
import DiceTally.Proofs.Operation.Sessions
import DiceTally.Proofs.Pipeline.Composition

/-!
# A named pipeline is what it stands for

In place of a call of a named pipeline an operation may have the pipeline itself (`Operation.inline`).  Its cached
levels then have caches of the operation, so their numbers are moved past those that are in use (`Operation.shift`).
Two evaluators, one of the operation with calls and one with the pipeline in their place, go in step: their common
caches hold the same (`InStep`), and a tuple has a result for one of them if it has this result for the other one,
whatever has become of the caches of the named pipeline in the meantime (`history_inline`).
-/

namespace DiceTally

namespace Operation

variable {registry : Registry}

/-! ### Pipelines in place of calls -/

/-- The operation with the numbers of its caches moved up. -/
def shift (k : Nat) : Operation → Operation
  | sliceApply size inner outer => sliceApply size (inner.shift k) (outer.shift k)
  | conditional condition taken otherwise => conditional condition (taken.shift k) (otherwise.shift k)
  | andThen first next => andThen (first.shift k) (next.shift k)
  | validated inner => validated (inner.shift k)
  | memoized slot inner => memoized (k + slot) (inner.shift k)
  | op => op

/-- The operation with `copy` in place of every call of a named pipeline without parameters. -/
def inline (name : String) : Operation → Operation → Operation
  | sliceApply size inner outer, copy => sliceApply size (inner.inline name copy) (outer.inline name copy)
  | conditional condition taken otherwise, copy =>
    conditional condition (taken.inline name copy) (otherwise.inline name copy)
  | defined called params pipeline, copy => if called = name ∧ params = [] then copy else defined called params pipeline
  | andThen first next, copy => andThen (first.inline name copy) (next.inline name copy)
  | validated inner, copy => validated (inner.inline name copy)
  | memoized slot inner, copy => memoized slot (inner.inline name copy)
  | op, _ => op

theorem memos_shift (k : Nat) (op : Operation) : (op.shift k).memos = op.memos.map fun m => (k + m.1, m.2.shift k) := by
  induction op with
  | sliceApply size inner outer ihinner ihouter => simp [shift, memos, ihinner, ihouter]
  | conditional condition taken otherwise ihtaken ihotherwise => simp [shift, memos, ihtaken, ihotherwise]
  | andThen first next ihfirst ihnext => simp [shift, memos, ihfirst, ihnext]
  | validated inner ih => simp [shift, memos, ih]
  | memoized slot inner ih => simp [shift, memos, ih]
  | _ => rfl

theorem Apart.shift {op : Operation} (h : op.Apart) (k : Nat) : (op.shift k).Apart := by
  have hnumbers : (op.shift k).memos.map Prod.fst = (op.memos.map Prod.fst).map (k + ·) := by
    rw [memos_shift, List.map_map, List.map_map]
    rfl
  rw [Apart, hnumbers]
  exact List.Nodup.map (fun a b hab => Nat.add_left_cancel hab) h

theorem Linked.shift {op : Operation} (h : op.Linked registry) (k : Nat) : (op.shift k).Linked registry := by
  induction op with
  | sliceApply size inner outer ihinner ihouter => exact ⟨ihinner h.1, ihouter h.2⟩
  | conditional condition taken otherwise ihtaken ihotherwise => exact ⟨ihtaken h.1, ihotherwise h.2⟩
  | andThen first next ihfirst ihnext => exact ⟨ihfirst h.1, ihnext h.2⟩
  | validated inner ih => exact ih h
  | memoized slot inner ih => exact ih h
  | _ => exact h

/-- What is called by a registered name is the pipeline that is registered. -/
theorem Linked.body_eq {name : String} {params : List Param} {body pipeline : Operation}
    (h : (defined name params body).Linked registry) (hget : registry.get? name = some (.defined pipeline)) :
    body = pipeline := by
  cases h.symm.trans hget
  rfl

/-- The numbers of caches change no result. -/
theorem sameResults_shift (k : Nat) (op : Operation) : op.SameResults (op.shift k) := by
  intro dice result
  induction op generalizing dice result with
  | sliceApply size inner outer ihinner ihouter =>
    simp only [shift, eval, bind_eq_ok_iff, mapM_eq_ok_iff, ihinner, ihouter]
  | conditional condition taken otherwise ihtaken ihotherwise =>
    simp only [shift, eval, bind_eq_ok_iff, ihtaken, ihotherwise]
  | andThen first next ihfirst ihnext => simp only [shift, eval, bind_eq_ok_iff, ihfirst, ihnext]
  | validated inner ih => simp only [shift, eval, mapError_eq_ok_iff, ih]
  | memoized slot inner ih => exact ih dice result
  | _ => rfl

/-- Without caches an operation has the same results with a pipeline in place of its calls. -/
theorem sameResults_inline {name : String} {pipeline copy : Operation}
    (hget : registry.get? name = some (.defined pipeline)) (hcopy : pipeline.SameResults copy) {op : Operation}
    (hop : op.Linked registry) : op.SameResults (op.inline name copy) := by
  intro dice result
  induction op generalizing dice result with
  | sliceApply size inner outer ihinner ihouter =>
    simp only [inline, eval, bind_eq_ok_iff, mapM_eq_ok_iff, ihinner hop.1, ihouter hop.2]
  | conditional condition taken otherwise ihtaken ihotherwise =>
    simp only [inline, eval, bind_eq_ok_iff, ihtaken hop.1, ihotherwise hop.2]
  | defined called params body =>
    unfold inline
    split
    · rename_i hcall
      obtain ⟨rfl, rfl⟩ := hcall
      obtain rfl := Linked.body_eq hop hget
      exact mapError_eq_ok_iff.trans (hcopy dice result)
    · rfl
  | andThen first next ihfirst ihnext => simp only [inline, eval, bind_eq_ok_iff, ihfirst hop.1, ihnext hop.2]
  | validated inner ih => simp only [inline, eval, mapError_eq_ok_iff, ih hop]
  | memoized slot inner ih => exact ih hop dice result
  | _ => rfl

theorem memoSlots_le_inline (name : String) (copy op : Operation) : op.memoSlots ≤ (op.inline name copy).memoSlots := by
  have both {a b a' b' : Nat} (ha : a ≤ a') (hb : b ≤ b') : Nat.max a b ≤ Nat.max a' b' :=
    Nat.max_le.2 ⟨Nat.le_trans ha (Nat.le_max_left ..), Nat.le_trans hb (Nat.le_max_right ..)⟩
  induction op with
  | sliceApply size inner outer ihinner ihouter => exact both ihinner ihouter
  | conditional condition taken otherwise ihtaken ihotherwise => exact both ihtaken ihotherwise
  | defined called params pipeline => exact Nat.zero_le _
  | andThen first next ihfirst ihnext => exact both ihfirst ihnext
  | validated inner ih => exact ih
  | memoized slot inner ih => exact both (Nat.le_refl _) ih
  | _ => exact Nat.le_refl _

end Operation

/-! ### Two evaluators in step -/

namespace Cached

variable {α β : Type} {R : Store → Store → Prop}

/-- From related stores both evaluations have the same result, or both fail, and they leave related stores. -/
def Simulates (R : Store → Store → Prop) (body body' : Cached α) : Prop :=
  ∀ s s', R s s' → (∀ a, (body.run s).1 = .ok a ↔ (body'.run s').1 = .ok a) ∧ R (body.run s).2 (body'.run s').2

theorem simulates_ofExcept (result : Except EvalError α) : (ofExcept result).Simulates R (ofExcept result) :=
  fun _ _ hs => ⟨fun _ => Iff.rfl, hs⟩

theorem Simulates.bind {body body' : Cached α} {f f' : α → Cached β} (h : body.Simulates R body')
    (hf : ∀ a, (f a).Simulates R (f' a)) : (body >>= f).Simulates R (body' >>= f') := by
  intro s s' hs
  obtain ⟨hresult, hafter⟩ := h s s' hs
  cases hrun : body.run s with
  | mk result after =>
    cases hrun' : body'.run s' with
    | mk result' after' =>
      rw [hrun, hrun'] at hresult hafter
      cases result with
      | error e =>
        obtain ⟨e', rfl⟩ : ∃ e', result' = .error e' := (exists_error_congr hresult).1 ⟨e, rfl⟩
        rw [run_bind_error hrun, run_bind_error hrun']
        exact ⟨by simp, hafter⟩
      | ok a =>
        obtain rfl : result' = .ok a := (hresult a).1 rfl
        rw [run_bind_ok hrun, run_bind_ok hrun']
        exact hf a after after' hafter

theorem simulates_mapM {f f' : α → Cached β} (h : ∀ a, (f a).Simulates R (f' a)) (xs : List α) :
    (xs.mapM f).Simulates R (xs.mapM f') := by
  induction xs with
  | nil => exact simulates_ofExcept (.ok [])
  | cons x xs ih =>
    rw [List.mapM_cons, List.mapM_cons]
    exact (h x).bind fun y => ih.bind fun ys => simulates_ofExcept (.ok (y :: ys))

theorem Simulates.mapError {body body' : Cached Tuple} (h : body.Simulates R body') (f f' : EvalError → EvalError) :
    (body.mapError f).Simulates R (body'.mapError f') := by
  intro s s' hs
  obtain ⟨hresult, hafter⟩ := h s s' hs
  exact ⟨fun a => mapError_eq_ok_iff.trans ((hresult a).trans mapError_eq_ok_iff.symm), hafter⟩

end Cached

theorem Operation.Keeps.congr {root : Operation} {caches caches' : List MemoCache} (h : root.Keeps caches)
    (heq : ∀ m ∈ root.memos, caches'[m.1]? = caches[m.1]?) : root.Keeps caches' :=
  fun m hm c hc => h m hm c ((heq m hm).symm.trans hc)

namespace Store

/-- The stores of an operation with calls and of the operation with `copy` in their place: the caches with numbers
below `k` are the same, and those of `copy` and of all named pipelines are faithful. -/
structure InStep (registry : Registry) (k : Nat) (copy : Operation) (s s' : Store) : Prop where
  caches : ∀ slot < k, s.caches[slot]? = s'.caches[slot]?
  names : s.NamesSound registry
  sound : s'.Sound registry copy

namespace InStep

variable {registry : Registry} {k : Nat} {copy : Operation} {s s' : Store} {slot : Nat}

theorem get_eq (h : InStep registry k copy s s') (hslot : slot < k) (input : Tuple) :
    (s.get slot input).1 = (s'.get slot input).1 := by
  rw [get_fst, get_fst, h.caches slot hslot]

theorem get (h : InStep registry k copy s s') (slot : Nat) (input : Tuple) :
    InStep registry k copy (s.get slot input).2 (s'.get slot input).2 where
  caches other hother := by rw [caches_get, caches_get, h.caches other hother]
  names := h.names.get slot input
  sound := h.sound.get slot input

theorem insert (h : InStep registry k copy s s') (hcopy : ∀ m ∈ copy.memos, k ≤ m.1) (hslot : slot < k)
    (input output : Tuple) : InStep registry k copy (s.insert slot input output) (s'.insert slot input output) where
  caches other hother := by rw [caches_insert, caches_insert, h.caches other hother]
  names := h.names
  sound := by
    refine ⟨h.sound.own.congr fun m hm => ?_, h.sound.named⟩
    have hne : slot ≠ m.1 := Nat.ne_of_lt (Nat.lt_of_lt_of_le hslot (hcopy m hm))
    simp [caches_insert, hne]

theorem handOver (h : InStep registry k copy s s') {op op' : Operation} (hop : k ≤ op.memoSlots)
    (hop' : k ≤ op'.memoSlots) (kept : Nat) :
    InStep registry k copy (s.handOver op (s.caches.take kept)) (s'.handOver op' (s'.caches.take kept)) where
  caches slot hslot := by
    rw [caches_handOver _ _ (Nat.lt_of_lt_of_le hslot hop), caches_handOver _ _ (Nat.lt_of_lt_of_le hslot hop'),
      List.getElem?_take, List.getElem?_take, h.caches slot hslot]
  names := h.names
  sound := ⟨h.sound.own.extend kept _ none, h.sound.named⟩

end InStep

end Store

namespace Operation

section

variable {registry : Registry} (hregistry : registry.Parsed) {name : String} {pipeline copy : Operation}
  (hget : registry.get? name = some (.defined pipeline)) (hresults : pipeline.SameResults copy)
  (hlinked : copy.Linked registry) (happart : copy.Apart) {k : Nat} (hcopy : ∀ m ∈ copy.memos, k ≤ m.1)

include hregistry hget hresults hlinked happart hcopy

/-- A call of the named pipeline, and the pipeline in its place. -/
theorem simulates_call (dice : Tuple) :
    (withDefinition name pipeline (pipeline.run dice)).Simulates (Store.InStep registry k copy) (copy.run dice) := by
  intro s s' hs
  obtain ⟨hresult, hcaches, hnames⟩ := run_call hregistry hget dice hs.names
  obtain ⟨hresult', hsound⟩ :=
    agrees_run_of_linked hregistry hlinked (List.Subset.refl _) happart dice s' hs.sound
  rw [hresult, hresult']
  refine ⟨hresults dice, ?_, hnames, hsound⟩
  intro slot hslot
  have hne : ∀ m ∈ copy.memos, m.1 ≠ slot := fun m hm => Nat.ne_of_gt (Nat.lt_of_lt_of_le hslot (hcopy m hm))
  rw [hcaches, caches_run hlinked hne dice]
  exact hs.caches slot hslot

omit hget hresults hlinked happart hcopy in
/-- A call of another named pipeline. -/
theorem simulates_other {other : String} {body : Operation} (hother : registry.get? other = some (.defined body))
    (dice : Tuple) :
    (withDefinition other body (body.run dice)).Simulates (Store.InStep registry k copy)
      (withDefinition other body (body.run dice)) := by
  intro s s' hs
  obtain ⟨hresult, hcaches, hnames⟩ := run_call hregistry hother dice hs.names
  obtain ⟨hresult', hcaches', hnames'⟩ := run_call hregistry hother dice hs.sound.named
  rw [hresult, hresult']
  refine ⟨fun _ => Iff.rfl, ?_, hnames, hcaches' ▸ hs.sound.own, hnames'⟩
  rw [hcaches, hcaches']
  exact hs.caches

/-- With the pipeline in place of its calls an operation goes in step with itself. -/
theorem simulates_inline {op : Operation} (hop : op.Linked registry) (hslots : ∀ m ∈ op.memos, m.1 < k)
    (dice : Tuple) :
    (op.run dice).Simulates (Store.InStep registry k copy) ((op.inline name copy).run dice) := by
  induction op generalizing dice with
  | primitive step => exact Cached.simulates_ofExcept _
  | sliceApply size inner outer ihinner ihouter =>
    obtain ⟨hinner, houter⟩ := List.forall_mem_append.1 hslots
    unfold inline run
    exact (Cached.simulates_mapM (ihinner hop.1 hinner) _).bind fun results => ihouter hop.2 houter _
  | conditional condition taken otherwise ihtaken ihotherwise =>
    obtain ⟨htaken, hotherwise⟩ := List.forall_mem_append.1 hslots
    unfold inline run
    exact (ihtaken hop.1 htaken dice).bind fun t => (ihotherwise hop.2 hotherwise dice).bind fun f =>
      Cached.simulates_ofExcept _
  | native name params function => exact Cached.simulates_ofExcept _
  | defined called params body =>
    unfold inline
    split
    · rename_i hcall
      obtain ⟨rfl, rfl⟩ := hcall
      obtain rfl := Linked.body_eq hop hget
      intro s s' hs
      obtain ⟨hresult, hafter⟩ := simulates_call hregistry hget hresults hlinked happart hcopy dice s s' hs
      exact ⟨fun result => mapError_eq_ok_iff.trans (hresult result), hafter⟩
    · unfold run
      split
      · exact (simulates_other hregistry hop dice).mapError _ _
      · exact Cached.simulates_ofExcept _
  | andThen first next ihfirst ihnext =>
    obtain ⟨hfirst, hnext⟩ := List.forall_mem_append.1 hslots
    unfold inline run
    exact (ihfirst hop.1 hfirst dice).bind fun middle => ihnext hop.2 hnext middle
  | validated inner ih => exact (ih hop hslots dice).mapError _ _
  | memoized slot inner ih =>
    obtain ⟨hinner, hslot⟩ := List.forall_mem_append.1 hslots
    have hslot : slot < k := hslot (slot, inner) (List.mem_singleton_self _)
    unfold inline
    intro s s' hs
    have hafter := hs.get slot dice
    -- both find the result, or both evaluate the level
    cases hfound : (s.get slot dice).1 with
    | some output =>
      rw [Cached.run_memoized_of_some hfound, Cached.run_memoized_of_some (hs.get_eq hslot dice ▸ hfound)]
      exact ⟨fun _ => Iff.rfl, hafter⟩
    | none =>
      rw [Cached.run_memoized_of_none hfound, Cached.run_memoized_of_none (hs.get_eq hslot dice ▸ hfound)]
      obtain ⟨hresult, hend⟩ := ih hop hinner dice _ _ hafter
      cases hrun : (inner.run dice).run (s.get slot dice).2 with
      | mk result after =>
        cases hrun' : ((inner.inline name copy).run dice).run (s'.get slot dice).2 with
        | mk result' after' =>
          rw [hrun, hrun'] at hresult hend
          cases result with
          | error e =>
            obtain ⟨e', rfl⟩ : ∃ e', result' = .error e' := (exists_error_congr hresult).1 ⟨e, rfl⟩
            exact ⟨by simp, hend⟩
          | ok output =>
            obtain rfl : result' = .ok output := (hresult output).1 rfl
            exact ⟨fun _ => Iff.rfl, hend.insert hcopy hslot dice output⟩

end

/-! ### Histories -/

/-- What happens to an evaluator and to the caches of the named pipelines that it calls. -/
inductive Event where
  | own (step : Step)
  /-- another evaluator that calls the same named pipelines is applied, with any caches of its own -/
  | elsewhere (other : Operation) (caches : List MemoCache) (dice : Tuple)

/-- All operations call named pipelines as they are registered. -/
def Event.Linked (registry : Registry) : Event → Prop
  | own _ => True
  | elsewhere other _ _ => other.Linked registry

/-- The answers of an evaluator to its own steps, and the store at the end. -/
def history (op : Operation) : List Event → Store → List (Except EvalError Tuple) × Store
  | [], s => ([], s)
  | .own (.apply dice) :: events, s =>
    let (answer, s) := op.apply dice s
    let (answers, s) := op.history events s
    (answer :: answers, s)
  | .own (.handOver kept) :: events, s => op.history events (s.handOver op (s.caches.take kept))
  | .elsewhere other caches dice :: events, s =>
    op.history events { (other.apply dice { s with caches := caches }).2 with caches := s.caches }

section

variable {registry : Registry} (hregistry : registry.Parsed) {name : String} {pipeline copy : Operation}
  (hget : registry.get? name = some (.defined pipeline)) (hresults : pipeline.SameResults copy)
  (hlinked : copy.Linked registry) (happart : copy.Apart) {k : Nat} (hcopy : ∀ m ∈ copy.memos, k ≤ m.1)
  {op : Operation} (hop : op.Linked registry) (hk : op.memoSlots = k)

include hregistry hget hresults hlinked happart hcopy hop hk

/-- In step at the beginning, two evaluators stay in step and have the same results. -/
theorem history_inStep {events : List Event} (hevents : ∀ event ∈ events, event.Linked registry) {s s' : Store}
    (hs : Store.InStep registry k copy s s') :
    List.Forall₂ (fun answer answer' => ∀ result, answer = .ok result ↔ answer' = .ok result)
        (op.history events s).1 ((op.inline name copy).history events s').1 ∧
      Store.InStep registry k copy (op.history events s).2 ((op.inline name copy).history events s').2 := by
  induction events generalizing s s' with
  | nil => exact ⟨.nil, hs⟩
  | cons event events ih =>
    obtain ⟨hevent, hrest⟩ := List.forall_mem_cons.1 hevents
    cases event with
    | own step =>
      cases step with
      | apply dice =>
        obtain ⟨hresult, hafter⟩ := simulates_inline hregistry hget hresults hlinked happart hcopy hop
          (fun m hm => hk ▸ lt_memoSlots op m hm) dice s s' hs
        obtain ⟨hanswers, hend⟩ := ih hrest hafter
        exact ⟨.cons hresult hanswers, hend⟩
      | handOver kept =>
        exact ih hrest (hs.handOver (Nat.le_of_eq hk.symm) (hk ▸ memoSlots_le_inline name copy op) kept)
    | elsewhere other caches dice =>
      have hnames := namesSound_run hregistry hevent dice { s with caches := caches } hs.names
      have hnames' := namesSound_run hregistry hevent dice { s' with caches := caches } hs.sound.named
      exact ih hrest ⟨hs.caches, hnames, hs.sound.own, hnames'⟩

end

theorem inStep_start (registry : Registry) (capacity named named' : Option Nat) (copy : Operation) {op op' : Operation}
    (h : op.memoSlots ≤ op'.memoSlots) :
    Store.InStep registry op.memoSlots copy ⟨op.freshCaches capacity, [], named⟩
      ⟨op'.freshCaches capacity, [], named'⟩ where
  caches slot hslot := by
    simp only [freshCaches]
    rw [List.getElem?_replicate_of_lt hslot, List.getElem?_replicate_of_lt (Nat.lt_of_lt_of_le hslot h)]
  names _ pipeline _ := keeps_freshCaches pipeline named
  sound := by
    refine ⟨keeps_of_all fun c hc f => ?_, fun _ pipeline _ => keeps_freshCaches pipeline named'⟩
    rw [(List.mem_replicate.1 hc).2]
    exact MemoCache.faithful_new f capacity

/-- A named pipeline is what it stands for.  The operation that has the pipeline in place of its calls has the same
results.  Used with caches it has them when the pipeline that comes in has its caches numbered anew, behind those of
the operation (`shift`), also when other evaluators call the pipeline in between; numbered as they are, two levels
could share a cache and the results differ, as the example below shows.  A call fails with the name and the message of
the failure of the pipeline.  A call with parameters fails and leaves all caches as they are. -/
theorem history_inline {registry : Registry} (hregistry : registry.Parsed) {d : Definition} {options : ParseOptions}
    {pipeline : Operation} (hparse : d.parse options = .ok pipeline)
    (hget : registry.get? d.name = some (.defined pipeline)) {op : Operation} (hop : op.Linked registry)
    (capacity named named' : Option Nat) {events : List Event} (hevents : ∀ event ∈ events, event.Linked registry) :
    (∀ dice result, op.eval dice = .ok result ↔ (op.inline d.name pipeline).eval dice = .ok result) ∧
    List.Forall₂ (fun answer answer' => ∀ result, answer = .ok result ↔ answer' = .ok result)
      (op.history events ⟨op.freshCaches capacity, [], named⟩).1
      ((op.inline d.name (pipeline.shift op.memoSlots)).history events
        ⟨(op.inline d.name (pipeline.shift op.memoSlots)).freshCaches capacity, [], named'⟩).1 ∧
    (∀ dice fresh earlier,
      ((defined d.name [] pipeline).apply dice (op.history events ⟨op.freshCaches capacity, [], named⟩).2).1 =
        (pipeline.answer fresh earlier dice).mapError fun e => .custom d.name e.message) ∧
    ∀ params, params ≠ [] → ∀ dice s,
      (defined d.name params pipeline).apply dice s =
        (.error (.custom d.name (parametersRefused d.name params.length)), s) := by
  have hwords : parse ⟨.empty, options⟩ [d.pipeline] = .ok pipeline := mapError_eq_ok_iff.1 hparse
  have hcopy : ∀ m ∈ (pipeline.shift op.memoSlots).memos, op.memoSlots ≤ m.1 := by
    rw [memos_shift]
    rintro _ hm
    obtain ⟨m, -, rfl⟩ := List.mem_map.1 hm
    exact Nat.le_add_right ..
  have hstart := inStep_start registry capacity named named' (pipeline.shift op.memoSlots)
    (memoSlots_le_inline d.name (pipeline.shift op.memoSlots) op)
  obtain ⟨hanswers, hend⟩ := history_inStep hregistry hget (sameResults_shift op.memoSlots pipeline)
    ((linked_of_parsed hwords).shift _) ((apart_of_parse hwords).shift _) hcopy hop rfl hevents hstart
  refine ⟨sameResults_inline hget (fun _ _ => Iff.rfl) hop, hanswers, fun dice fresh earlier => ?_, ?_⟩
  · rw [answer_eq .empty hwords]
    exact congrArg (Except.mapError _) (run_call hregistry hget dice hend.names).1
  · intro params hparams dice s
    obtain ⟨param, params, rfl⟩ := List.exists_cons_of_ne_nil hparams
    rfl

/-- The definition of `low`. -/
def lowDefinition : Definition := ⟨"low", "operations.toml", "sort select 0", none⟩

def lowPipeline : Operation := .andThen (.primitive .sort) (.memoized 0 (.primitive (.select [0])))

/-- A cached level with the number that the pipeline uses as well, before a call. -/
def addThenLow : Operation := .andThen (.memoized 0 (.primitive (.add [1]))) (.defined "low" [] lowPipeline)

/-- The pipeline is called in between, once with a parameter and once with a tuple without dice. -/
def lowEvents : List Event :=
  [.own (.apply [3, 1]), .elsewhere (.defined "low" [.int 1] lowPipeline) [] [5],
    .elsewhere (.defined "low" [] lowPipeline) [] [], .own (.apply [2, 4]), .own (.handOver 0), .own (.apply [3, 1])]

theorem history_inline_low :
    (∀ dice result, addThenLow.eval dice = .ok result ↔ (addThenLow.inline "low" lowPipeline).eval dice = .ok result) ∧
    List.Forall₂ (fun answer answer' => ∀ result, answer = .ok result ↔ answer' = .ok result)
      (addThenLow.history lowEvents ⟨addThenLow.freshCaches (some 2), [], some 1⟩).1
      ((addThenLow.inline "low" (lowPipeline.shift addThenLow.memoSlots)).history lowEvents
        ⟨(addThenLow.inline "low" (lowPipeline.shift addThenLow.memoSlots)).freshCaches (some 2), [], none⟩).1 ∧
    (∀ dice fresh earlier,
      ((defined "low" [] lowPipeline).apply dice
          (addThenLow.history lowEvents ⟨addThenLow.freshCaches (some 2), [], some 1⟩).2).1 =
        (lowPipeline.answer fresh earlier dice).mapError fun e => .custom "low" e.message) ∧
    ∀ params, params ≠ [] → ∀ dice s,
      (defined "low" params lowPipeline).apply dice s =
        (.error (.custom "low" (parametersRefused "low" params.length)), s) := by
  have hparse : lowDefinition.parse ⟨false, true⟩ = .ok lowPipeline := by cbv
  have hget : sessionRegistry.get? "low" = some (.defined lowPipeline) := rfl
  have hop : addThenLow.Linked sessionRegistry := ⟨trivial, hget⟩
  have hevents : ∀ event ∈ lowEvents, event.Linked sessionRegistry := by
    simp [lowEvents, Event.Linked, Linked, hget]
  exact history_inline built_sessionRegistry.parsed (d := lowDefinition) hparse hget hop (some 2) (some 1) none hevents

/-- With the numbers as they are the pipeline would share a cache with the operation, and answer from it. -/
example : (addThenLow.history [.own (.apply [3, 1]), .own (.apply [2, 4])] (.new addThenLow none)).1 =
      [.ok [2], .ok [3]] ∧
    ((addThenLow.inline "low" lowPipeline).history [.own (.apply [3, 1]), .own (.apply [2, 4])]
      (.new addThenLow none)).1 = [.ok [2], .ok [2]] := by
  constructor <;> cbv

end Operation

end DiceTally

