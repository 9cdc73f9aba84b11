import DiceTally.Proofs.Counting
import DiceTally.Proofs.Document
import DiceTally.Proofs.Pipeline.Grouping

/-!
# Saved runs are recombined as one joint run

Pipelines are applied to all rolls of their pools, the distributions are saved, read back and combined, and a last
pipeline is applied to the combinations.  This counts the joint rolls of all pools by the result of the last pipeline
on the results of the first ones (`combine_saved`): saving merges equal results, but their weights are kept.
-/

namespace DiceTally

/-- A pool and the pipeline that is applied to its rolls. -/
structure Run where
  pool : Pool
  program : Program

/-- The distribution of a run. -/
def Run.tally (run : Run) : Except EvalError Distribution :=
  run.program.tally (.enumerate run.pool)

/-- The results of all rolls with their weights. -/
def Run.results (run : Run) : List (Tuple × Nat) :=
  run.program.op.results run.pool.weighted

/-! ### Joint rolls -/

/-- All joint choices of one roll for each run. -/
def jointRolls (runs : List Run) : List (List (Run × List Face)) :=
  choices (runs.map fun run => run.pool.rolls.map fun roll => (run, roll))

/-- The product of the weights of the rolls. -/
def jointCount (joint : List (Run × List Face)) : Nat :=
  (joint.map fun (_, roll) => rollCount roll).prod

/-- The result of a pipeline on the results of the rolls, one after the other. -/
def Program.jointResult (last : Program) (joint : List (Run × List Face)) : Except EvalError Tuple := do
  let parts ← joint.mapM fun (run, roll) => run.program.op.eval (rollTuple roll)
  last.op.eval parts.flatten

/-- The weight of all joint rolls with a given result. -/
def Program.jointWeight (last : Program) (runs : List Run) (key : Tuple) : Nat :=
  (((jointRolls runs).filter fun joint => (last.jointResult joint).toOption == some key).map jointCount).sum

/-- A tally fails if a pipeline fails on the results of some joint roll; otherwise the results on the joint rolls are
its keys, each with exactly the weight of the joint rolls that it comes from. -/
structure CountsJointRolls (runs : List Run) (last : Program) (tallied : Except EvalError Distribution) : Prop where
  fails_iff : (∃ e, tallied = .error e) ↔ ∃ joint ∈ jointRolls runs, ∃ e, last.jointResult joint = .error e
  keys : ∀ d, tallied = .ok d → ∀ key,
    (d.get? key).isSome = true ↔ ∃ joint ∈ jointRolls runs, last.jointResult joint = .ok key
  weights : ∀ d, tallied = .ok d → ∀ key weight, d.get? key = some weight →
    Decimal.ofInt? (last.jointWeight runs key) = some weight

/-- Two tallies both fail, or have the same entries. -/
def SameTally : Except EvalError Distribution → Except EvalError Distribution → Prop
  | .ok d, .ok d' => d.entries = d'.entries
  | .error _, .error _ => True
  | _, _ => False

/-- Pipelines that fail together, and otherwise have the same results up to their order, have the same tally. -/
theorem sameTally_of_tallies {p p' : Program} {xs xs' : List (Tuple × Nat)}
    {tallied tallied' : Except EvalError Distribution} (h : p.Tallies xs tallied) (h' : p'.Tallies xs' tallied')
    (hfails : (∃ x ∈ xs, ∃ e, p.op.eval x.1 = .error e) ↔ ∃ x ∈ xs', ∃ e, p'.op.eval x.1 = .error e)
    (hresults : (∀ x ∈ xs, p.op.eval x.1 = .ok (p.op.value x.1)) →
      (∀ x ∈ xs', p'.op.eval x.1 = .ok (p'.op.value x.1)) → (p.op.results xs).Perm (p'.op.results xs')) :
    SameTally tallied tallied' := by
  -- in the mixed cases one of the pipelines would fail on an outcome and the other one would not
  rcases h with ⟨hfail, e, rfl⟩ | ⟨hok, d, rfl, hcounts⟩
  · rcases h' with ⟨-, e', rfl⟩ | ⟨hok', -⟩
    · trivial
    · obtain ⟨x, hx, e', he'⟩ := hfails.1 hfail
      rw [hok' x hx] at he'
      cases he'
  · rcases h' with ⟨hfail', -⟩ | ⟨hok', d', rfl, hcounts'⟩
    · obtain ⟨x, hx, e, he⟩ := hfails.2 hfail'
      rw [hok x hx] at he
      cases he
    · have hsame := hcounts.congr (.of_perm (hresults hok hok'))
      exact Distribution.entries_ext fun k => (hsame k).trans (hcounts' k).symm

/-- The sum of all weights, out of range or not. -/
def Distribution.exactTotal (d : Distribution) : Nat :=
  (d.entries.map fun entry => entry.2.toInt.toNat).sum

theorem Distribution.NaturalCounts.exactTotal_eq {d : Distribution} (h : d.NaturalCounts) :
    d.exactTotal = totalWeight d.weights := by
  rw [exactTotal, totalWeight, weights, List.map_map]
  refine congrArg List.sum (List.map_congr_left fun entry hentry => ?_)
  rw [(h entry hentry).isNat.toInt_eq]
  rfl

/-! ### One run -/

/-- A run over a pool with whole weights has succeeded, and every weight of its distribution fits in 64 bits. -/
structure Run.Saves (run : Run) (d : Distribution) : Prop where
  whole : run.pool.WholeWeights
  tally_eq : run.tally = .ok d
  range : ∀ entry ∈ d.entries, entry.2.toInt < bound64

namespace Run.Saves

variable {run : Run} {d : Distribution} (h : run.Saves d)

include h

theorem counts :
    (∀ x ∈ run.pool.weighted, run.program.op.eval x.1 = .ok (run.program.op.value x.1)) ∧ d.Counts run.results := by
  rcases run.program.tally_cases h.whole.all_enumerate with ⟨-, e, herror⟩ | ⟨hok, d', hd', hcounts⟩
  · cases herror.symm.trans h.tally_eq
  · cases hd'.symm.trans h.tally_eq
    exact ⟨hok, hcounts⟩

/-- A weight that was brought into range would be too large to be stored exactly. -/
theorem weightAt_lt (key : Tuple) : weightAt run.results key < mantissaBound := by
  by_cases hkey : key ∈ run.results.map Prod.fst
  · have hget := h.counts.2 key
    rw [if_pos hkey] at hget
    have hlt := h.range _ (Distribution.mem_entries.2 hget)
    rw [Decimal.toInt_of_scale (Decimal.scale_ofNat _), Decimal.signed_ofNat, Decimal.mantissa_ofNat] at hlt
    have hbound : bound64 < mantissaBound - 1 := by decide
    omega
  · rw [weightAt_eq_zero hkey]
    decide

/-- What a run has saved is read back. -/
theorem exists_loaded : ∃ loaded, Document.ofText (Document.toText d) = .ok loaded ∧ loaded.Counts run.results := by
  have hstorable : ∀ entry ∈ d.entries, Document.Storable entry.2 := by
    intro entry hentry
    have hweight := (h.counts.2.of_mem_entries hentry).2
    refine ⟨?_, ?_, h.range entry hentry⟩
    · rw [hweight]
      exact Decimal.isWhole_ofNat _
    · rw [hweight, Decimal.toInt_of_scale (Decimal.scale_ofNat _), Decimal.signed_ofNat]
      exact Int.natCast_nonneg _
  obtain ⟨loaded, hload, hget⟩ := Document.ofText_toText hstorable
  refine ⟨loaded, hload, fun key => ?_⟩
  rw [hget, h.counts.2 key]
  split
  · simp [Decimal.toInt_ofNat (h.weightAt_lt key)]
  · rfl

theorem exactTotal_eq : d.exactTotal = totalWeight run.results :=
  h.counts.2.naturalCounts.exactTotal_eq.trans (totalWeight_congr (h.counts.2.merges h.weightAt_lt).weightAt_eq)

end Run.Saves

/-! ### Joint runs -/

/-- The results of the rolls of a joint roll, one after the other, where they have results. -/
def jointTuple (joint : List (Run × List Face)) : Tuple :=
  (joint.map fun (run, roll) => run.program.op.value (rollTuple roll)).flatten

/-- Joint rolls are the joint results of the runs. -/
theorem joined_results (runs : List Run) :
    joined (runs.map Run.results) = (jointRolls runs).map fun joint => (jointTuple joint, jointCount joint) := by
  let outcome (c : Run × List Face) : Tuple × Nat := (c.1.program.op.value (rollTuple c.2), rollCount c.2)
  have hlists : runs.map Run.results =
      (runs.map fun run => run.pool.rolls.map fun roll => (run, roll)).map (List.map outcome) := by
    rw [List.map_map]
    refine List.map_congr_left fun run _ => ?_
    simp [Run.results, Operation.results, Pool.weighted, outcome, Function.comp_def]
  rw [joined, hlists, choices_map, List.map_map, jointRolls]
  refine List.map_congr_left fun joint _ => ?_
  simp [jointTuple, jointCount, outcome, Function.comp_def]

theorem jointResult_eq {runs : List Run}
    (hok : ∀ run ∈ runs, ∀ x ∈ run.pool.weighted, run.program.op.eval x.1 = .ok (run.program.op.value x.1))
    (last : Program) {joint : List (Run × List Face)} (hjoint : joint ∈ jointRolls runs) :
    last.jointResult joint = last.op.eval (jointTuple joint) := by
  have hparts : joint.mapM (fun (run, roll) => run.program.op.eval (rollTuple roll)) =
      .ok (joint.map fun (run, roll) => run.program.op.value (rollTuple roll)) := by
    rw [mapM_eq_ok_iff, List.forall₂_map_right_iff, List.forall₂_same]
    intro c hc
    obtain ⟨rolls, hrolls, hmem⟩ := exists_mem_of_mem_choices hjoint hc
    obtain ⟨run, hrun, rfl⟩ := List.mem_map.1 hrolls
    obtain ⟨roll, hroll, rfl⟩ := List.mem_map.1 hmem
    exact hok run hrun _ (List.mem_map.2 ⟨roll, hroll, rfl⟩)
  rw [Program.jointResult, hparts]
  rfl

/-- The weight of a result over all joint rolls. -/
theorem jointWeight_eq {runs : List Run} {last : Program}
    (hresult : ∀ joint ∈ jointRolls runs, last.jointResult joint = .ok (last.op.value (jointTuple joint)))
    (key : Tuple) :
    last.jointWeight runs key = weightAt (last.op.results (joined (runs.map Run.results))) key := by
  have hsum : ∀ joints : List (List (Run × List Face)), (∀ joint ∈ joints, joint ∈ jointRolls runs) →
      ((joints.filter fun joint => (last.jointResult joint).toOption == some key).map jointCount).sum =
        weightAt (joints.map fun joint => (last.op.value (jointTuple joint), jointCount joint)) key := by
    intro joints hsub
    induction joints with
    | nil => rfl
    | cons joint joints ih =>
      obtain ⟨hfirst, hrest⟩ := List.forall_mem_cons.1 hsub
      rw [List.filter_cons, List.map_cons, weightAt_cons, ← ih hrest, hresult joint hfirst]
      by_cases hkey : last.op.value (jointTuple joint) = key
      · simp [Except.toOption, hkey]
      · simp [Except.toOption, hkey]
  rw [Program.jointWeight, hsum _ fun _ h => h, joined_results, Operation.results, List.map_map]
  rfl

/-- Combining distributions of the results of runs counts the joint rolls. -/
theorem countsJointRolls_combine {runs : List Run} (hne : runs ≠ [])
    (hok : ∀ run ∈ runs, ∀ x ∈ run.pool.weighted, run.program.op.eval x.1 = .ok (run.program.op.value x.1))
    {loaded : List Distribution}
    (hloaded : List.Forall₂ (fun run d => d.Counts run.results ∧ ∀ k, weightAt run.results k < mantissaBound) runs
      loaded)
    (htotal : (runs.map fun run => totalWeight run.results).prod < mantissaBound) (last : Program) :
    CountsJointRolls runs last (last.tally (.combine loaded)) := by
  have hne' : loaded ≠ [] := by
    rintro rfl
    cases hloaded
    exact hne rfl
  have hlists : List.Forall₂ (fun results d => Distribution.Counts d results ∧ ∀ k, weightAt results k < mantissaBound)
      (runs.map Run.results) loaded := List.forall₂_map_left_iff.2 hloaded
  have hexists (P : Tuple → Prop) : (∃ x ∈ joined (runs.map Run.results), P x.1) ↔
      ∃ joint ∈ jointRolls runs, P (jointTuple joint) := by
    rw [joined_results]
    simp
  have heval (joint : List (Run × List Face)) (hjoint : joint ∈ jointRolls runs) :
      last.jointResult joint = last.op.eval (jointTuple joint) := jointResult_eq hok last hjoint
  -- the failures of the tally are those on the joint results, and these are the failures on the joint rolls
  rcases last.tally_combine_cases hne' hlists with ⟨hfails, e, herror⟩ | ⟨hvalues, d, hd, hcounts⟩
  · obtain ⟨joint, hjoint, e', he'⟩ := (hexists fun dice => ∃ e, last.op.eval dice = .error e).1 hfails
    rw [herror]
    refine ⟨⟨fun _ => ⟨joint, hjoint, e', (heval joint hjoint).trans he'⟩, fun _ => ⟨e, rfl⟩⟩, ?_, ?_⟩
    · rintro d ⟨⟩
    · rintro d ⟨⟩
  · have hresult : ∀ joint ∈ jointRolls runs, last.jointResult joint = .ok (last.op.value (jointTuple joint)) := by
      intro joint hjoint
      rw [heval joint hjoint]
      refine hvalues (jointTuple joint, jointCount joint) ?_
      rw [joined_results]
      exact List.mem_map.2 ⟨joint, hjoint, rfl⟩
    rw [hd]
    refine ⟨⟨?_, ?_⟩, ?_, ?_⟩
    · rintro ⟨e, ⟨⟩⟩
    · rintro ⟨joint, hjoint, e, he⟩
      rw [hresult joint hjoint] at he
      cases he
    · rintro d ⟨⟩ key
      rw [hcounts.isSome_iff, Operation.results, joined_results]
      simp only [List.map_map, List.mem_map, Function.comp_apply]
      refine exists_congr fun joint => and_congr_right fun hjoint => ?_
      rw [hresult joint hjoint]
      simp
    · rintro d ⟨⟩ key weight hget
      have hweight := (hcounts.of_mem_entries (Distribution.mem_entries.2 hget)).2
      -- no weight can exceed the total, which is the product of the totals of the runs
      have hlt : last.jointWeight runs key < mantissaBound := by
        rw [jointWeight_eq hresult]
        refine Nat.lt_of_le_of_lt (weightAt_le_totalWeight _ _) ?_
        rw [Operation.totalWeight_results, totalWeight_joined, List.map_map]
        exact htotal
      rw [Decimal.ofInt?_natCast _ hlt, jointWeight_eq hresult]
      exact congrArg some hweight.symm

/-- A single run needs no file: its pipeline between brackets can be followed by the last one. -/
theorem sameTally_bracketed {run : Run} (hwhole : run.pool.WholeWeights)
    (hok : ∀ x ∈ run.pool.weighted, run.program.op.eval x.1 = .ok (run.program.op.value x.1))
    {last both : Program} (hboth : both.op.SameResults (.andThen run.program.op last.op)) {loaded : Distribution}
    (hloaded : loaded.Counts run.results) (hrange : ∀ k, weightAt run.results k < mantissaBound) :
    SameTally (both.tally (.enumerate run.pool)) (last.tally (.combine [loaded])) := by
  have hjoined : joined [run.results] = run.results := by
    simp [joined, choices_singleton, Function.comp_def]
  have heval : ∀ x ∈ run.pool.weighted, ∀ result,
      both.op.eval x.1 = .ok result ↔ last.op.eval (run.program.op.value x.1) = .ok result := by
    intro x hx result
    rw [hboth, Operation.eval, hok x hx]
    rfl
  have hfails : (∃ x ∈ run.pool.weighted, ∃ e, both.op.eval x.1 = .error e) ↔
      ∃ x ∈ run.results, ∃ e, last.op.eval x.1 = .error e := by
    rw [Run.results, Operation.exists_results_iff _ _ fun dice => ∃ e, last.op.eval dice = .error e]
    exact exists_congr fun x => and_congr_right fun hx => exists_error_congr (heval x hx)
  have hone : List.Forall₂ (fun results d => Distribution.Counts d results ∧ ∀ k, weightAt results k < mantissaBound)
      [run.results] [loaded] := .cons ⟨hloaded, hrange⟩ .nil
  have hlast := last.tally_combine_cases (List.cons_ne_nil loaded []) hone
  rw [hjoined] at hlast
  refine sameTally_of_tallies (both.tally_cases hwhole.all_enumerate) hlast hfails fun hvalues _ => List.Perm.of_eq ?_
  rw [Run.results, Operation.results, Operation.results, Operation.results, List.map_map]
  refine List.map_congr_left fun x hx => ?_
  have hvalue := Operation.value_eq ((heval x hx _).1 (hvalues x hx))
  exact Prod.ext hvalue.symm rfl

/-- All runs are read back. -/
theorem exists_loaded {runs : List Run} {saved : List Distribution} (h : List.Forall₂ Run.Saves runs saved) :
    ∃ loaded, (saved.mapM fun d => Document.ofText (Document.toText d)) = .ok loaded ∧
      List.Forall₂ (fun run d => d.Counts run.results ∧ ∀ k, weightAt run.results k < mantissaBound) runs loaded := by
  induction h with
  | nil => exact ⟨[], rfl, .nil⟩
  | cons hfirst _ ih =>
    obtain ⟨d, hd, hcounts⟩ := hfirst.exists_loaded
    obtain ⟨loaded, hloaded, hrest⟩ := ih
    refine ⟨d :: loaded, ?_, .cons ⟨hcounts, hfirst.weightAt_lt⟩ hrest⟩
    rw [List.mapM_cons, hd, hloaded]
    rfl

/-- All rolls of all runs have results. -/
theorem eval_of_saved {runs : List Run} {saved : List Distribution} (h : List.Forall₂ Run.Saves runs saved) :
    ∀ run ∈ runs, ∀ x ∈ run.pool.weighted, run.program.op.eval x.1 = .ok (run.program.op.value x.1) := by
  induction h with
  | nil => simp
  | cons hfirst _ ih => exact List.forall_mem_cons.2 ⟨hfirst.counts.1, ih⟩

theorem map_exactTotal {runs : List Run} {saved : List Distribution} (h : List.Forall₂ Run.Saves runs saved) :
    saved.map Distribution.exactTotal = runs.map fun run => totalWeight run.results := by
  induction h with
  | nil => rfl
  | cons hfirst _ ih => rw [List.map_cons, List.map_cons, hfirst.exactTotal_eq, ih]

/-- The distributions of runs, saved, read back and combined, count the joint rolls exactly, as long as the product of
the totals is in range.  For a single run this is what one pipeline does, the first one between brackets in front of
the last one. -/
theorem combine_saved {runs : List Run} (hne : runs ≠ []) {saved : List Distribution}
    (hsaved : List.Forall₂ Run.Saves runs saved)
    (htotal : (saved.map Distribution.exactTotal).prod ≤ Decimal.max.toInt.toNat) (last : Program) :
    ∃ loaded, (saved.mapM fun d => Document.ofText (Document.toText d)) = .ok loaded ∧
      CountsJointRolls runs last (last.tally (.combine loaded)) ∧
      ∀ run, runs = [run] → run.program.registry = last.registry → ∀ options capacity,
        ∃ op, ∃ h : Operation.parse ⟨last.registry, options⟩ ("[" :: run.program.words ++ "]" :: last.words) = .ok op,
          SameTally (Program.tally ⟨last.registry, last.built, options, _, op, h, capacity⟩ (.enumerate run.pool))
            (last.tally (.combine loaded)) := by
  obtain ⟨loaded, hread, hloaded⟩ := exists_loaded hsaved
  have hrange : (runs.map fun run => totalWeight run.results).prod < mantissaBound := by
    have hmax : Decimal.max.toInt.toNat < mantissaBound := by decide
    rw [← map_exactTotal hsaved]
    omega
  refine ⟨loaded, hread, countsJointRolls_combine hne (eval_of_saved hsaved) hloaded hrange last, ?_⟩
  rintro run rfl hregistry options capacity
  cases hsaved with
  | cons hfirst hrest =>
    cases hrest
    cases hloaded with
    | cons hcounts hend =>
      cases hend
      have hparse := run.program.parse_eq
      rw [hregistry] at hparse
      obtain ⟨op, hop, hsame⟩ := Operation.parse_bracketed last.built hparse last.parse_eq options
      exact ⟨op, hop, sameTally_bracketed hfirst.whole hfirst.counts.1 hsame hcounts.1 hcounts.2⟩

/-! ### Two runs -/

/-- A coin that shows two three times as often as one. -/
def coin : Die where
  faces := [⟨1, .one⟩, ⟨2, .ofNat 3⟩]
  faces_ne_nil := by decide
  weight_pos := by decide

def highest : Program where
  registry := .empty
  built := .empty
  options := ⟨true, true⟩
  words := ["max"]
  op := .validated (.primitive (.reduce .max))
  parse_eq := by cbv
  capacity := none

def summed : Program where
  registry := .empty
  built := .empty
  options := ⟨false, true⟩
  words := ["sum", "add 1"]
  op := .andThen (.primitive (.reduce .sum)) (.memoized 0 (.primitive (.add [1])))
  parse_eq := by cbv
  capacity := some 1

/-- The higher one of two coins. -/
def higherCoin : Run := ⟨⟨[coin, coin], by decide⟩, highest⟩

/-- One more than a coin. -/
def nextCoin : Run := ⟨⟨[coin], by decide⟩, summed⟩

theorem combine_saved_coins :
    (∃ first second, List.Forall₂ Run.Saves [higherCoin, nextCoin] [first, second] ∧
      ([first, second].map Distribution.exactTotal).prod ≤ Decimal.max.toInt.toNat ∧
      ∃ loaded, ([first, second].mapM fun d => Document.ofText (Document.toText d)) = .ok loaded ∧
        CountsJointRolls [higherCoin, nextCoin] summed (summed.tally (.combine loaded))) ∧
    ∃ first, higherCoin.Saves first ∧ first.exactTotal ≤ Decimal.max.toInt.toNat ∧
      ∃ loaded, ([first].mapM fun d => Document.ofText (Document.toText d)) = .ok loaded ∧
        ∃ op, ∃ h : Operation.parse ⟨.empty, ⟨true, true⟩⟩ ["[", "max", "]", "sum", "add 1"] = .ok op,
          SameTally (Program.tally ⟨.empty, .empty, ⟨true, true⟩, _, op, h, none⟩ (.enumerate higherCoin.pool))
            (summed.tally (.combine loaded)) := by
  have saves {run : Run} {total : Nat} (hwhole : run.pool.WholeWeights)
      (hrun : (run.tally.toOption.map fun d =>
        (d.entries.all fun entry => decide (entry.2.toInt < bound64), d.exactTotal)) = some (true, total)) :
      ∃ d, run.Saves d ∧ d.exactTotal = total := by
    cases htally : run.tally with
    | error e =>
      rw [htally] at hrun
      cases hrun
    | ok d =>
      rw [htally] at hrun
      obtain ⟨hrange, htotal⟩ := Prod.mk.inj (Option.some.inj hrun)
      exact ⟨d, ⟨hwhole, htally, by simpa using hrange⟩, htotal⟩
  obtain ⟨first, hfirst, htotal⟩ := @saves higherCoin 16 (by decide) (by decide +kernel)
  obtain ⟨second, hsecond, htotal'⟩ := @saves nextCoin 4 (by decide) (by decide +kernel)
  have htwo : ([first, second].map Distribution.exactTotal).prod ≤ Decimal.max.toInt.toNat := by
    have hproduct : ([first, second].map Distribution.exactTotal).prod = 16 * 4 := by simp [htotal, htotal']
    rw [hproduct]
    decide
  have hone : ([first].map Distribution.exactTotal).prod ≤ Decimal.max.toInt.toNat := by
    have hproduct : ([first].map Distribution.exactTotal).prod = 16 := by simp [htotal]
    rw [hproduct]
    decide
  refine ⟨⟨first, second, .cons hfirst (.cons hsecond .nil), htwo, ?_⟩, first, hfirst, by rw [htotal]; decide, ?_⟩
  · obtain ⟨loaded, hread, hcounts, -⟩ :=
      combine_saved (List.cons_ne_nil _ _) (.cons hfirst (.cons hsecond .nil)) htwo summed
    exact ⟨loaded, hread, hcounts⟩
  · obtain ⟨loaded, hread, -, hsame⟩ := combine_saved (List.cons_ne_nil _ _) (.cons hfirst .nil) hone summed
    exact ⟨loaded, hread, hsame higherCoin rfl rfl ⟨true, true⟩ none⟩

end DiceTally
