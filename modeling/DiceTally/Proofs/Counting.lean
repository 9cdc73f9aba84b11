import DiceTally.Proofs.Distribution
import DiceTally.Proofs.Tally

/-!
# Tallies of natural weights

Over outcomes with natural weights a tally fails if the operation fails on one of them, and otherwise counts the
results (`tally_cases`).  Combining distributions and tallying counts the joint results of what the distributions
count (`tally_combine_cases`): equal results that were merged before make no difference.
-/

namespace DiceTally

open DiceTally.Distribution (ofWeights)

/-- A pipeline that has been read, the named operations known to it, and the capacity of its caches. -/
structure Program where
  registry : Registry
  built : registry.Built
  options : ParseOptions
  words : List String
  op : Operation
  parse_eq : Operation.parse ⟨registry, options⟩ words = .ok op
  capacity : Option Nat

namespace Program

/-- The distribution of the results over all outcomes, the caches being new. -/
def tally (p : Program) (outcomes : Outcomes) : Except EvalError Distribution :=
  (DiceTally.tally p.op outcomes (.new p.op p.capacity)).1

theorem tally_eq (p : Program) (outcomes : Outcomes) :
    p.tally outcomes = (outcomes.all.mapM p.op.weigh).map Distribution.ofList :=
  Operation.tally_eq p.built p.parse_eq outcomes (Store.sound_new p.registry p.op p.capacity)

/-- An evaluator that has been used before tallies as a new one does. -/
theorem tallied_eq_tally (p : Program) (capacity : Option Nat) (earlier : List Operation.Step) (outcomes : Outcomes) :
    p.op.tallied capacity earlier outcomes = p.tally outcomes :=
  (Operation.tallied_eq p.built p.parse_eq capacity earlier outcomes).trans (p.tally_eq outcomes).symm

end Program

namespace Operation

/-- The result of an operation where it has one. -/
def value (op : Operation) (dice : Tuple) : Tuple := (op.eval dice).toOption.getD []

theorem eval_eq_error_or_value (op : Operation) (dice : Tuple) :
    (∃ e, op.eval dice = .error e) ∨ op.eval dice = .ok (op.value dice) := by
  unfold value
  cases op.eval dice with
  | error e => exact .inl ⟨e, rfl⟩
  | ok key => exact .inr rfl

theorem value_eq {op : Operation} {dice key : Tuple} (h : op.eval dice = .ok key) : op.value dice = key := by
  rw [value, h]
  rfl

/-- The results of outcomes, with the weights of the outcomes. -/
def results (op : Operation) (outcomes : List (Tuple × Nat)) : List (Tuple × Nat) :=
  outcomes.map fun x => (op.value x.1, x.2)

theorem exists_results_iff (op : Operation) (outcomes : List (Tuple × Nat)) (P : Tuple → Prop) :
    (∃ x ∈ op.results outcomes, P x.1) ↔ ∃ x ∈ outcomes, P (op.value x.1) := by
  constructor
  · rintro ⟨_, hmem, hP⟩
    obtain ⟨x, hx, rfl⟩ := List.mem_map.1 hmem
    exact ⟨x, hx, hP⟩
  · rintro ⟨x, hx, hP⟩
    exact ⟨_, List.mem_map.2 ⟨x, hx, rfl⟩, hP⟩

theorem totalWeight_results (op : Operation) (outcomes : List (Tuple × Nat)) :
    totalWeight (op.results outcomes) = totalWeight outcomes := by
  simp [totalWeight, results, Function.comp_def]

theorem mapM_weigh_cases (op : Operation) (outcomes : List (Tuple × Nat)) :
    ((∃ x ∈ outcomes, ∃ e, op.eval x.1 = .error e) ∧ ∃ e, (ofWeights outcomes).mapM op.weigh = .error e) ∨
      ((∀ x ∈ outcomes, op.eval x.1 = .ok (op.value x.1)) ∧
        (ofWeights outcomes).mapM op.weigh = .ok (ofWeights (op.results outcomes))) := by
  induction outcomes with
  | nil => exact .inr ⟨by simp, rfl⟩
  | cons x outcomes ih =>
    have hmapM : (ofWeights (x :: outcomes)).mapM op.weigh = do
        let first ← op.weigh (x.1, .ofNat x.2)
        let rest ← (ofWeights outcomes).mapM op.weigh
        return first :: rest := List.mapM_cons
    rw [hmapM]
    rcases op.eval_eq_error_or_value x.1 with ⟨e, hfirst⟩ | hfirst
    · have hweigh : op.weigh (x.1, .ofNat x.2) = .error e := by rw [weigh, hfirst]; rfl
      exact .inl ⟨⟨x, List.mem_cons_self, e, hfirst⟩, e, by rw [hweigh]; rfl⟩
    · have hweigh : op.weigh (x.1, .ofNat x.2) = .ok (op.value x.1, .ofNat x.2) := by rw [weigh, hfirst]; rfl
      rw [hweigh]
      rcases ih with ⟨⟨y, hy, hfails⟩, e, hrest⟩ | ⟨hall, hrest⟩
      · exact .inl ⟨⟨y, List.mem_cons_of_mem _ hy, hfails⟩, e, by rw [hrest]; rfl⟩
      · exact .inr ⟨List.forall_mem_cons.2 ⟨hfirst, hall⟩, by rw [hrest]; rfl⟩

end Operation

/-- A tally that has failed, as the pipeline does on one of the outcomes, or has counted the results of all of them. -/
def Program.Tallies (p : Program) (xs : List (Tuple × Nat)) (tallied : Except EvalError Distribution) : Prop :=
  ((∃ x ∈ xs, ∃ e, p.op.eval x.1 = .error e) ∧ ∃ e, tallied = .error e) ∨
    ((∀ x ∈ xs, p.op.eval x.1 = .ok (p.op.value x.1)) ∧ ∃ d, tallied = .ok d ∧ d.Counts (p.op.results xs))

theorem Program.tally_cases (p : Program) {outcomes : Outcomes} {xs : List (Tuple × Nat)}
    (hall : outcomes.all = ofWeights xs) : p.Tallies xs (p.tally outcomes) := by
  rw [p.tally_eq, hall]
  rcases p.op.mapM_weigh_cases xs with ⟨hfails, e, hrun⟩ | ⟨hok, hrun⟩
  · exact .inl ⟨hfails, e, by rw [hrun]; rfl⟩
  · exact .inr ⟨hok, _, by rw [hrun]; rfl, Distribution.counts_ofList _⟩

/-! ### Rolls of a pool -/

/-- The weight of a face as a natural number. -/
def Face.count (face : Face) : Nat := face.weight.toInt.toNat

/-- All rolls of a pool. -/
def Pool.rolls (pool : Pool) : List (List Face) := choices (pool.dice.map (·.faces))

/-- The values that a roll shows. -/
def rollTuple (roll : List Face) : Tuple := roll.map (·.value)

/-- The weight of a roll: the product of the weights of its faces. -/
def rollCount (roll : List Face) : Nat := (roll.map Face.count).prod

/-- All faces have weights without digits after the point. -/
def Pool.WholeWeights (pool : Pool) : Prop :=
  ∀ die ∈ pool.dice, ∀ face ∈ die.faces, face.weight.scale = 0

instance (pool : Pool) : Decidable pool.WholeWeights :=
  inferInstanceAs (Decidable (∀ die ∈ pool.dice, ∀ face ∈ die.faces, face.weight.scale = 0))

/-- The rolls of a pool with natural weights. -/
def Pool.weighted (pool : Pool) : List (Tuple × Nat) :=
  pool.rolls.map fun roll => (rollTuple roll, rollCount roll)

theorem Face.weight_eq {face : Face} (hpos : face.weight.isPositive = true) (hscale : face.weight.scale = 0) :
    face.weight = .ofNat face.count ∧ 0 < face.count := by
  obtain ⟨hnegative, hmantissa⟩ := Decimal.signed_of_isPositive hpos
  have hcount : face.count = face.weight.mantissa := by
    rw [count, Decimal.toInt_of_scale hscale, Decimal.signed, hnegative]
    rfl
  rw [hcount]
  exact ⟨Decimal.eq_ofNat hnegative hscale, hmantissa⟩

theorem Pool.WholeWeights.of_mem_rolls {pool : Pool} (h : pool.WholeWeights) {roll : List Face}
    (hroll : roll ∈ pool.rolls) {face : Face} (hface : face ∈ roll) :
    face.weight = .ofNat face.count ∧ 0 < face.count := by
  obtain ⟨faces, hfaces, hmem⟩ := exists_mem_of_mem_choices hroll hface
  obtain ⟨die, hdie, rfl⟩ := List.mem_map.1 hfaces
  exact Face.weight_eq (die.weight_pos face hmem) (h die hdie face hmem)

theorem Pool.WholeWeights.all_enumerate {pool : Pool} (h : pool.WholeWeights) :
    (Outcomes.enumerate pool).all = ofWeights pool.weighted := by
  have houtcome : ∀ roll ∈ pool.rolls, Outcome.ofFaces roll = (rollTuple roll, .ofNat (rollCount roll)) := by
    intro roll hroll
    have hweights : roll.map (·.weight) = (roll.map Face.count).map Decimal.ofNat := by
      rw [List.map_map]
      exact List.map_congr_left fun face hface => (h.of_mem_rolls hroll hface).1
    rw [Outcome.ofFaces, hweights, weightProduct_ofNat]
    rfl
  rw [Outcomes.all_enumerate, ofWeights, weighted, List.map_map]
  exact List.map_congr_left houtcome

/-! ### Combinations of distributions -/

/-- The joint results of several lists, each with the product of its weights. -/
def joined (lists : List (List (Tuple × Nat))) : List (Tuple × Nat) :=
  (choices lists).map fun c => ((c.map Prod.fst).flatten, (c.map Prod.snd).prod)

theorem map_fst_joined (lists : List (List (Tuple × Nat))) :
    (joined lists).map Prod.fst = (choices (lists.map (List.map Prod.fst))).map List.flatten := by
  rw [choices_map, joined, List.map_map, List.map_map]
  rfl

theorem totalWeight_joined (lists : List (List (Tuple × Nat))) :
    totalWeight (joined lists) = (lists.map totalWeight).prod := by
  rw [← jointSum_one, totalWeight, joined, jointSum, List.map_map]
  simp [Function.comp_def]

theorem mem_joined_congr {lists merged : List (List (Tuple × Nat))}
    (h : List.Forall₂ (fun xs ys => ∀ k, k ∈ xs.map Prod.fst ↔ k ∈ ys.map Prod.fst) lists merged) (k : Tuple) :
    k ∈ (joined lists).map Prod.fst ↔ k ∈ (joined merged).map Prod.fst := by
  have hkeys : List.Forall₂ (fun xs ys => ∀ x, x ∈ xs ↔ x ∈ ys) (lists.map (List.map Prod.fst))
      (merged.map (List.map Prod.fst)) := by
    rw [List.forall₂_map_left_iff, List.forall₂_map_right_iff]
    exact h
  rw [map_fst_joined, map_fst_joined, List.mem_map, List.mem_map]
  simp only [mem_choices_congr hkeys]

/-- Results may be merged before they are combined. -/
theorem merges_joined {lists merged : List (List (Tuple × Nat))} (h : List.Forall₂ Merges lists merged) :
    Merges (joined lists) (joined merged) where
  weightAt_eq k := by
    unfold joined
    rw [weightAt_choices lists List.flatten, weightAt_choices merged List.flatten]
    exact jointSum_congr (h.imp fun _ _ hm => hm.weightAt_eq) _
  mem_iff := mem_joined_congr (h.imp fun _ _ hm => hm.mem_iff)

/-- The combinations of natural counts. -/
theorem all_combine_of_natural {ds : List Distribution} (hne : ds ≠ []) (h : ∀ d ∈ ds, d.NaturalCounts) :
    (Outcomes.combine ds).all = ofWeights (joined (ds.map Distribution.weights)) := by
  have hlists : ds.map Distribution.weights =
      (ds.map (·.entries)).map (List.map fun entry => (entry.1, entry.2.mantissa)) := by
    rw [List.map_map]
    rfl
  rw [Outcomes.all_combine hne, hlists, joined, choices_map, ofWeights, List.map_map, List.map_map]
  refine List.map_congr_left fun c hc => ?_
  have hweights : ∀ w ∈ c.map Prod.snd, w.IsNatural := by
    intro w hw
    obtain ⟨entry, hentry, rfl⟩ := List.mem_map.1 hw
    obtain ⟨entries, hentries, hmem⟩ := exists_mem_of_mem_choices hc hentry
    obtain ⟨d, hd, rfl⟩ := List.mem_map.1 hentries
    exact h d hd entry hmem
  rw [Outcome.join, weightProduct_eq_ofNat hweights]
  simp [List.flatMap_def, Function.comp_def]

/-- Distributions are combined as what they count is. -/
theorem Program.tally_combine_cases (p : Program) {lists : List (List (Tuple × Nat))} {ds : List Distribution}
    (hne : ds ≠ [])
    (h : List.Forall₂ (fun results d => d.Counts results ∧ ∀ k, weightAt results k < mantissaBound) lists ds) :
    p.Tallies (joined lists) (p.tally (.combine ds)) := by
  -- a distribution holds the merged results, and merging commutes with joining
  have hmerges : Merges (joined (ds.map Distribution.weights)) (joined lists) := by
    refine merges_joined ?_
    rw [List.forall₂_map_left_iff]
    exact h.flip.imp fun d results hd => hd.1.merges hd.2
  have hfails := hmerges.exists_iff fun dice => ∃ e, p.op.eval dice = .error e
  have hnatural : ∀ d ∈ ds, d.NaturalCounts := fun d hd => by
    obtain ⟨results, -, hcounts, -⟩ := exists_of_mem_forall₂ h.flip hd
    exact hcounts.naturalCounts
  rcases p.tally_cases (all_combine_of_natural hne hnatural) with ⟨hex, herror⟩ | ⟨hok, d, hd, hcounts⟩
  · exact .inl ⟨hfails.1 hex, herror⟩
  · refine .inr ⟨fun x hx => ?_, d, hd, hcounts.congr (hmerges.map p.op.value)⟩
    rcases p.op.eval_eq_error_or_value x.1 with herror | hvalue
    · obtain ⟨y, hy, e, he⟩ := hfails.2 ⟨x, hx, herror⟩
      rw [hok y hy] at he
      cases he
    · exact hvalue

end DiceTally
