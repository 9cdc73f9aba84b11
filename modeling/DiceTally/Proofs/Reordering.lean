import DiceTally.Proofs.Recombination

/-!
# The order of the dice

A pipeline that sorts the roll first has the same results on a roll in any order (`eval_perm_iff`).  The rolls of a
pool with its dice in another order are the same rolls with their faces in another order (`perm_map_choices`), and a
tally adds up weights in any order.  So reordering the dice changes neither whether such a pipeline can be tallied nor
what the tally is (`sameTally_reordered`).
-/

namespace DiceTally

/-! ### Choices in another order -/

section

variable {α β : Type}

/-- Two lists are run through in either order. -/
theorem perm_flatMap_comm {γ : Type} (xs : List α) (ys : List β) (f : α → β → List γ) :
    (xs.flatMap fun x => ys.flatMap fun y => f x y).Perm (ys.flatMap fun y => xs.flatMap fun x => f x y) := by
  have h := Multiset.bind_bind (xs : Multiset α) (ys : Multiset β) (f := fun x y => (f x y : Multiset γ))
  simp only [Multiset.coe_bind] at h
  exact Multiset.coe_eq_coe.1 h

/-- Choices from reordered lists are reordered choices. -/
theorem perm_map_choices {lists lists' : List (List α)} (hperm : lists.Perm lists') {f : List α → β}
    (hf : ∀ c c', c.Perm c' → f c = f c') : ((choices lists).map f).Perm ((choices lists').map f) := by
  induction hperm generalizing f with
  | nil => exact .refl _
  | cons xs _ ih =>
    simp only [choices, List.map_flatMap, List.map_map]
    exact List.Perm.flatMap_left xs fun x _ => ih fun c c' hc => hf _ _ (hc.cons x)
  | swap xs ys lists =>
    simp only [choices, List.map_flatMap, List.map_map, Function.comp_def]
    refine (perm_flatMap_comm ..).trans (List.Perm.of_eq ?_)
    have hswap (x y : α) : ((choices lists).map fun c => f (y :: x :: c)) =
        (choices lists).map fun c => f (x :: y :: c) :=
      List.map_congr_left fun c _ => hf _ _ (.swap ..)
    simp only [hswap]
  | trans _ _ ih ih' => exact (ih hf).trans (ih' hf)

end

theorem pairwise_sorted (dice : Tuple) : (sorted dice).Pairwise (· ≤ ·) := by
  have htrans (a b c : Value) (hab : decide (a ≤ b) = true) (hbc : decide (b ≤ c) = true) : decide (a ≤ c) = true :=
    decide_eq_true (Int64.le_trans (of_decide_eq_true hab) (of_decide_eq_true hbc))
  have htotal (a b : Value) : (decide (a ≤ b) || decide (b ≤ a)) = true := by
    simpa using Int64.le_total a b
  exact (List.pairwise_mergeSort htrans htotal dice).imp of_decide_eq_true

/-- Dice are sorted in the same way in any order. -/
theorem sorted_perm {dice dice' : Tuple} (h : dice.Perm dice') : sorted dice = sorted dice' := by
  have hperm : (sorted dice).Perm (sorted dice') :=
    (List.mergeSort_perm dice _).trans (h.trans (List.mergeSort_perm dice' _).symm)
  exact hperm.eq_of_pairwise (fun _ _ _ _ => Int64.le_antisymm) (pairwise_sorted dice) (pairwise_sorted dice')

/-! ### Sorting first -/

namespace Operation

/-- The stage that a pipeline begins with, not counting `validated` and `memoized`. -/
def firstStage : Operation → Operation
  | andThen first _ => first.firstStage
  | validated inner => inner.firstStage
  | memoized _ inner => inner.firstStage
  | op => op

/-- A pipeline that sorts first has the same results on the dice in any order. -/
theorem eval_perm_iff {op : Operation} (hsort : op.firstStage = .primitive .sort) {dice dice' : Tuple}
    (h : dice.Perm dice') (result : Tuple) : op.eval dice = .ok result ↔ op.eval dice' = .ok result := by
  induction op generalizing result with
  | primitive step =>
    cases hsort
    rw [eval, eval, Primitive.apply, Primitive.apply, sorted_perm h]
  | andThen first next ih =>
    simp only [eval, bind_eq_ok_iff, ih hsort]
  | validated inner ih =>
    simp only [eval, mapError_eq_ok_iff, ih hsort]
  | memoized slot inner ih => exact ih hsort result
  | sliceApply => cases hsort
  | conditional => cases hsort
  | native => cases hsort
  | defined => cases hsort

end Operation

/-! ### Pools in another order -/

/-- The rolls of a pool in ascending order, with their weights. -/
def Pool.sortedRolls (pool : Pool) : List (Tuple × Nat) :=
  pool.weighted.map fun x => (sorted x.1, x.2)

/-- Reordering the dice reorders the sorted rolls. -/
theorem Pool.perm_sortedRolls {pool pool' : Pool} (h : pool.dice.Perm pool'.dice) :
    pool.sortedRolls.Perm pool'.sortedRolls := by
  have hroll (roll roll' : List Face) (hfaces : roll.Perm roll') :
      (sorted (rollTuple roll), rollCount roll) = (sorted (rollTuple roll'), rollCount roll') :=
    Prod.ext (sorted_perm (hfaces.map _)) (hfaces.map _).prod_eq
  have hrolls := perm_map_choices (h.map (·.faces)) hroll
  simpa only [sortedRolls, weighted, List.map_map, rolls, Function.comp_def] using hrolls

namespace Program

variable {p : Program} (hsort : p.op.firstStage = .primitive .sort)

include hsort

theorem exists_error_iff_sortedRolls (pool : Pool) :
    (∃ x ∈ pool.weighted, ∃ e, p.op.eval x.1 = .error e) ↔ ∃ x ∈ pool.sortedRolls, ∃ e, p.op.eval x.1 = .error e := by
  have hsame (dice : Tuple) : (∃ e, p.op.eval dice = .error e) ↔ ∃ e, p.op.eval (sorted dice) = .error e :=
    exists_error_congr (Operation.eval_perm_iff hsort (List.mergeSort_perm dice _).symm)
  constructor
  · rintro ⟨x, hx, hfails⟩
    exact ⟨_, List.mem_map.2 ⟨x, hx, rfl⟩, (hsame x.1).1 hfails⟩
  · rintro ⟨_, hmem, hfails⟩
    obtain ⟨x, hx, rfl⟩ := List.mem_map.1 hmem
    exact ⟨x, hx, (hsame x.1).2 hfails⟩

theorem results_sortedRolls {pool : Pool} (hok : ∀ x ∈ pool.weighted, p.op.eval x.1 = .ok (p.op.value x.1)) :
    p.op.results pool.sortedRolls = p.op.results pool.weighted := by
  rw [Pool.sortedRolls, Operation.results, Operation.results, List.map_map]
  refine List.map_congr_left fun x hx => Prod.ext ?_ rfl
  exact Operation.value_eq ((Operation.eval_perm_iff hsort (List.mergeSort_perm x.1 _).symm _).1 (hok x hx))

/-- A pipeline that sorts first does not see the order of the dice: it fails on some roll of either pool, or it counts
the same results. -/
theorem sameTally_reordered {pool pool' : Pool} (hperm : pool.dice.Perm pool'.dice) (hwhole : pool.WholeWeights)
    (capacity capacity' : Option Nat) (earlier earlier' : List Operation.Step) :
    SameTally (p.op.tallied capacity earlier (.enumerate pool))
      (p.op.tallied capacity' earlier' (.enumerate pool')) := by
  rw [p.tallied_eq_tally, p.tallied_eq_tally]
  have hwhole' : pool'.WholeWeights := fun die hdie => hwhole die (hperm.mem_iff.2 hdie)
  have hrolls := Pool.perm_sortedRolls hperm
  have hfails : (∃ x ∈ pool.weighted, ∃ e, p.op.eval x.1 = .error e) ↔
      ∃ x ∈ pool'.weighted, ∃ e, p.op.eval x.1 = .error e := by
    rw [exists_error_iff_sortedRolls hsort, exists_error_iff_sortedRolls hsort]
    simp only [hrolls.mem_iff]
  have htally := p.tally_cases hwhole.all_enumerate
  have htally' := p.tally_cases hwhole'.all_enumerate
  refine sameTally_of_tallies htally htally' hfails fun hok hok' => ?_
  rw [← results_sortedRolls hsort hok, ← results_sortedRolls hsort hok']
  exact hrolls.map _

end Program

/-- A die that shows three on two of its faces. -/
def repeatedDie : Die where
  faces := [⟨3, .one⟩, ⟨-1, .ofNat 2⟩, ⟨3, .ofNat 5⟩]
  faces_ne_nil := by decide
  weight_pos := by decide

/-- The dice in ascending order, with a bonus for the higher one. -/
def sortedBonus : Program where
  registry := .empty
  built := .empty
  options := ⟨true, true⟩
  words := ["sort", "add 0 10"]
  op := .validated (.andThen (.primitive .sort) (.memoized 0 (.validated (.primitive (.add [0, 10])))))
  parse_eq := by cbv
  capacity := none

theorem Program.sameTally_reordered_pair :
    sortedBonus.op.firstStage = .primitive .sort ∧ [coin, repeatedDie].Perm [repeatedDie, coin] ∧
      (Pool.mk [coin, repeatedDie] (by decide)).WholeWeights ∧
      (sortedBonus.op.tallied none [] (.enumerate ⟨[coin, repeatedDie], by decide⟩)).isOk = true ∧
      SameTally (sortedBonus.op.tallied none [] (.enumerate ⟨[coin, repeatedDie], by decide⟩))
        (sortedBonus.op.tallied (some 1) [.apply [2, 1]] (.enumerate ⟨[repeatedDie, coin], by decide⟩)) := by
  have hperm : [coin, repeatedDie].Perm [repeatedDie, coin] := .swap ..
  exact ⟨rfl, hperm, by decide, by cbv,
    sortedBonus.sameTally_reordered rfl hperm (by decide) none (some 1) [] [.apply [2, 1]]⟩

end DiceTally
