import DiceTally.Proofs.Outcome.Choices
import Mathlib.Algebra.BigOperators.Group.Finset.Basic
import Mathlib.Algebra.BigOperators.Ring.Finset
import Mathlib.Algebra.BigOperators.Ring.List
import Mathlib.Algebra.Order.BigOperators.Group.List
import Mathlib.Algebra.Order.Group.Nat

/-!
# Weights of results

`weightAt` adds up the weights of equal results.  A sum over results, each taken with its weight, depends on these
sums only (`sum_congr_weightAt`), and so does a sum over joint choices of results (`jointSum_congr`): equal results
may be merged before lists are combined.
-/

namespace DiceTally

variable {α β : Type} [DecidableEq α]

/-- The weight of all results equal to a given one. -/
def weightAt (results : List (α × Nat)) (k : α) : Nat :=
  (results.map fun r => if r.1 = k then r.2 else 0).sum

/-- The weight of all results. -/
def totalWeight (results : List (α × Nat)) : Nat := (results.map Prod.snd).sum

@[simp] theorem weightAt_nil (k : α) : weightAt [] k = 0 := rfl

@[simp] theorem weightAt_cons (r : α × Nat) (results : List (α × Nat)) (k : α) :
    weightAt (r :: results) k = (if r.1 = k then r.2 else 0) + weightAt results k := rfl

theorem weightAt_append (results more : List (α × Nat)) (k : α) :
    weightAt (results ++ more) k = weightAt results k + weightAt more k := by
  simp [weightAt]

theorem weightAt_eq_zero {results : List (α × Nat)} {k : α} (h : k ∉ results.map Prod.fst) :
    weightAt results k = 0 := by
  induction results with
  | nil => rfl
  | cons r results ih =>
    simp only [List.map_cons, List.mem_cons, not_or] at h
    rw [weightAt_cons, if_neg (Ne.symm h.1), ih h.2]

/-- A result that occurs once has its own weight. -/
theorem weightAt_of_mem {results : List (α × Nat)} (hnodup : (results.map Prod.fst).Nodup) {k : α} {n : Nat}
    (h : (k, n) ∈ results) : weightAt results k = n := by
  induction results with
  | nil => cases h
  | cons r results ih =>
    rw [List.map_cons, List.nodup_cons] at hnodup
    rw [weightAt_cons]
    rcases List.mem_cons.1 h with rfl | hrest
    · rw [if_pos rfl, weightAt_eq_zero hnodup.1, Nat.add_zero]
    · have hne : r.1 ≠ k := by
        rintro rfl
        exact hnodup.1 (List.mem_map.2 ⟨_, hrest, rfl⟩)
      rw [if_neg hne, Nat.zero_add, ih hnodup.2 hrest]

theorem weightAt_le_totalWeight (results : List (α × Nat)) (k : α) : weightAt results k ≤ totalWeight results := by
  refine List.sum_le_sum fun r _ => ?_
  split
  · exact Nat.le_refl _
  · exact Nat.zero_le _

/-! ### Sums over results -/

/-- The results in a sum may be sorted by what they are. -/
theorem sum_eq_sum_weightAt (results : List (α × Nat)) (f : α → Nat) {s : Finset α}
    (hs : ∀ r ∈ results, r.1 ∈ s) : (results.map fun r => r.2 * f r.1).sum = ∑ k ∈ s, weightAt results k * f k := by
  induction results with
  | nil => simp
  | cons r results ih =>
    have hr : r.1 ∈ s := hs r (List.mem_cons_self ..)
    have hrest := ih fun r hr => hs r (List.mem_cons_of_mem _ hr)
    have hsplit : ∀ k, weightAt (r :: results) k * f k =
        (if r.1 = k then r.2 * f k else 0) + weightAt results k * f k := by
      intro k
      rw [weightAt_cons, Nat.add_mul, ite_mul, Nat.zero_mul]
    rw [List.map_cons, List.sum_cons, hrest, Finset.sum_congr rfl fun k _ => hsplit k, Finset.sum_add_distrib,
      Finset.sum_ite_eq, if_pos hr]

/-- The results of two lists are sorted by the same set. -/
theorem exists_sum_eq_sum_weightAt (results merged : List (α × Nat)) : ∃ s : Finset α, ∀ f : α → Nat,
    (results.map fun r => r.2 * f r.1).sum = ∑ k ∈ s, weightAt results k * f k ∧
      (merged.map fun r => r.2 * f r.1).sum = ∑ k ∈ s, weightAt merged k * f k := by
  have hresults : ∀ r ∈ results, r.1 ∈ (results.map Prod.fst ++ merged.map Prod.fst).toFinset := fun r hr =>
    List.mem_toFinset.2 (List.mem_append_left _ (List.mem_map.2 ⟨r, hr, rfl⟩))
  have hmerged : ∀ r ∈ merged, r.1 ∈ (results.map Prod.fst ++ merged.map Prod.fst).toFinset := fun r hr =>
    List.mem_toFinset.2 (List.mem_append_right _ (List.mem_map.2 ⟨r, hr, rfl⟩))
  exact ⟨_, fun f => ⟨sum_eq_sum_weightAt results f hresults, sum_eq_sum_weightAt merged f hmerged⟩⟩

theorem sum_congr_weightAt {results merged : List (α × Nat)} (h : ∀ k, weightAt results k = weightAt merged k)
    (f : α → Nat) : (results.map fun r => r.2 * f r.1).sum = (merged.map fun r => r.2 * f r.1).sum := by
  obtain ⟨s, hs⟩ := exists_sum_eq_sum_weightAt results merged
  rw [(hs f).1, (hs f).2]
  exact Finset.sum_congr rfl fun k _ => by rw [h k]

theorem totalWeight_congr {results merged : List (α × Nat)} (h : ∀ k, weightAt results k = weightAt merged k) :
    totalWeight results = totalWeight merged := by
  simpa [totalWeight] using sum_congr_weightAt h fun _ => 1

/-- The same results with the same weights, some of them merged or split. -/
structure Merges (results merged : List (α × Nat)) : Prop where
  weightAt_eq : ∀ k, weightAt results k = weightAt merged k
  mem_iff : ∀ k, k ∈ results.map Prod.fst ↔ k ∈ merged.map Prod.fst

theorem Merges.exists_iff {results merged : List (α × Nat)} (h : Merges results merged) (P : α → Prop) :
    (∃ r ∈ results, P r.1) ↔ ∃ r ∈ merged, P r.1 := by
  have hkeys (rs : List (α × Nat)) : (∃ r ∈ rs, P r.1) ↔ ∃ k ∈ rs.map Prod.fst, P k := by simp
  rw [hkeys, hkeys]
  simp only [h.mem_iff]

/-- The order of results does not matter. -/
theorem Merges.of_perm {results results' : List (α × Nat)} (h : results.Perm results') : Merges results results' where
  weightAt_eq _ := (h.map _).sum_eq
  mem_iff _ := (h.map _).mem_iff

/-- Results may be merged before a function is applied to them. -/
theorem Merges.map [DecidableEq β] {results merged : List (α × Nat)} (h : Merges results merged) (f : α → β) :
    Merges (results.map fun r => (f r.1, r.2)) (merged.map fun r => (f r.1, r.2)) where
  weightAt_eq k := by
    have hsum (rs : List (α × Nat)) : weightAt (rs.map fun r => (f r.1, r.2)) k =
        (rs.map fun r => r.2 * if f r.1 = k then 1 else 0).sum := by
      unfold weightAt
      rw [List.map_map]
      refine congrArg List.sum (List.map_congr_left fun r _ => ?_)
      simp
    rw [hsum, hsum]
    exact sum_congr_weightAt h.weightAt_eq fun k' => if f k' = k then 1 else 0
  mem_iff k := by
    have hkeys (rs : List (α × Nat)) : (rs.map fun r => (f r.1, r.2)).map Prod.fst = (rs.map Prod.fst).map f := by
      simp [Function.comp_def]
    rw [hkeys, hkeys, List.mem_map, List.mem_map]
    simp only [h.mem_iff]

/-! ### Sums over joint choices -/

omit [DecidableEq α]

/-- The sum of a function over joint choices of one result of each list, each taken with the product of its
weights. -/
def jointSum (lists : List (List (α × Nat))) (f : List α → Nat) : Nat :=
  ((choices lists).map fun c => (c.map Prod.snd).prod * f (c.map Prod.fst)).sum

theorem jointSum_cons (results : List (α × Nat)) (lists : List (List (α × Nat))) (f : List α → Nat) :
    jointSum (results :: lists) f = (results.map fun r => r.2 * jointSum lists fun ks => f (r.1 :: ks)).sum := by
  induction results with
  | nil => rfl
  | cons r results ih =>
    have hfirst : ((choices lists).map fun c => ((r :: c).map Prod.snd).prod * f ((r :: c).map Prod.fst)).sum =
        r.2 * jointSum lists fun ks => f (r.1 :: ks) := by
      simp only [List.map_cons, List.prod_cons, Nat.mul_assoc, jointSum]
      exact List.sum_map_mul_left (choices lists) _ r.2
    -- the choices that begin with `r` come first
    have hsplit : jointSum ((r :: results) :: lists) f =
        ((choices lists).map fun c => ((r :: c).map Prod.snd).prod * f ((r :: c).map Prod.fst)).sum +
          jointSum (results :: lists) f := by
      simp [jointSum, choices, Function.comp_def]
    rw [hsplit, hfirst, ih, List.map_cons, List.sum_cons]

/-- Equal results may be merged before lists are combined. -/
theorem jointSum_congr [DecidableEq α] {lists merged : List (List (α × Nat))}
    (h : List.Forall₂ (fun results merged => ∀ k, weightAt results k = weightAt merged k) lists merged)
    (f : List α → Nat) : jointSum lists f = jointSum merged f := by
  induction h generalizing f with
  | nil => rfl
  | cons hfirst _ ih =>
    rw [jointSum_cons, jointSum_cons]
    simp only [ih]
    exact sum_congr_weightAt hfirst fun k => jointSum _ fun ks => f (k :: ks)

theorem jointSum_one (lists : List (List (α × Nat))) : jointSum lists (fun _ => 1) = (lists.map totalWeight).prod := by
  induction lists with
  | nil => rfl
  | cons results lists ih =>
    rw [jointSum_cons, ih, List.map_cons, List.prod_cons, totalWeight, List.sum_map_mul_right]

/-- The weight of a joint result. -/
theorem weightAt_choices [DecidableEq β] (lists : List (List (α × Nat))) (g : List α → β) (k : β) :
    weightAt ((choices lists).map fun c => (g (c.map Prod.fst), (c.map Prod.snd).prod)) k =
      jointSum lists fun ks => if g ks = k then 1 else 0 := by
  unfold weightAt jointSum
  rw [List.map_map]
  refine congrArg List.sum (List.map_congr_left fun c _ => ?_)
  simp

end DiceTally
