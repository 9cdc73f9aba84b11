import DiceTally.Proofs.Decimal.Whole
import DiceTally.Proofs.Outcome.Weights

/-!
# What a distribution counts

A distribution is known by the weight of each result (`entries_ext`).  Made of results with natural weights it
counts, for each of them, the sum of its weights, brought into range once (`counts_ofList`).  The same number may have
several forms, and distributions are compared by the numbers (`Same`).
-/

namespace DiceTally

namespace Distribution

variable {d : Distribution}

theorem get?_empty (k : Tuple) : empty.get? k = none := Std.TreeMap.getElem?_emptyc

theorem get?_add (key : Tuple) (weight : Decimal) (k : Tuple) :
    (d.add key weight).get? k =
      if key = k then some (((d.get? key).getD .zero).addSaturating weight) else d.get? k := by
  unfold get? add
  rw [Std.TreeMap.getElem?_insert]
  by_cases hkey : key = k
  · rw [if_pos hkey, if_pos (Std.LawfulEqCmp.compare_eq_iff_eq.2 hkey)]
    rfl
  · rw [if_neg hkey, if_neg fun h => hkey (Std.LawfulEqCmp.compare_eq_iff_eq.1 h)]

theorem mem_entries {key : Tuple} {weight : Decimal} : (key, weight) ∈ d.entries ↔ d.get? key = some weight :=
  Std.TreeMap.mem_toList_iff_getElem?_eq_some

theorem nodup_keys (d : Distribution) : (d.entries.map Prod.fst).Nodup := by
  have hdistinct : d.entries.Pairwise fun a b => ¬compare a.1 b.1 = .eq := Std.TreeMap.distinct_keys_toList
  rw [List.Nodup, List.pairwise_map]
  exact hdistinct.imp fun h heq => h (Std.LawfulEqCmp.compare_eq_iff_eq.2 heq)

/-- Distributions with the same weights have the same entries in the same order. -/
theorem entries_ext {d' : Distribution} (h : ∀ k, d.get? k = d'.get? k) : d.entries = d'.entries := by
  have hmem : ∀ entry, entry ∈ d.entries ↔ entry ∈ d'.entries := fun (k, weight) => by
    rw [mem_entries, mem_entries, h]
  have hperm : d.entries.Perm d'.entries :=
    (List.perm_ext_iff_of_nodup (.of_map _ d.nodup_keys) (.of_map _ d'.nodup_keys)).2 hmem
  exact Std.TreeMap.equiv_iff_toList_eq.1 (Std.TreeMap.equiv_iff_toList_perm.2 hperm)

/-! ### Results -/

theorem isSome_get?_foldl (d : Distribution) (outcomes : List (Tuple × Decimal)) (k : Tuple) :
    ((outcomes.foldl (fun d r => d.add r.1 r.2) d).get? k).isSome = true ↔
      (d.get? k).isSome = true ∨ k ∈ outcomes.map Prod.fst := by
  induction outcomes generalizing d with
  | nil => simp
  | cons r outcomes ih =>
    rw [List.foldl_cons, ih, get?_add, List.map_cons, List.mem_cons]
    by_cases hkey : r.1 = k
    · simp [hkey]
    · simp [hkey, Ne.symm hkey]

/-- A distribution has the results that it is made of, whatever they weigh. -/
theorem isSome_get?_ofList {outcomes : List (Tuple × Decimal)} {k : Tuple} :
    ((ofList outcomes).get? k).isSome = true ↔ k ∈ outcomes.map Prod.fst := by
  have h : ((ofList outcomes).get? k).isSome = true ↔ (empty.get? k).isSome = true ∨ k ∈ outcomes.map Prod.fst :=
    isSome_get?_foldl empty outcomes k
  rw [h, get?_empty]
  simp

/-! ### Results that occur once -/

theorem get?_foldl_of_not_mem {outcomes : List (Tuple × Decimal)} {k : Tuple} (h : k ∉ outcomes.map Prod.fst) :
    (outcomes.foldl (fun d r => d.add r.1 r.2) d).get? k = d.get? k := by
  induction outcomes generalizing d with
  | nil => rfl
  | cons r outcomes ih =>
    simp only [List.map_cons, List.mem_cons, not_or] at h
    rw [List.foldl_cons, ih h.2, get?_add, if_neg (Ne.symm h.1)]

theorem get?_foldl_of_mem {outcomes : List (Tuple × Decimal)} (hnodup : (outcomes.map Prod.fst).Nodup) {k : Tuple}
    {weight : Decimal} (h : (k, weight) ∈ outcomes) (hd : d.get? k = none) :
    (outcomes.foldl (fun d r => d.add r.1 r.2) d).get? k = some weight := by
  induction outcomes generalizing d with
  | nil => cases h
  | cons r outcomes ih =>
    rw [List.map_cons, List.nodup_cons] at hnodup
    rw [List.foldl_cons]
    rcases List.mem_cons.1 h with rfl | hrest
    · rw [get?_foldl_of_not_mem hnodup.1, get?_add, if_pos rfl, hd]
      rfl
    · have hne : r.1 ≠ k := by
        rintro rfl
        exact hnodup.1 (List.mem_map.2 ⟨_, hrest, rfl⟩)
      exact ih hnodup.2 hrest (by rw [get?_add, if_neg hne, hd])

/-- A result that occurs once has its own weight, in its own form. -/
theorem get?_ofList_of_nodup {outcomes : List (Tuple × Decimal)} (hnodup : (outcomes.map Prod.fst).Nodup) {k : Tuple}
    {weight : Decimal} : (ofList outcomes).get? k = some weight ↔ (k, weight) ∈ outcomes := by
  constructor
  · intro h
    by_cases hk : k ∈ outcomes.map Prod.fst
    · obtain ⟨r, hr, rfl⟩ := List.mem_map.1 hk
      have hget : (ofList outcomes).get? r.1 = some r.2 := get?_foldl_of_mem hnodup hr (get?_empty _)
      rw [hget] at h
      rwa [← Option.some.inj h]
    · have hget : (ofList outcomes).get? k = none := (get?_foldl_of_not_mem hk).trans (get?_empty k)
      rw [hget] at h
      cases h
  · intro h
    exact get?_foldl_of_mem hnodup h (get?_empty k)

/-! ### Natural weights -/

/-- Results with natural weights as decimal numbers. -/
def ofWeights (results : List (Tuple × Nat)) : List (Tuple × Decimal) :=
  results.map fun r => (r.1, Decimal.ofNat r.2)

/-- The distribution has the sum of the weights of every result, and nothing else. -/
def Counts (d : Distribution) (results : List (Tuple × Nat)) : Prop :=
  ∀ k, d.get? k = if k ∈ results.map Prod.fst then some (.ofNat (weightAt results k)) else none

theorem counts_empty : empty.Counts [] := fun k => get?_empty k

theorem Counts.add {results : List (Tuple × Nat)} (h : d.Counts results) (key : Tuple) (n : Nat) :
    (d.add key (.ofNat n)).Counts (results ++ [(key, n)]) := by
  intro k
  rw [get?_add, weightAt_append]
  by_cases hk : key = k
  · subst hk
    -- also a result that is new is added to zero
    have hsum : ((d.get? key).getD .zero).addSaturating (.ofNat n) = .ofNat (weightAt results key + n) := by
      rw [h key]
      by_cases hmem : key ∈ results.map Prod.fst
      · rw [if_pos hmem, Option.getD_some, Decimal.addSaturating_ofNat]
      · rw [if_neg hmem, Option.getD_none, weightAt_eq_zero hmem, ← Decimal.ofNat_zero, Decimal.addSaturating_ofNat]
    simp [hsum]
  · have hrest : (k ∈ (results ++ [(key, n)]).map Prod.fst) ↔ k ∈ results.map Prod.fst := by
      simp [Ne.symm hk]
    rw [if_neg hk, h k]
    simp only [hrest]
    simp [hk]

theorem counts_foldl {before : List (Tuple × Nat)} (h : d.Counts before) (results : List (Tuple × Nat)) :
    ((ofWeights results).foldl (fun d r => d.add r.1 r.2) d).Counts (before ++ results) := by
  induction results generalizing d before with
  | nil => simpa [ofWeights] using h
  | cons r results ih =>
    have hnext := ih (h.add r.1 r.2)
    rw [List.append_assoc, List.singleton_append] at hnext
    exact hnext

theorem counts_ofList (results : List (Tuple × Nat)) : (ofList (ofWeights results)).Counts results :=
  counts_foldl counts_empty results

theorem Counts.of_mem_entries {results : List (Tuple × Nat)} (h : d.Counts results) {entry : Tuple × Decimal}
    (hentry : entry ∈ d.entries) :
    entry.1 ∈ results.map Prod.fst ∧ entry.2 = .ofNat (weightAt results entry.1) := by
  have hget := h entry.1
  rw [mem_entries.1 hentry] at hget
  split at hget
  · exact ⟨‹_›, Option.some.inj hget⟩
  · cases hget

theorem Counts.isSome_iff {results : List (Tuple × Nat)} (h : d.Counts results) (k : Tuple) :
    (d.get? k).isSome = true ↔ k ∈ results.map Prod.fst := by
  rw [h k]
  split
  · exact iff_of_true rfl ‹_›
  · exact iff_of_false (by simp) ‹_›

/-- The entries of a distribution with the mantissas of their weights. -/
def weights (d : Distribution) : List (Tuple × Nat) :=
  d.entries.map fun entry => (entry.1, entry.2.mantissa)

theorem weightAt_weights (d : Distribution) (k : Tuple) :
    weightAt d.weights k = ((d.get? k).map (·.mantissa)).getD 0 := by
  have hkeys : d.weights.map Prod.fst = d.entries.map Prod.fst := by simp [weights, Function.comp_def]
  cases hget : d.get? k with
  | some weight =>
    have hmem : (k, weight.mantissa) ∈ d.weights := List.mem_map.2 ⟨(k, weight), mem_entries.2 hget, rfl⟩
    rw [weightAt_of_mem (hkeys ▸ d.nodup_keys) hmem]
    rfl
  | none =>
    have hmem : k ∉ d.weights.map Prod.fst := by
      rw [hkeys]
      intro hmem
      obtain ⟨entry, hentry, rfl⟩ := List.mem_map.1 hmem
      rw [mem_entries.1 hentry] at hget
      cases hget
    rw [weightAt_eq_zero hmem]
    rfl

theorem Counts.entries_eq {results : List (Tuple × Nat)} (h : d.Counts results) : d.entries = ofWeights d.weights := by
  have hentry : ∀ entry ∈ d.entries, entry = (entry.1, Decimal.ofNat entry.2.mantissa) := by
    intro entry hentry
    have hweight := (h.of_mem_entries hentry).2
    have hform : entry.2 = .ofNat entry.2.mantissa := by
      rw [hweight]
      exact Decimal.eq_ofNat (Decimal.negative_ofNat _) (Decimal.scale_ofNat _)
    rw [← hform]
  rw [ofWeights, weights, List.map_map]
  exact (List.map_id d.entries).symm.trans (List.map_congr_left hentry)

theorem Counts.congr {results merged : List (Tuple × Nat)} (h : d.Counts results) (hmerges : Merges results merged) :
    d.Counts merged := by
  intro k
  rw [h k, hmerges.weightAt_eq]
  simp only [hmerges.mem_iff]

/-- As long as no weight is out of range, a distribution has the weights of the results that it counts. -/
theorem Counts.weightAt_eq {results : List (Tuple × Nat)} (h : d.Counts results)
    (hrange : ∀ k, weightAt results k < mantissaBound) (k : Tuple) : weightAt d.weights k = weightAt results k := by
  rw [weightAt_weights, h k]
  by_cases hmem : k ∈ results.map Prod.fst
  · rw [if_pos hmem]
    exact Decimal.mantissa_ofNat_of_lt (hrange k)
  · rw [if_neg hmem, weightAt_eq_zero hmem]
    rfl

theorem Counts.mem_weights_iff {results : List (Tuple × Nat)} (h : d.Counts results) (k : Tuple) :
    k ∈ d.weights.map Prod.fst ↔ k ∈ results.map Prod.fst := by
  have hkeys : d.weights.map Prod.fst = d.entries.map Prod.fst := by simp [weights, Function.comp_def]
  rw [hkeys]
  constructor
  · intro hmem
    obtain ⟨entry, hentry, rfl⟩ := List.mem_map.1 hmem
    exact (h.of_mem_entries hentry).1
  · intro hmem
    have hget := h k
    rw [if_pos hmem] at hget
    exact List.mem_map.2 ⟨_, mem_entries.2 hget, rfl⟩

/-- As long as no weight is out of range, the entries of a distribution are what it counts, equal results merged. -/
theorem Counts.merges {results : List (Tuple × Nat)} (h : d.Counts results)
    (hrange : ∀ k, weightAt results k < mantissaBound) : Merges d.weights results where
  weightAt_eq := h.weightAt_eq hrange
  mem_iff := h.mem_weights_iff

/-- The total of natural weights, brought into range once. -/
theorem Counts.total_eq {results : List (Tuple × Nat)} (h : d.Counts results) :
    d.total = .ofNat (totalWeight d.weights) := by
  have hfold (ws : List (Tuple × Nat)) (n : Nat) :
      (ofWeights ws).foldl (fun sum r => sum.addSaturating r.2) (.ofNat n) = Decimal.ofNat (n + totalWeight ws) := by
    induction ws generalizing n with
    | nil => rfl
    | cons r ws ih =>
      have hsum : totalWeight (r :: ws) = r.2 + totalWeight ws := rfl
      rw [hsum, ← Nat.add_assoc, ← ih, ← Decimal.addSaturating_ofNat]
      rfl
  have hzero := hfold d.weights 0
  rw [← h.entries_eq, Decimal.ofNat_zero, Nat.zero_add] at hzero
  exact hzero

/-- All counts are natural numbers without digits after the point. -/
def NaturalCounts (d : Distribution) : Prop := ∀ entry ∈ d.entries, entry.2.IsNatural

theorem Counts.naturalCounts {results : List (Tuple × Nat)} (h : d.Counts results) : d.NaturalCounts := by
  intro entry hentry
  rw [(h.of_mem_entries hentry).2]
  exact Decimal.isNatural_ofNat _

/-! ### Counts in any form -/

/-- All counts are whole numbers, and none is below zero. -/
def WholeCounts (d : Distribution) : Prop :=
  ∀ entry ∈ d.entries, entry.2.isWhole = true ∧ entry.2.isBelowZero = false

/-- Distributions with the same results, numerically the same count for each of them, and the same total. -/
structure Same (d d' : Distribution) : Prop where
  units_get? : ∀ key, (d.get? key).map Decimal.units = (d'.get? key).map Decimal.units
  units_total : d.total.units = d'.total.units

variable {d' : Distribution}

theorem entries_eq_map {f : Decimal → Decimal} (h : ∀ key, d'.get? key = (d.get? key).map f) :
    d'.entries = d.entries.map fun entry => (entry.1, f entry.2) := by
  have hmap : d'.entries = (Distribution.mk (d.counts.map fun _ => f)).entries :=
    entries_ext fun key => (h key).trans (Std.TreeMap.getElem?_map (f := fun _ => f)).symm
  exact hmap.trans Std.TreeMap.toList_map

theorem WholeCounts.isNat (h : d.WholeCounts) {entry : Tuple × Decimal} (hentry : entry ∈ d.entries) :
    entry.2.IsNat (entry.2.mantissa / tenTo entry.2.scale) :=
  Decimal.isNat_of_isWhole (h entry hentry).1 (h entry hentry).2

theorem Same.of_entries (h : d'.entries = d.entries) : d'.Same d where
  units_get? key := by
    have hget : d'.get? key = d.get? key := by
      ext weight
      rw [← mem_entries, ← mem_entries, h]
    rw [hget]
  units_total := by rw [total, total, h]

/-- Counts may be written in another form. -/
theorem Same.of_isNat {f : Decimal → Decimal} (hget : ∀ key, d'.get? key = (d.get? key).map f)
    (hf : ∀ entry ∈ d.entries, ∃ n, entry.2.IsNat n ∧ (f entry.2).IsNat n) : d'.Same d where
  units_get? key := by
    rw [hget, Option.map_map]
    cases hkey : d.get? key with
    | none => rfl
    | some weight =>
      obtain ⟨n, hn, hfn⟩ := hf _ (mem_entries.2 hkey)
      exact congrArg some (Eq.trans hfn hn.symm)
  units_total := by
    have hzero : Decimal.zero.IsNat 0 := Decimal.isNat_iff.2 rfl
    have hweights : List.Forall₂ (fun w w' => ∃ n, w.IsNat n ∧ w'.IsNat n) (d.entries.map Prod.snd)
        (d'.entries.map Prod.snd) := by
      rw [entries_eq_map hget, List.map_map, List.forall₂_map_left_iff, List.forall₂_map_right_iff,
        List.forall₂_same]
      exact hf
    obtain ⟨n, hn, hn'⟩ := Decimal.exists_isNat_foldl hweights hzero hzero
    rw [List.foldl_map] at hn hn'
    exact Eq.trans hn' hn.symm

end Distribution

end DiceTally
