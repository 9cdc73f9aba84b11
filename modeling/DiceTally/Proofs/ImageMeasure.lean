import DiceTally.Proofs.Tally

/-!
# Tallies are image measures

For weights that are natural numbers, and in range when they are all added up, a tally loses nothing: every result of
the operation has the sum of the weights of the outcomes with this result, and the total is the sum of all weights
(`units_ofList`).  So the order of the outcomes does not matter, nor do caches (`tallied_eq_image`).
-/

namespace DiceTally

namespace Distribution

/-! ### Counts in plain form -/

/-- The second distribution has the counts of the first one, which are natural numbers, in plain form. -/
structure PlainForm (d d' : Distribution) : Prop where
  isNat : ∀ key weight, d.get? key = some weight → ∃ n, weight.IsNat n
  get?_eq : ∀ key, d'.get? key = (d.get? key).map Decimal.plain

variable {d d' : Distribution}

theorem plainForm_empty : empty.PlainForm empty :=
  ⟨fun key weight h => by simp [get?_empty] at h, fun key => by simp [get?_empty]⟩

theorem PlainForm.add (h : d.PlainForm d') (key : Tuple) {weight : Decimal} {n : Nat} (hweight : weight.IsNat n) :
    (d.add key weight).PlainForm (d'.add key weight.plain) := by
  -- a result that is new is added to zero
  have hbefore : ∃ m, ((d.get? key).getD .zero).IsNat m ∧
      ((d'.get? key).getD .zero) = ((d.get? key).getD .zero).plain := by
    rw [h.get?_eq]
    cases hget : d.get? key with
    | none => exact ⟨0, Decimal.isNat_iff.2 rfl, by decide⟩
    | some before =>
      obtain ⟨m, hm⟩ := h.isNat key before hget
      exact ⟨m, hm, rfl⟩
  obtain ⟨m, hm, hplain⟩ := hbefore
  constructor
  · intro k w hw
    rw [get?_add] at hw
    split at hw
    · cases hw
      exact ⟨_, hm.addSaturating hweight⟩
    · exact h.isNat k w hw
  · intro k
    rw [get?_add, get?_add]
    split
    · rw [hplain, Option.map_some, hm.plain_addSaturating hweight]
    · exact h.get?_eq k

/-- Results with the values of their weights. -/
def natural (results : List (Tuple × Decimal)) : List (Tuple × Nat) :=
  results.map fun r => (r.1, r.2.toInt.toNat)

theorem PlainForm.foldl (h : d.PlainForm d') {results : List (Tuple × Decimal)}
    (hnat : ∀ r ∈ results, ∃ n, r.2.IsNat n) :
    (results.foldl (fun d r => d.add r.1 r.2) d).PlainForm
      ((ofWeights (natural results)).foldl (fun d r => d.add r.1 r.2) d') := by
  induction results generalizing d d' with
  | nil => exact h
  | cons r results ih =>
    obtain ⟨⟨n, hn⟩, hrest⟩ := List.forall_mem_cons.1 hnat
    exact ih (h.add r.1 hn) hrest

theorem PlainForm.same (h : d.PlainForm d') : d'.Same d := by
  refine .of_isNat h.get?_eq fun entry hentry => ?_
  obtain ⟨n, hn⟩ := h.isNat entry.1 entry.2 (mem_entries.1 hentry)
  exact ⟨n, hn, hn.isNat_plain⟩

/-! ### Sums of weights -/

variable {results : List (Tuple × Decimal)} (hnat : ∀ r ∈ results, ∃ n, r.2.IsNat n)

include hnat

theorem sum_units : (results.map fun r => r.2.units).sum = (totalWeight (natural results) * tenTo 28 : Nat) := by
  induction results with
  | nil => rfl
  | cons r results ih =>
    obtain ⟨⟨n, hn⟩, hrest⟩ := List.forall_mem_cons.1 hnat
    have htotal : totalWeight (natural (r :: results)) = n + totalWeight (natural results) := by
      simp [totalWeight, natural, hn.toInt_eq]
    rw [List.map_cons, List.sum_cons, ih hrest, htotal, Nat.add_mul, Int.natCast_add]
    exact congrArg (· + _) hn

omit hnat in
theorem weightAt_natural (results : List (Tuple × Decimal)) (key : Tuple) :
    weightAt (natural results) key = totalWeight (natural (results.filter fun r => r.1 = key)) := by
  induction results with
  | nil => rfl
  | cons r results ih =>
    have hcons : weightAt (natural (r :: results)) key =
        (if r.1 = key then r.2.toInt.toNat else 0) + weightAt (natural results) key := rfl
    rw [hcons, ih, List.filter_cons]
    by_cases hkey : r.1 = key
    · simp [hkey, natural, totalWeight]
    · simp [hkey]

/-- As long as the sum of all weights is in range, every result has the sum of its weights, and the total is the sum of
all weights. -/
theorem units_ofList (hsum : (results.map fun r => r.2.units).sum ≤ Decimal.max.units) :
    (∀ key weight, (ofList results).get? key = some weight →
      weight.units = ((results.filter fun r => r.1 = key).map fun r => r.2.units).sum) ∧
    (ofList results).total.units = (results.map fun r => r.2.units).sum := by
  have hplain : (ofList results).PlainForm (ofList (ofWeights (natural results))) := plainForm_empty.foldl hnat
  have hcounts := counts_ofList (natural results)
  have htotal : totalWeight (natural results) < mantissaBound := by
    have hmax : Decimal.max.units = ((mantissaBound - 1) * tenTo 28 : Nat) := by decide
    rw [sum_units hnat, hmax, Int.ofNat_le] at hsum
    have hle := Nat.le_of_mul_le_mul_right hsum (tenTo_pos 28)
    have hpos : 0 < mantissaBound := by decide
    omega
  have hrange (key : Tuple) : weightAt (natural results) key < mantissaBound :=
    Nat.lt_of_le_of_lt (weightAt_le_totalWeight ..) htotal
  constructor
  · intro key weight hweight
    obtain ⟨n, hn⟩ := hplain.isNat key weight hweight
    -- the count in plain form is the sum
    have hget := hplain.get?_eq key
    rw [hweight, hcounts key, Option.map_some, hn.plain_eq] at hget
    split at hget
    · have hmantissa := congrArg Decimal.mantissa (Option.some.inj hget)
      rw [Decimal.mantissa_ofNat_of_lt (hrange key), Decimal.mantissa_ofNat_of_lt hn.lt] at hmantissa
      rw [sum_units fun r hr => hnat r (List.mem_of_mem_filter hr), ← weightAt_natural, hmantissa]
      exact hn
    · cases hget
  · rw [← hplain.same.units_total, hcounts.total_eq, sum_units hnat, totalWeight_congr (hcounts.weightAt_eq hrange)]
    exact Decimal.isNat_ofNat htotal

end Distribution

namespace Operation

/-- The outcomes of a list that have a given result. -/
theorem map_filter_of_results {op : Operation} {outcomes : List Outcome} {results : List (Tuple × Decimal)}
    (h : List.Forall₂ (fun outcome r => op.eval outcome.1 = .ok r.1 ∧ r.2 = outcome.2) outcomes results) (key : Tuple) :
    (results.filter fun r => r.1 = key).map (fun r => r.2.units) =
      (outcomes.filter fun outcome => op.eval outcome.1 = .ok key).map fun outcome => outcome.2.units := by
  induction h with
  | nil => rfl
  | @cons outcome r outcomes results hfirst _ ih =>
    obtain ⟨heval, hweight⟩ := hfirst
    rw [List.filter_cons, List.filter_cons, heval]
    by_cases hkey : r.1 = key
    · simp [hkey, hweight, ih]
    · simp [hkey, ih]

section

variable {registry : Registry} (hregistry : registry.Built) {options : ParseOptions} {words : List String}
  {op : Operation} (h : parse ⟨registry, options⟩ words = .ok op) {outcomes : List Outcome}
  (hweights : ∀ outcome ∈ outcomes, outcome.2.isWhole = true ∧ outcome.2.isBelowZero = false)
  (hsum : (outcomes.map fun outcome => outcome.2.units).sum ≤ Decimal.max.units)

include hregistry h hweights hsum

/-- Results have the sums of the weights of their outcomes. -/
theorem units_of_tallied {capacity : Option Nat} {earlier : List Step} {d : Distribution}
    (hd : op.tallied capacity earlier (.given outcomes) = .ok d) :
    (∀ key weight, d.get? key = some weight →
      weight.units =
        ((outcomes.filter fun outcome => op.eval outcome.1 = .ok key).map fun outcome => outcome.2.units).sum) ∧
    d.total.units = (outcomes.map fun outcome => outcome.2.units).sum := by
  obtain ⟨results, hresults, rfl⟩ := (tallied_eq_ok_iff hregistry h).1 hd
  rw [Outcomes.all_given] at hresults
  have hnat : ∀ r ∈ results, ∃ n, r.2.IsNat n := by
    intro r hr
    obtain ⟨outcome, hmem, -, hweight⟩ := exists_of_mem_forall₂ hresults.flip hr
    obtain ⟨hwhole, hsign⟩ := hweights outcome hmem
    exact ⟨_, hweight ▸ Decimal.isNat_of_isWhole hwhole hsign⟩
  have hunits : (results.map fun r => r.2.units) = outcomes.map fun outcome => outcome.2.units := by
    rw [← List.forall₂_eq_eq_eq, List.forall₂_map_left_iff, List.forall₂_map_right_iff]
    exact hresults.flip.imp fun _ _ hr => congrArg Decimal.units hr.2
  obtain ⟨hcounts, htotal⟩ := Distribution.units_ofList hnat (hunits ▸ hsum)
  simp only [map_filter_of_results hresults] at hcounts
  exact ⟨hcounts, htotal.trans (congrArg List.sum hunits)⟩

/-- A tally over other outcomes with the same results and weights, in any order. -/
theorem same_of_perm {capacity capacity' : Option Nat} {earlier earlier' : List Step} {options' : ParseOptions}
    {op' : Operation} (h' : parse ⟨registry, options'⟩ words = .ok op') (heval : ∀ dice, op'.eval dice = op.eval dice)
    {outcomes' : List Outcome} (hperm : outcomes.Perm outcomes') {d : Distribution}
    (hd : op.tallied capacity earlier (.given outcomes) = .ok d) :
    ∃ d', op'.tallied capacity' earlier' (.given outcomes') = .ok d' ∧ d'.Same d := by
  have hweights' : ∀ outcome ∈ outcomes', outcome.2.isWhole = true ∧ outcome.2.isBelowZero = false :=
    fun outcome hmem => hweights outcome (hperm.mem_iff.2 hmem)
  have hsum' := (hperm.map fun outcome => outcome.2.units).sum_eq
  -- the outcomes that have to have results are the same ones
  have hok := (exists_tallied_eq_ok_iff hregistry h).1 ⟨d, hd⟩
  rw [Outcomes.all_given] at hok
  obtain ⟨d', hd'⟩ : ∃ d', op'.tallied capacity' earlier' (.given outcomes') = .ok d' := by
    rw [exists_tallied_eq_ok_iff hregistry h', Outcomes.all_given]
    simp only [heval]
    exact fun outcome hmem => hok outcome (hperm.mem_iff.2 hmem)
  obtain ⟨hcounts, htotal⟩ := units_of_tallied hregistry h hweights hsum hd
  obtain ⟨hcounts', htotal'⟩ := units_of_tallied hregistry h' hweights' (hsum' ▸ hsum) hd'
  have hkeys (key : Tuple) : (d'.get? key).isSome = true ↔ (d.get? key).isSome = true := by
    rw [isSome_get?_of_tallied hregistry h' hd', isSome_get?_of_tallied hregistry h hd, Outcomes.all_given,
      Outcomes.all_given]
    simp only [heval, hperm.mem_iff]
  simp only [heval] at hcounts'
  refine ⟨d', hd', fun key => ?_, htotal'.trans (hsum'.symm.trans htotal.symm)⟩
  cases hget : d.get? key with
  | none =>
    have hnone : ¬(d'.get? key).isSome = true := by rw [hkeys, hget]; simp
    rw [Option.not_isSome_iff_eq_none.1 hnone]
  | some weight =>
    have hsome : (d'.get? key).isSome = true := by rw [hkeys, hget]; rfl
    obtain ⟨weight', hget'⟩ := Option.isSome_iff_exists.1 hsome
    rw [hget', Option.map_some, Option.map_some, hcounts key weight hget, hcounts' key weight' hget']
    exact congrArg some ((hperm.filter _).map _).sum_eq.symm

end

/-- A tally fails exactly when the operation fails on one of the outcomes, in the way it does on the first of these.
Otherwise its results are those on the outcomes, and as long as the weights are natural numbers with a sum in range,
every result has the sum of the weights of the outcomes with this result, and the total is the sum of all weights.
Neither the order of the outcomes nor caches make a difference. -/
theorem tallied_eq_image {registry : Registry} (hregistry : registry.Built) {validate memoize : Bool}
    {words : List String} {op : Operation} (h : parse ⟨registry, ⟨validate, memoize⟩⟩ words = .ok op)
    {outcomes : List Outcome}
    (hweights : ∀ outcome ∈ outcomes, outcome.2.isWhole = true ∧ outcome.2.isBelowZero = false)
    (hsum : (outcomes.map fun outcome => outcome.2.units).sum ≤ Decimal.max.units)
    (capacity capacity' : Option Nat) (earlier earlier' : List Step) :
    ((∃ e, op.tallied capacity earlier (.given outcomes) = .error e) ↔
      ∃ outcome ∈ outcomes, ∃ e, op.answer capacity' earlier' outcome.1 = .error e) ∧
    (∀ e, op.tallied capacity earlier (.given outcomes) = .error e ↔
      ∃ before first after, outcomes = before ++ first :: after ∧
        (∀ outcome ∈ before, ∃ key, op.answer capacity' earlier' outcome.1 = .ok key) ∧
        op.answer capacity' earlier' first.1 = .error e) ∧
    ∀ d, op.tallied capacity earlier (.given outcomes) = .ok d →
      (∀ key, (d.get? key).isSome = true ↔
        ∃ outcome ∈ outcomes, op.answer capacity' earlier' outcome.1 = .ok key) ∧
      (∀ key weight, d.get? key = some weight →
        weight.units = ((outcomes.filter fun outcome => op.answer capacity' earlier' outcome.1 = .ok key).map
          fun outcome => outcome.2.units).sum) ∧
      d.total.units = (outcomes.map fun outcome => outcome.2.units).sum ∧
      ∀ memoize', ∃ op', parse ⟨registry, ⟨validate, memoize'⟩⟩ words = .ok op' ∧
        ∀ outcomes', outcomes.Perm outcomes' → ∀ (capacity'' : Option Nat) (earlier'' : List Step),
          ∃ d', op'.tallied capacity'' earlier'' (.given outcomes') = .ok d' ∧ d'.Same d := by
  simp only [answer_eq hregistry h]
  refine ⟨?fails, fun e => ?first, fun d hd => ⟨fun key => ?results, ?counts, ?total, fun memoize' => ?order⟩⟩
  case fails =>
    rw [exists_eq_error_iff, exists_tallied_eq_ok_iff hregistry h, Outcomes.all_given]
    simp only [exists_eq_error_iff, not_forall, exists_prop]
  case first => rw [tallied_eq_error_iff hregistry h, Outcomes.all_given]
  case results => rw [isSome_get?_of_tallied hregistry h hd, Outcomes.all_given]
  case counts => exact (units_of_tallied hregistry h hweights hsum hd).1
  case total => exact (units_of_tallied hregistry h hweights hsum hd).2
  case order =>
    obtain ⟨op', h', heval⟩ := exists_parse_memoize h memoize'
    exact ⟨op', h', fun outcomes' hperm _ _ => same_of_perm hregistry h hweights hsum h' heval hperm hd⟩

/-- Outcomes with equal results, one with a weight that is whole with two digits after the point and one with no
weight. -/
def weightedRolls : List Outcome :=
  [([1, 2], .ofNat 2), ([2, 1], .hundredths 300 (by decide)), ([4, 3], .zero), ([1, 2], .ofNat 5)]

theorem tallied_eq_image_weightedRolls :
    ∃ op, parse ⟨sessionRegistry, ⟨true, true⟩⟩ ["[ turn add 1 ] if gt 2 then low"] = .ok op ∧
    ∀ (capacity capacity' : Option Nat) (earlier earlier' : List Step),
    ((∃ e, op.tallied capacity earlier (.given weightedRolls) = .error e) ↔
      ∃ outcome ∈ weightedRolls, ∃ e, op.answer capacity' earlier' outcome.1 = .error e) ∧
    (∀ e, op.tallied capacity earlier (.given weightedRolls) = .error e ↔
      ∃ before first after, weightedRolls = before ++ first :: after ∧
        (∀ outcome ∈ before, ∃ key, op.answer capacity' earlier' outcome.1 = .ok key) ∧
        op.answer capacity' earlier' first.1 = .error e) ∧
    ∀ d, op.tallied capacity earlier (.given weightedRolls) = .ok d →
      (∀ key, (d.get? key).isSome = true ↔
        ∃ outcome ∈ weightedRolls, op.answer capacity' earlier' outcome.1 = .ok key) ∧
      (∀ key weight, d.get? key = some weight →
        weight.units = ((weightedRolls.filter fun outcome => op.answer capacity' earlier' outcome.1 = .ok key).map
          fun outcome => outcome.2.units).sum) ∧
      d.total.units = (weightedRolls.map fun outcome => outcome.2.units).sum ∧
      ∀ memoize', ∃ op', parse ⟨sessionRegistry, ⟨true, memoize'⟩⟩ ["[ turn add 1 ] if gt 2 then low"] = .ok op' ∧
        ∀ outcomes', weightedRolls.Perm outcomes' → ∀ (capacity'' : Option Nat) (earlier'' : List Step),
          ∃ d', op'.tallied capacity'' earlier'' (.given outcomes') = .ok d' ∧ d'.Same d := by
  have hok : (parse ⟨sessionRegistry, ⟨true, true⟩⟩ ["[ turn add 1 ] if gt 2 then low"]).isOk = true := by cbv
  cases h : parse ⟨sessionRegistry, ⟨true, true⟩⟩ ["[ turn add 1 ] if gt 2 then low"] with
  | error e =>
    rw [h] at hok
    cases hok
  | ok op =>
    have hweights : ∀ outcome ∈ weightedRolls, outcome.2.isWhole = true ∧ outcome.2.isBelowZero = false := by decide
    have hsum : (weightedRolls.map fun outcome => outcome.2.units).sum ≤ Decimal.max.units := by decide
    exact ⟨op, rfl, tallied_eq_image built_sessionRegistry h hweights hsum⟩

end Operation

end DiceTally
