import DiceTally.Proofs.Outcome.Enumeration
import DiceTally.Proofs.Recombination

/-!
# Combinations of distributions

Combining hands out the product of the entries of the distributions, numbered as the rolls of a pool are, each with the
keys one after the other and the product of the counts.  For natural counts the weights add up to the product of the
totals, and some of the distributions may be combined and tallied first (`combine_eq_product`): equal keys that this
merges, and weights that it brings into range, make no difference.
-/

namespace DiceTally

open DiceTally.Distribution (ofWeights)

namespace Decimal

/-! ### Sums that are brought into range -/

theorem ofNat_add_congr {a a' b b' : Nat} (ha : ofNat a = ofNat a') (hb : ofNat b = ofNat b') :
    ofNat (a + b) = ofNat (a' + b') := by
  rw [← addSaturating_ofNat, ha, hb, addSaturating_ofNat]

theorem ofNat_mul_congr {a a' : Nat} (ha : ofNat a = ofNat a') (b : Nat) : ofNat (a * b) = ofNat (a' * b) := by
  rw [← mulSaturating_ofNat, ha, mulSaturating_ofNat]

theorem ofNat_sum_congr {ι : Type} (s : Finset ι) {f g : ι → Nat} (h : ∀ i, ofNat (f i) = ofNat (g i)) :
    ofNat (∑ i ∈ s, f i) = ofNat (∑ i ∈ s, g i) := by
  classical
  induction s using Finset.induction_on with
  | empty => rfl
  | insert i s hi ih =>
    rw [Finset.sum_insert hi, Finset.sum_insert hi]
    exact ofNat_add_congr (h i) ih

theorem ofNat_mantissa_ofNat (n : Nat) : ofNat (ofNat n).mantissa = ofNat n :=
  (eq_ofNat (negative_ofNat n) (scale_ofNat n)).symm

end Decimal

/-! ### Merging in range -/

/-- The same results, and weights that are the same when they are brought into range. -/
structure MergesInRange (results merged : List (Tuple × Nat)) : Prop where
  ofNat_weightAt_eq : ∀ k, Decimal.ofNat (weightAt results k) = .ofNat (weightAt merged k)
  mem_iff : ∀ k, k ∈ results.map Prod.fst ↔ k ∈ merged.map Prod.fst

namespace Distribution.Counts

variable {d : Distribution} {results merged : List (Tuple × Nat)}

/-- A distribution holds what it counts. -/
theorem mergesInRange (h : d.Counts results) : MergesInRange d.weights results where
  ofNat_weightAt_eq k := by
    rw [weightAt_weights, h k]
    by_cases hmem : k ∈ results.map Prod.fst
    · rw [if_pos hmem]
      exact Decimal.ofNat_mantissa_ofNat _
    · rw [if_neg hmem, weightAt_eq_zero hmem]
      rfl
  mem_iff := h.mem_weights_iff

theorem congr_mergesInRange (h : d.Counts results) (hmerges : MergesInRange results merged) : d.Counts merged := by
  intro k
  rw [h k, hmerges.ofNat_weightAt_eq]
  simp only [hmerges.mem_iff]

end Distribution.Counts

/-- Results may be merged and their weights brought into range before they are joined with others. -/
theorem MergesInRange.joined_cons {results merged : List (Tuple × Nat)} (h : MergesInRange results merged)
    (lists : List (List (Tuple × Nat))) : MergesInRange (joined (results :: lists)) (joined (merged :: lists)) where
  ofNat_weightAt_eq k := by
    unfold joined
    rw [weightAt_choices _ List.flatten, weightAt_choices _ List.flatten, jointSum_cons, jointSum_cons]
    obtain ⟨s, hs⟩ := exists_sum_eq_sum_weightAt results merged
    rw [(hs fun key => jointSum lists fun ks => if (key :: ks).flatten = k then 1 else 0).1,
      (hs fun key => jointSum lists fun ks => if (key :: ks).flatten = k then 1 else 0).2]
    exact Decimal.ofNat_sum_congr s fun key => Decimal.ofNat_mul_congr (h.ofNat_weightAt_eq key) _
  mem_iff := mem_joined_congr (.cons h.mem_iff (List.forall₂_same.2 fun _ _ _ => Iff.rfl))

/-- Joint results may be joined with others. -/
theorem joined_joined (front back : List (List (Tuple × Nat))) :
    joined (joined front :: back) = joined (front ++ back) := by
  simp [joined, choices, choices_append, List.map_flatMap, List.flatMap_map, Function.comp_def]

/-! ### Tallies of `id` -/

/-- What `id` gives is what it is given. -/
theorem Operation.eval_of_id {registry : Registry} (hregistry : registry.Built) {options : ParseOptions}
    {words : List String} {op : Operation} (h : parse ⟨registry, options⟩ words = .ok op)
    (hid : Token.normalize words = ["id"]) (dice : Tuple) : op.eval dice = .ok dice := by
  have hmeans : Means registry (Token.normalize words) (primitive .identity) := by
    rw [hid]
    have hstage : StageMeans registry ("id" :: [] ++ []) [] (primitive .identity) :=
      stageMeans_builtIn hregistry (by decide) (by decide) (by simp) rfl .nothing
    exact hstage.last
  obtain ⟨read, hread, hsame⟩ := parse_of_means hmeans options
  obtain rfl : op = read := Except.ok.inj (h.symm.trans hread)
  exact (hsame.sameResults dice dice).2 rfl

namespace Program

variable {p : Program} (hid : Token.normalize p.words = ["id"])

include hid

theorem results_of_id (outcomes : List (Tuple × Nat)) : p.op.results outcomes = outcomes := by
  have hvalue (dice : Tuple) : p.op.value dice = dice :=
    Operation.value_eq (Operation.eval_of_id p.built p.parse_eq hid dice)
  simp [Operation.results, hvalue]

/-- Combinations of natural counts are counted. -/
theorem tally_combine_of_id {ds : List Distribution} (hne : ds ≠ []) (h : ∀ d ∈ ds, d.NaturalCounts) :
    ∃ d, p.tally (.combine ds) = .ok d ∧ d.Counts (joined (ds.map Distribution.weights)) := by
  rcases p.tally_cases (all_combine_of_natural hne h) with ⟨⟨x, -, e, he⟩, -⟩ | ⟨-, d, hd, hcounts⟩
  · rw [Operation.eval_of_id p.built p.parse_eq hid] at he
    cases he
  · rw [results_of_id hid] at hcounts
    exact ⟨d, hd, hcounts⟩

/-- Distributions at the front may be combined and tallied first. -/
theorem tally_combine_regrouped {front back : List Distribution} (hne : front ≠ [])
    (h : ∀ d ∈ front ++ back, d.NaturalCounts) :
    ∃ part whole regrouped, p.tally (.combine front) = .ok part ∧ p.tally (.combine (front ++ back)) = .ok whole ∧
      p.tally (.combine (part :: back)) = .ok regrouped ∧ regrouped.entries = whole.entries := by
  have hfront : ∀ d ∈ front, d.NaturalCounts := fun d hd => h d (List.mem_append_left _ hd)
  have hback : ∀ d ∈ back, d.NaturalCounts := fun d hd => h d (List.mem_append_right _ hd)
  obtain ⟨part, hpart, hcounts⟩ := tally_combine_of_id hid hne hfront
  obtain ⟨whole, hwhole, hcountsWhole⟩ := tally_combine_of_id hid (by simp [hne]) h
  obtain ⟨regrouped, hregrouped, hcountsRegrouped⟩ :=
    tally_combine_of_id hid (List.cons_ne_nil part back) (List.forall_mem_cons.2 ⟨hcounts.naturalCounts, hback⟩)
  refine ⟨part, whole, regrouped, hpart, hwhole, hregrouped, ?_⟩
  have hmerges := hcounts.mergesInRange.joined_cons (back.map Distribution.weights)
  rw [joined_joined, ← List.map_append] at hmerges
  exact Distribution.entries_ext fun k =>
    (hcountsRegrouped.congr_mergesInRange hmerges k).trans (hcountsWhole k).symm

end Program

/-! ### The product of the entries -/

namespace Distribution

/-- The numbers of entries. -/
def sizes (ds : List Distribution) : List Nat := ds.map size

/-- The entries at given positions, one of each distribution. -/
def partsAt (ds : List Distribution) (positions : List Nat) : Option (List Outcome) :=
  entriesAt (ds.map (·.entries)) positions

theorem map_length_entries (ds : List Distribution) : (ds.map (·.entries)).map List.length = sizes ds := by
  rw [List.map_map]
  exact List.map_congr_left fun d _ => Std.TreeMap.length_toList

theorem pairwise_entries (d : Distribution) : d.entries.Pairwise fun a b => compare a.1 b.1 = .lt :=
  Std.TreeMap.ordered_keys_toList

end Distribution

open DiceTally.Distribution (sizes partsAt map_length_entries)

namespace Outcomes

variable {ds : List Distribution}

theorem length_all_combine (hne : ds ≠ []) : (combine ds).all.length = (sizes ds).prod := by
  rw [all_combine hne, List.length_map, length_choices, map_length_entries]

/-- The combination with a number joins the entries at the digits of the number. -/
theorem exists_combination (hne : ds ≠ []) {k : Nat} (h : k < (sizes ds).prod) :
    ∃ parts, partsAt ds (MixedRadix.digits (sizes ds) k) = some parts ∧
      (combine ds).answer k = some (.join parts) := by
  have hlength : k < (choices (ds.map (·.entries))).length := by rwa [length_choices, map_length_entries]
  have hparts := getElem?_choices (ds.map (·.entries)) k (by rwa [map_length_entries])
  rw [map_length_entries, List.getElem?_eq_getElem hlength] at hparts
  refine ⟨_, hparts.symm, ?_⟩
  rw [answer_eq_getElem?, all_combine hne, List.getElem?_map, List.getElem?_eq_getElem hlength]
  rfl

theorem answer_combine_of_empty (h : ds = [] ∨ ∃ d ∈ ds, d.size = 0) (k : Nat) : (combine ds).answer k = none := by
  rw [answer_eq_getElem?]
  by_cases hne : ds = []
  · subst hne
    rfl
  · obtain ⟨d, hd, hsize⟩ := h.resolve_left hne
    have hzero : (sizes ds).prod = 0 := List.prod_eq_zero (List.mem_map.2 ⟨d, hd, hsize⟩)
    exact List.getElem?_eq_none (by rw [length_all_combine hne, hzero]; exact Nat.zero_le k)

/-- Natural counts in range: the weights add up to the product of the totals. -/
theorem sum_weights_combine (hne : ds ≠ []) (h : ∀ d ∈ ds, d.NaturalCounts)
    (htotal : (ds.map Distribution.exactTotal).prod ≤ Decimal.max.toInt.toNat) :
    ((combine ds).all.map fun outcome => outcome.2.toInt.toNat).sum = (ds.map Distribution.exactTotal).prod := by
  have hproduct : totalWeight (joined (ds.map Distribution.weights)) = (ds.map Distribution.exactTotal).prod := by
    rw [totalWeight_joined, List.map_map]
    exact congrArg List.prod (List.map_congr_left fun d hd => (h d hd).exactTotal_eq.symm)
  have hmax : Decimal.max.toInt.toNat < mantissaBound := by decide
  rw [all_combine_of_natural hne h, ← hproduct, totalWeight, ofWeights, List.map_map]
  refine congrArg List.sum (List.map_congr_left fun r hr => ?_)
  have hle : r.2 ≤ totalWeight (joined (ds.map Distribution.weights)) :=
    List.le_sum_of_mem (List.mem_map.2 ⟨r, hr, rfl⟩)
  have htoInt : (Decimal.ofNat r.2).toInt = r.2 := Decimal.toInt_ofNat (by omega)
  simp [htoInt]

end Outcomes

open MixedRadix in
/-- Combining no distributions, or an empty one among others, hands out nothing.  Otherwise the combinations handed out
are those of the Cartesian product of the entries, in lexicographic order of the positions, and each once: the one with
number `k` takes the entries at the digits of `k`, its tuple is made of their keys one after the other, and its weight
is the product of their counts from left to right, the largest number standing for one out of range.  The entries of
a distribution are in the order of their keys.  For natural counts the weights add up to the product of the totals, as
long as this is in range, and distributions at the front may be combined and tallied first. -/
theorem combine_eq_product (ds : List Distribution) :
    ((ds = [] ∨ ∃ d ∈ ds, d.size = 0) → ∀ k, (Outcomes.combine ds).answer k = none) ∧
    (ds ≠ [] → ∀ k < (sizes ds).prod, ∃ parts, partsAt ds (digits (sizes ds) k) = some parts ∧
      (Outcomes.combine ds).answer k =
        some ((parts.map Prod.fst).flatten,
          (parts.map Prod.snd).foldl (fun product count => (product.mul? count).getD .max) .one)) ∧
    (∀ k, (sizes ds).prod ≤ k → (Outcomes.combine ds).answer k = none) ∧
    (∀ k < (sizes ds).prod,
      List.Forall₂ (· < ·) (digits (sizes ds) k) (sizes ds) ∧ number (sizes ds) (digits (sizes ds) k) = k) ∧
    (∀ positions, List.Forall₂ (· < ·) positions (sizes ds) → ∃ k < (sizes ds).prod, digits (sizes ds) k = positions) ∧
    (∀ j k, j < k → k < (sizes ds).prod → digits (sizes ds) j < digits (sizes ds) k) ∧
    (∀ d ∈ ds, d.entries.length = d.size ∧ d.entries.Pairwise fun a b => compare a.1 b.1 = .lt) ∧
    (ds ≠ [] → (∀ d ∈ ds, d.NaturalCounts) →
      ((ds.map Distribution.exactTotal).prod ≤ Decimal.max.toInt.toNat →
        ((Outcomes.combine ds).all.map fun outcome => outcome.2.toInt.toNat).sum =
          (ds.map Distribution.exactTotal).prod) ∧
      ∀ p : Program, Token.normalize p.words = ["id"] → ∀ front back, ds = front ++ back → front ≠ [] →
        ∃ part whole regrouped, p.tally (.combine front) = .ok part ∧ p.tally (.combine ds) = .ok whole ∧
          p.tally (.combine (part :: back)) = .ok regrouped ∧ regrouped.entries = whole.entries) := by
  refine ⟨Outcomes.answer_combine_of_empty, ?choices, ?ends, fun k hk => ⟨digits_lt hk, number_digits hk⟩,
    fun positions h => ⟨_, number_lt h, digits_number h⟩, fun j k => digits_lt_digits,
    fun d _ => ⟨Std.TreeMap.length_toList, d.pairwise_entries⟩, ?natural⟩
  case choices =>
    intro hne k hk
    obtain ⟨parts, hparts, hanswer⟩ := Outcomes.exists_combination hne hk
    exact ⟨parts, hparts, by rw [hanswer, Outcome.join, List.flatMap_def]; rfl⟩
  case ends =>
    intro k hk
    by_cases hne : ds = []
    · exact Outcomes.answer_combine_of_empty (.inl hne) k
    · rw [Outcomes.answer_eq_getElem?]
      exact List.getElem?_eq_none (Outcomes.length_all_combine hne ▸ hk)
  case natural =>
    intro hne hnatural
    refine ⟨Outcomes.sum_weights_combine hne hnatural, ?_⟩
    rintro p hid front back rfl hfront
    exact p.tally_combine_regrouped hid hfront hnatural

/-- A distribution of two results. -/
def twoResults (key key' : Tuple) (count count' : Decimal) : Distribution :=
  (Distribution.empty.add key count).add key' count'

/-- Two ways to join keys of the first two distributions have the same result. -/
def pieces : List Distribution :=
  [twoResults [1] [1, 2] (.ofNat 2) (.ofNat 3), twoResults [3] [2, 3] (.ofNat 7) (.ofNat 5),
    twoResults [0] [] .one .one]

def unchanged : Program where
  registry := .empty
  built := .empty
  options := ⟨true, true⟩
  words := ["id"]
  op := .validated (.primitive .identity)
  parse_eq := by cbv
  capacity := none

theorem combine_eq_product_pieces :
    (Distribution.empty.size = 0 ∧ (Outcomes.combine [.empty]).answer 0 = none) ∧
    (5 < (sizes pieces).prod ∧ ∃ parts, partsAt pieces (MixedRadix.digits (sizes pieces) 5) = some parts ∧
      (Outcomes.combine pieces).answer 5 =
        some ((parts.map Prod.fst).flatten,
          (parts.map Prod.snd).foldl (fun product count => (product.mul? count).getD .max) .one)) ∧
    (∀ d ∈ pieces, d.NaturalCounts) ∧
    ((pieces.map Distribution.exactTotal).prod ≤ Decimal.max.toInt.toNat ∧
      ((Outcomes.combine pieces).all.map fun outcome => outcome.2.toInt.toNat).sum =
        (pieces.map Distribution.exactTotal).prod) ∧
    Token.normalize unchanged.words = ["id"] ∧
      ∃ part whole regrouped, unchanged.tally (.combine (pieces.take 2)) = .ok part ∧
        unchanged.tally (.combine pieces) = .ok whole ∧
        unchanged.tally (.combine (part :: pieces.drop 2)) = .ok regrouped ∧ regrouped.entries = whole.entries := by
  have hempty : Distribution.empty.size = 0 := rfl
  have hnumber : 5 < (sizes pieces).prod := by decide +kernel
  have htotal : (pieces.map Distribution.exactTotal).prod ≤ Decimal.max.toInt.toNat := by decide +kernel
  have hforms : ∀ d ∈ pieces, ∀ entry ∈ d.entries, entry.2.scale = 0 ∧ entry.2.isBelowZero = false := by decide +kernel
  have hnatural : ∀ d ∈ pieces, d.NaturalCounts := fun d hd entry hentry =>
    ⟨(hforms d hd entry hentry).1, (hforms d hd entry hentry).2⟩
  have hid : Token.normalize unchanged.words = ["id"] := by decide
  have hne : pieces ≠ [] := List.cons_ne_nil _ _
  obtain ⟨-, hparts, -, -, -, -, -, hcounts⟩ := combine_eq_product pieces
  obtain ⟨hsum, hregrouped⟩ := hcounts hne hnatural
  refine ⟨⟨hempty, ?_⟩, ⟨hnumber, hparts hne 5 hnumber⟩, hnatural, ⟨htotal, hsum htotal⟩, hid, ?_⟩
  · exact (combine_eq_product [.empty]).1 (.inr ⟨.empty, List.mem_cons_self, hempty⟩) 0
  · exact hregrouped unchanged hid _ _ (List.take_append_drop 2 pieces).symm (by simp [pieces])

/-- Three results, the counts of the first two with a product out of range. -/
def beyondRange : List Distribution :=
  [Distribution.empty.add [1] .max, Distribution.empty.add [2] (.ofNat 2),
    Distribution.empty.add [3] ⟨false, 5, 1, by decide, by decide⟩]

/-- Whole counts, one of them below zero, with totals `1` and `Decimal.max`. -/
def belowZero : List Distribution :=
  [twoResults [0] [1] (.ofNat 2) (.ofValue (-1)), Distribution.empty.add [0] .max]

/-- A product that leaves the range does not come back exactly, although twice one half is one, and with counts below
zero the weights need not add up to the product of the totals. -/
theorem combine_leaves_range :
    (∃ weight, (Outcomes.combine beyondRange).answer 0 = some ([1, 2, 3], weight) ∧
      weight.units * tenTo 28 * tenTo 28 ≠
        ((beyondRange.flatMap (·.entries)).map fun entry => entry.2.units).prod) ∧
    (∀ d ∈ belowZero, ∀ entry ∈ d.entries, entry.2.scale = 0) ∧
    (belowZero.map fun d => (d.entries.map fun entry => entry.2.toInt).sum).prod = Decimal.max.toInt ∧
    ((Outcomes.combine belowZero).all.map fun outcome => outcome.2.toInt).sum ≠ Decimal.max.toInt := by
  refine ⟨⟨⟨false, mantissaBound / 2, 0, by decide, by decide⟩, by decide +kernel, by decide +kernel⟩, ?_⟩
  decide +kernel

end DiceTally
