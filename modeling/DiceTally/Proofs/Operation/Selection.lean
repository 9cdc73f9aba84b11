import DiceTally.Proofs.Operation.Sessions
import DiceTally.Proofs.Reordering

/-!
# Order statistics

`select` gives for each index the die that has this place in ascending order, a negative index counting from the end.
What stands at a place is said without sorting (`HasPlace`): it is one of the dice, no more dice than the place are
smaller, and more dice than the place are at most as large.  There is one such value (`HasPlace.unique`), so `select` is
determined by the places of its indices (`selectPlaces_eq_ok_iff`), and the least die, the greatest die and the sorted
dice are selections (`select_eq_orderStatistics`).
-/

namespace DiceTally

/-! ### Places -/

/-- A value of the dice with at most `place` dice below it and more than `place` dice up to it. -/
structure HasPlace (dice : Tuple) (place : Int) (value : Value) : Prop where
  mem : value ∈ dice
  below : (dice.countP fun x => x < value : Int) ≤ place
  upTo : place < (dice.countP fun x => x ≤ value : Int)

namespace HasPlace

variable {dice dice' : Tuple} {place : Int} {value value' : Value}

theorem not_lt (h : HasPlace dice place value) (h' : HasPlace dice place value') : ¬value < value' := by
  intro hlt
  -- all dice up to the smaller value are below the larger one
  have hcount : (dice.countP fun x => x ≤ value) ≤ dice.countP fun x => x < value' := by
    refine List.countP_mono_left fun x _ hx => ?_
    exact decide_eq_true (Int64.lt_of_le_of_lt (of_decide_eq_true hx) hlt)
  have hupTo := h.upTo
  have hbelow := h'.below
  omega

theorem unique (h : HasPlace dice place value) (h' : HasPlace dice place value') : value = value' :=
  Int64.le_antisymm (Int64.not_lt.1 (h'.not_lt h)) (Int64.not_lt.1 (h.not_lt h'))

theorem perm (hperm : dice.Perm dice') (h : HasPlace dice place value) : HasPlace dice' place value where
  mem := hperm.mem_iff.1 h.mem
  below := by
    rw [← hperm.countP_eq]
    exact h.below
  upTo := by
    rw [← hperm.countP_eq]
    exact h.upTo

theorem of_ascending {ordered : Tuple} (hordered : ordered.Pairwise (· ≤ ·)) {i : Nat}
    (hi : ordered[i]? = some value) : HasPlace ordered i value := by
  induction ordered generalizing i with
  | nil => simp at hi
  | cons x rest ih =>
    obtain ⟨hx, hrest⟩ := List.pairwise_cons.1 hordered
    cases i with
    | zero =>
      obtain rfl : x = value := by simpa using hi
      have hnone : (rest.countP fun y => y < x) = 0 := by
        refine List.countP_eq_zero.2 fun y hy => ?_
        simpa using hx y hy
      exact ⟨List.mem_cons_self, by simp [hnone], by simp⟩
    | succ i =>
      have htail : HasPlace rest i value := ih hrest (by simpa using hi)
      have hle : x ≤ value := hx value htail.mem
      have hbelow := htail.below
      have hupTo := htail.upTo
      refine ⟨List.mem_cons_of_mem _ htail.mem, ?_, ?_⟩
      · rw [List.countP_cons]
        split <;> omega
      · rw [List.countP_cons, if_pos (decide_eq_true hle)]
        omega

theorem of_sorted {i : Nat} (hi : (sorted dice)[i]? = some value) : HasPlace dice i value :=
  (of_ascending (pairwise_sorted dice) hi).perm (List.mergeSort_perm dice _)

theorem of_least (hmem : value ∈ dice) (hle : ∀ x ∈ dice, value ≤ x) : HasPlace dice 0 value where
  mem := hmem
  below := by
    have hnone : (dice.countP fun x => x < value) = 0 := by
      refine List.countP_eq_zero.2 fun x hx => ?_
      simpa using hle x hx
    omega
  upTo := by
    have hself : 0 < dice.countP fun x => x ≤ value :=
      List.countP_pos_iff.2 ⟨value, hmem, decide_eq_true (Int64.le_refl value)⟩
    omega

theorem of_greatest (hmem : value ∈ dice) (hle : ∀ x ∈ dice, x ≤ value) :
    HasPlace dice (dice.length - 1) value where
  mem := hmem
  below := by
    have hself : (dice.countP fun x => x < value) < dice.length :=
      List.countP_lt_length_iff.2 ⟨value, hmem, decide_eq_false Int64.lt_irrefl⟩
    omega
  upTo := by
    have hall : (dice.countP fun x => x ≤ value) = dice.length :=
      List.countP_eq_length.2 fun x hx => decide_eq_true (hle x hx)
    omega

end HasPlace

/-! ### Indices -/

/-- The indices of so many dice, those from the end being negative. -/
def IsIndex (count : Nat) (index : Value) : Prop := -(count : Int) ≤ index.toInt ∧ index.toInt < count

instance (count : Nat) (index : Value) : Decidable (IsIndex count index) :=
  inferInstanceAs (Decidable (_ ∧ _))

/-- The place that an index means. -/
def placeFor (count : Nat) (index : Value) : Int :=
  if 0 ≤ index.toInt then index.toInt else count + index.toInt

theorem isIndex_iff (count : Nat) (index : Value) :
    IsIndex count index ↔ 0 ≤ placeFor count index ∧ placeFor count index < count := by
  unfold IsIndex placeFor
  split <;> omega

/-- An index finds the value at its place, or it is out of range. -/
theorem placeAt_cases (dice : Tuple) (index : Value) :
    (IsIndex dice.length index ∧ ∃ value, placeAt (sorted dice) index = .ok value ∧
        HasPlace dice (placeFor dice.length index) value) ∨
      ¬IsIndex dice.length index ∧ placeAt (sorted dice) index = .error (.indexOutOfRange index dice.length) := by
  have hlength : (sorted dice).length = dice.length := List.length_mergeSort dice
  have hplace : (if index < 0 then ((sorted dice).length : Int) + index.toInt else index.toInt) =
      placeFor dice.length index := by
    rw [hlength, placeFor]
    by_cases h : index < 0
    · have hneg : index.toInt < 0 := Int64.lt_iff_toInt_lt.1 h
      rw [if_pos h, if_neg (by omega)]
    · have hnonneg : 0 ≤ index.toInt := Int64.le_iff_toInt_le.1 (Int64.not_lt.1 h)
      rw [if_neg h, if_pos hnonneg]
  unfold placeAt
  rw [hplace, hlength, isIndex_iff]
  dsimp only
  generalize placeFor dice.length index = place
  by_cases hrange : 0 ≤ place ∧ place < dice.length
  · obtain ⟨i, rfl⟩ := Int.eq_ofNat_of_zero_le hrange.1
    have hi : i < (sorted dice).length := by omega
    have hvalue := List.getElem?_eq_getElem hi
    refine .inl ⟨hrange, (sorted dice)[i], ?_, .of_sorted hvalue⟩
    rw [if_neg (by omega), Int.toNat_natCast, hvalue]
  · refine .inr ⟨hrange, ?_⟩
    by_cases hneg : place < 0
    · rw [if_pos hneg]
    · have hnone : (sorted dice)[place.toNat]? = none := List.getElem?_eq_none (by omega)
      rw [if_neg hneg, hnone]

theorem placeAt_eq_ok_iff (dice : Tuple) (index value : Value) :
    placeAt (sorted dice) index = .ok value ↔
      IsIndex dice.length index ∧ HasPlace dice (placeFor dice.length index) value := by
  rcases placeAt_cases dice index with ⟨hindex, v, hv, hplace⟩ | ⟨hindex, herror⟩
  · rw [hv, Except.ok.injEq]
    constructor
    · rintro rfl
      exact ⟨hindex, hplace⟩
    · rintro ⟨-, h⟩
      exact hplace.unique h
  · rw [herror]
    exact iff_of_false (by simp) fun h => hindex h.1

/-- A selection is determined by the places of its indices. -/
theorem selectPlaces_eq_ok_iff {indices : List Value} {dice result : Tuple} :
    selectPlaces indices dice = .ok result ↔
      List.Forall₂ (fun index value => IsIndex dice.length index ∧ HasPlace dice (placeFor dice.length index) value)
        indices result := by
  simp only [selectPlaces, mapM_eq_ok_iff, placeAt_eq_ok_iff]

theorem exists_selectPlaces_iff {indices : List Value} {dice : Tuple} :
    (∃ result, selectPlaces indices dice = .ok result) ↔ ∀ index ∈ indices, IsIndex dice.length index := by
  constructor
  · rintro ⟨result, h⟩ index hindex
    obtain ⟨value, -, hvalue⟩ := exists_of_mem_forall₂ (mapM_eq_ok_iff.1 h) hindex
    exact ((placeAt_eq_ok_iff ..).1 hvalue).1
  · intro h
    refine exists_mapM_eq_ok fun index hindex => ?_
    rcases placeAt_cases dice index with ⟨-, value, hvalue, -⟩ | ⟨hnot, -⟩
    · exact ⟨value, hvalue⟩
    · exact absurd (h index hindex) hnot

/-- The first index that is out of range is reported. -/
theorem selectPlaces_eq_error {dice : Tuple} {before after : List Value} {index : Value}
    (hbefore : ∀ i ∈ before, IsIndex dice.length i) (hindex : ¬IsIndex dice.length index) :
    selectPlaces (before ++ index :: after) dice = .error (.indexOutOfRange index dice.length) := by
  refine mapM_eq_error_iff.2 ⟨before, index, after, rfl, fun i hi => ?_, ?_⟩
  · rcases placeAt_cases dice i with ⟨-, value, hvalue, -⟩ | ⟨hnot, -⟩
    · exact ⟨value, hvalue⟩
    · exact absurd (hbefore i hi) hnot
  · rcases placeAt_cases dice index with ⟨h, -⟩ | ⟨-, herror⟩
    · exact absurd h hindex
    · exact herror

/-! ### Extremes -/

/-- A fold that keeps the better of two values ends with the best. -/
theorem foldl_best (better : Value → Value → Prop) (htrans : ∀ a b c, better a b → better b c → better a c)
    (hrefl : ∀ a, better a a) (f : Value → Value → Value)
    (hf : ∀ a b, (f a b = a ∨ f a b = b) ∧ better (f a b) a ∧ better (f a b) b) (x : Value) (xs : Tuple) :
    xs.foldl f x ∈ x :: xs ∧ ∀ y ∈ x :: xs, better (xs.foldl f x) y := by
  induction xs generalizing x with
  | nil => simp [hrefl]
  | cons y xs ih =>
    obtain ⟨hmem, hbest⟩ := ih (f x y)
    obtain ⟨hpick, hx, hy⟩ := hf x y
    obtain ⟨hfirst, hrest⟩ := List.forall_mem_cons.1 hbest
    rw [List.foldl_cons]
    constructor
    · rcases List.mem_cons.1 hmem with h | h
      · rw [h]
        rcases hpick with h | h <;> simp [h]
      · exact List.mem_cons_of_mem _ (List.mem_cons_of_mem _ h)
    · intro z hz
      rcases List.mem_cons.1 hz with rfl | hz
      · exact htrans _ _ _ hfirst hx
      · rcases List.mem_cons.1 hz with rfl | hz
        · exact htrans _ _ _ hfirst hy
        · exact hrest z hz

theorem exists_least {dice : Tuple} (h : dice ≠ []) :
    ∃ value, Reduction.min.apply dice = .ok value ∧ HasPlace dice 0 value := by
  obtain ⟨x, xs, rfl⟩ := List.exists_cons_of_ne_nil h
  have hbest := foldl_best (· ≤ ·) (fun _ _ _ => Int64.le_trans) Int64.le_refl
    (fun a b => if b < a then b else a) (fun a b => by
      by_cases hba : b < a
      · simp [hba, Int64.le_of_lt hba]
      · simp [hba, Int64.not_lt.1 hba]) x xs
  exact ⟨_, rfl, .of_least hbest.1 hbest.2⟩

theorem exists_greatest {dice : Tuple} (h : dice ≠ []) :
    ∃ value, Reduction.max.apply dice = .ok value ∧ HasPlace dice (dice.length - 1) value := by
  obtain ⟨x, xs, rfl⟩ := List.exists_cons_of_ne_nil h
  have hbest := foldl_best (fun a b => b ≤ a) (fun _ _ _ hab hbc => Int64.le_trans hbc hab) Int64.le_refl
    (fun a b => if a < b then b else a) (fun a b => by
      by_cases hab : a < b
      · simp [hab, Int64.le_of_lt hab]
      · simp [hab, Int64.not_lt.1 hab]) x xs
  exact ⟨_, rfl, .of_greatest hbest.1 hbest.2⟩

/-- The places `0`, `1` and so on up to the last are the sorted dice. -/
theorem selectPlaces_all {dice : Tuple} {places : List Value}
    (hplaces : places.map Int64.toInt = (List.range dice.length).map Int.ofNat) :
    selectPlaces places dice = .ok (sorted dice) := by
  have hlength : (sorted dice).length = dice.length := List.length_mergeSort dice
  have hcount : places.length = dice.length := by simpa using congrArg List.length hplaces
  refine selectPlaces_eq_ok_iff.2 (List.forall₂_iff_get.2 ⟨hcount.trans hlength.symm, fun i hi hi' => ?_⟩)
  have hplace : (places[i]).toInt = i := by
    have hi'' : i < (places.map Int64.toInt).length := by simpa using hi
    have heq := List.getElem_of_eq hplaces hi''
    simpa using heq
  have hfor : placeFor dice.length places[i] = i := by
    rw [placeFor, hplace, if_pos (Int.natCast_nonneg i)]
  have hindex : IsIndex dice.length places[i] := by
    unfold IsIndex
    omega
  refine ⟨hindex, ?_⟩
  rw [List.get_eq_getElem, hfor]
  exact .of_sorted (List.getElem?_eq_getElem hi')

namespace Operation

theorem eval_sort_select (indices : List Value) (dice : Tuple) :
    (andThen (primitive .sort) (primitive (.select indices))).eval dice = (primitive (.select indices)).eval dice := by
  change selectPlaces indices (sorted dice) = selectPlaces indices dice
  have hsorted : sorted (sorted dice) = sorted dice := sorted_perm (List.mergeSort_perm dice _)
  rw [selectPlaces, selectPlaces, hsorted]

section

variable {dice : Tuple}

theorem eval_select_eq_reduce {reduction : Reduction} {index value : Value} (hindex : IsIndex dice.length index)
    (hplace : HasPlace dice (placeFor dice.length index) value) (hvalue : reduction.apply dice = .ok value) :
    (primitive (.select [index])).eval dice = (primitive (.reduce reduction)).eval dice := by
  have hselect : selectPlaces [index] dice = .ok [value] := selectPlaces_eq_ok_iff.2 (.cons ⟨hindex, hplace⟩ .nil)
  rw [eval, eval, Primitive.apply, Primitive.apply, hselect, hvalue]
  rfl

variable (hdice : dice ≠ [])

include hdice

theorem eval_select_first : (primitive (.select [0])).eval dice = (primitive (.reduce .min)).eval dice := by
  obtain ⟨value, hvalue, hplace⟩ := exists_least hdice
  have hpos := List.length_pos_iff.2 hdice
  have hindex : IsIndex dice.length 0 := ⟨by simp, by simpa using hpos⟩
  exact eval_select_eq_reduce hindex hplace hvalue

theorem eval_select_last : (primitive (.select [-1])).eval dice = (primitive (.reduce .max)).eval dice := by
  obtain ⟨value, hvalue, hplace⟩ := exists_greatest hdice
  have hpos := List.length_pos_iff.2 hdice
  have hminus : (-1 : Value).toInt = -1 := by decide
  have hindex : IsIndex dice.length (-1) := by
    unfold IsIndex
    omega
  have hfor : placeFor dice.length (-1) = dice.length - 1 := by
    rw [placeFor, hminus, if_neg (by decide)]
    omega
  rw [← hfor] at hplace
  exact eval_select_eq_reduce hindex hplace hvalue

end

/-- `select` gives the order statistics of the dice.  It fails at the first index that is out of range; otherwise it
gives the value at the place of each index.  Sorting first makes no difference, and the least die, the greatest die and
the sorted dice are selections. -/
theorem select_eq_orderStatistics (indices : List Value) (dice : Tuple) :
    ((∃ result, (primitive (.select indices)).eval dice = .ok result) ↔
        ∀ index ∈ indices, -(dice.length : Int) ≤ index.toInt ∧ index.toInt < dice.length) ∧
      (∀ before index after, indices = before ++ index :: after → (∀ i ∈ before, IsIndex dice.length i) →
        ¬IsIndex dice.length index →
          (primitive (.select indices)).eval dice = .error (.indexOutOfRange index dice.length)) ∧
      (∀ result, (primitive (.select indices)).eval dice = .ok result →
        List.Forall₂ (fun index value => HasPlace dice (placeFor dice.length index) value) indices result) ∧
      (andThen (primitive .sort) (primitive (.select indices))).eval dice = (primitive (.select indices)).eval dice ∧
      (dice ≠ [] →
        (primitive (.select [0])).eval dice = (primitive (.reduce .min)).eval dice ∧
          (primitive (.select [-1])).eval dice = (primitive (.reduce .max)).eval dice ∧
          ∀ places : List Value, places.map Int64.toInt = (List.range dice.length).map Int.ofNat →
            (primitive (.select places)).eval dice = (primitive .sort).eval dice) := by
  refine ⟨exists_selectPlaces_iff, ?_, ?_, eval_sort_select indices dice, fun hdice => ?_⟩
  · rintro before index after rfl hbefore hindex
    exact selectPlaces_eq_error hbefore hindex
  · intro result hresult
    exact (selectPlaces_eq_ok_iff.1 hresult).imp fun _ _ h => h.2
  · exact ⟨eval_select_first hdice, eval_select_last hdice, fun places hplaces => selectPlaces_all hplaces⟩

theorem select_eq_orderStatistics_repeated :
    (primitive (.select [-2, 0, 1])).eval [4, -3, 4] = .ok [4, -3, 4] ∧
      List.Forall₂ (fun index value => HasPlace [4, -3, 4] (placeFor 3 index) value) [-2, 0, 1] [4, -3, 4] ∧
      (primitive (.select [2, 3, -4])).eval [4, -3, 4] = .error (.indexOutOfRange 3 3) ∧
      (primitive (.select [-1])).eval [4, -3, 4] = .ok [4] ∧
      (primitive (.select [0, 1, 2])).eval [4, -3, 4] = .ok [-3, 4, 4] := by
  have hok : (primitive (.select [-2, 0, 1])).eval [4, -3, 4] = .ok [4, -3, 4] := by cbv
  have hplaces := (select_eq_orderStatistics [-2, 0, 1] [4, -3, 4]).2.2.1 _ hok
  have herror := (select_eq_orderStatistics [2, 3, -4] [4, -3, 4]).2.1 [2] 3 [-4] rfl (by simp [IsIndex]) (by decide)
  obtain ⟨-, hgreatest, hall⟩ := (select_eq_orderStatistics [-2, 0, 1] [4, -3, 4]).2.2.2.2 (by decide)
  exact ⟨hok, hplaces, herror, hgreatest.trans (by cbv), (hall [0, 1, 2] (by decide)).trans (by cbv)⟩

/-- Evaluators that have been used before select in the same way. -/
theorem answer_select (indices : List Value) (dice : Tuple) (evaluator : (primitive (.select indices)).Evaluator) :
    (∀ result, evaluator.answer dice = .ok result ↔
        List.Forall₂ (fun index value => IsIndex dice.length index ∧ HasPlace dice (placeFor dice.length index) value)
          indices result) ∧
      (∀ before index after, indices = before ++ index :: after → (∀ i ∈ before, IsIndex dice.length i) →
        ¬IsIndex dice.length index → evaluator.answer dice = .error (.indexOutOfRange index dice.length)) ∧
      (∀ sorting : (andThen (primitive .sort) (primitive (.select indices))).Evaluator,
        sorting.answer dice = evaluator.answer dice) ∧
      (dice ≠ [] → indices = [0] → ∀ least : (primitive (.reduce .min)).Evaluator,
        evaluator.answer dice = least.answer dice) ∧
      (dice ≠ [] → indices = [-1] → ∀ greatest : (primitive (.reduce .max)).Evaluator,
        evaluator.answer dice = greatest.answer dice) ∧
      (indices.map Int64.toInt = (List.range dice.length).map Int.ofNat → ∀ sorting : (primitive .sort).Evaluator,
        evaluator.answer dice = sorting.answer dice) := by
  rw [evaluator.answer_primitive]
  refine ⟨fun result => selectPlaces_eq_ok_iff, ?_, fun sorting => ?_, ?_, ?_, fun hall _ => selectPlaces_all hall⟩
  · rintro before index after rfl hbefore hindex
    exact selectPlaces_eq_error hbefore hindex
  · have hop : (andThen (primitive .sort) (primitive (.select indices))).Linked .empty := ⟨trivial, trivial⟩
    have happart : (andThen (primitive .sort) (primitive (.select indices))).Apart := List.nodup_nil
    rw [sorting.answer_of_linked Registry.Built.empty.parsed hop happart]
    exact eval_sort_select indices dice
  · rintro hdice rfl _
    exact eval_select_first hdice
  · rintro hdice rfl _
    exact eval_select_last hdice

end Operation

end DiceTally
