import DiceTally.Dice.Pool
import DiceTally.Proofs.Except
import Mathlib.Algebra.Ring.Nat

/-!
# Dealing values out to dice

A pool is made of a list of values exactly when its dice are given as many faces, at least one each, as there are
values, and as many positive weights, if any are given; the dice then show these values and weights in order
(`grouped_cases`).  No list is cut behind its end, since the faces are counted first; it is the sum of their numbers
that stops the program when it needs more than 64 bits.
-/

namespace DiceTally

namespace Die

/-- The values of the faces. -/
def values (die : Die) : List Value := die.faces.map (·.value)

/-- The weights of the faces. -/
def weights (die : Die) : List Decimal := die.faces.map (·.weight)

theorem length_values (die : Die) : die.values.length = die.sides := List.length_map _

theorem length_weights (die : Die) : die.weights.length = die.sides := List.length_map _

/-- The values of dice tell their numbers of faces. -/
theorem map_sides_congr {dice dice' : List Die} (h : dice'.map values = dice.map values) :
    dice'.map sides = dice.map sides := by
  have hlengths := congrArg (List.map List.length) h
  simpa only [List.map_map, Function.comp_def, length_values] using hlengths

theorem sum_map_sides (dice : List Die) : (dice.map sides).sum = (dice.flatMap weights).length := by
  rw [List.length_flatMap, List.map_congr_left fun die _ => (length_weights die).symm]

variable {die made : Die}

theorem ofValues_of_ok {vs : List Value} (h : ofValues vs = .ok made) :
    vs ≠ [] ∧ made.values = vs ∧ made.weights = List.replicate vs.length .one := by
  unfold ofValues at h
  split at h
  · cases h
  · cases h
    simp [values, weights, Function.comp_def, *]

theorem exists_ofValues {vs : List Value} (h : vs ≠ []) : ∃ made, ofValues vs = .ok made := by
  unfold ofValues
  rw [dif_neg h]
  exact ⟨_, rfl⟩

/-- Positive weights take the place of the weights. -/
theorem withWeights_of_ok {ws : List Decimal} (h : die.withWeights ws = .ok made) :
    (∀ w ∈ ws, w.isPositive = true) ∧ made.values = die.values ∧ made.weights = ws := by
  unfold withWeights at h
  split at h
  · cases h
  rename_i hlength
  have hlength : ws.length = die.faces.length := not_not.1 hlength
  split at h
  · cases h
  rename_i hpos
  cases h
  have hpairs : List.zipWith (fun f w => { f with weight := w }) die.faces ws =
      (die.faces.zip ws).map fun p => (⟨p.1.value, p.2⟩ : Face) := by rw [List.zip, List.map_zipWith]
  have hvalues : (List.zipWith (fun f w => { f with weight := w }) die.faces ws).map (·.value) = die.values :=
    calc _ = ((die.faces.zip ws).map Prod.fst).map (·.value) := by rw [hpairs, List.map_map, List.map_map]; rfl
      _ = die.values := by rw [List.map_fst_zip (Nat.le_of_eq hlength.symm), values]
  have hweights : (List.zipWith (fun f w => { f with weight := w }) die.faces ws).map (·.weight) = ws :=
    calc _ = (die.faces.zip ws).map Prod.snd := by rw [hpairs, List.map_map]; rfl
      _ = ws := List.map_snd_zip (Nat.le_of_eq hlength)
  exact ⟨by simpa using hpos, hvalues, hweights⟩

theorem exists_withWeights {ws : List Decimal} (hlength : ws.length = die.sides)
    (hpos : ∀ w ∈ ws, w.isPositive = true) : ∃ made, die.withWeights ws = .ok made := by
  rw [sides] at hlength
  unfold withWeights
  rw [dif_neg (not_not.2 hlength)]
  split
  · rename_i bad hbad
    have hmem := List.mem_of_find?_eq_some hbad
    have hfound := List.find?_some hbad
    simp [hpos bad hmem] at hfound
  · exact ⟨_, rfl⟩

end Die

namespace Pool

variable {α β : Type}

/-! ### Faces counted in 64 bits -/

/-- The sum is stopped on the way exactly when the whole sum has more than 64 bits. -/
theorem countFaces_eq (sides : List Nat) :
    countFaces sides = if sides.sum < bound64 then .ok sides.sum else .error (.stopped .sumOverflow) := by
  rw [List.sum_eq_foldl]
  exact foldlM_checked (fun n faces => Nat.le_add_right n faces) (fun _ => rfl) sides (by decide)

theorem countFaces_of_lt {sides : List Nat} (h : sides.sum < bound64) : countFaces sides = .ok sides.sum := by
  rw [countFaces_eq, if_pos h]

theorem countFaces_eq_ok_iff {sides : List Nat} {n : Nat} :
    countFaces sides = .ok n ↔ sides.sum < bound64 ∧ sides.sum = n := by
  rw [countFaces_eq]
  split <;> simp [*]

/-! ### Items dealt out part by part -/

theorem cut_eq_ok_iff {n : Nat} {items : List α} {parts : List α × List α} :
    cut n items = .ok parts ↔ parts.1.length = n ∧ parts.1 ++ parts.2 = items := by
  obtain ⟨taken, rest⟩ := parts
  unfold cut
  constructor
  · intro h
    split at h
    · cases h
      exact ⟨List.length_take_of_le ‹_›, List.take_append_drop n items⟩
    · cases h
  · rintro ⟨rfl, rfl⟩
    simp

theorem cut_eq_error_iff {n : Nat} {items : List α} {e : DiceFailure} :
    cut n items = .error e ↔ items.length < n ∧ e = .stopped (.pastEnd n items.length) := by
  unfold cut
  split
  · rename_i hle
    simp [hle.not_gt]
  · rename_i hlt
    rw [Except.error.injEq, and_iff_right (not_le.1 hlt), eq_comm]

/-- An error of the dice does not stop the program. -/
theorem mapError_refused_ne_stopped {x : Except DiceError α} (why : Stop) :
    x.mapError DiceFailure.refused ≠ .error (.stopped why) := by
  cases x <;> nofun

section

variable {size : β → Nat} {make : β → List α → Except DiceError Die} {x : β} {xs : List β} {items : List α}

theorem deal_cons_eq_ok_iff {dice : List Die} :
    deal size make (x :: xs) items = .ok dice ↔
      ∃ taken rest die others, taken.length = size x ∧ taken ++ rest = items ∧ make x taken = .ok die ∧
        deal size make xs rest = .ok others ∧ die :: others = dice := by
  constructor
  · intro h
    obtain ⟨⟨taken, rest⟩, hcut, h⟩ := bind_eq_ok_iff.1 h
    obtain ⟨die, hdie, h⟩ := bind_eq_ok_iff.1 h
    obtain ⟨others, hothers, h⟩ := bind_eq_ok_iff.1 h
    obtain ⟨hlength, hitems⟩ := cut_eq_ok_iff.1 hcut
    exact ⟨taken, rest, die, others, hlength, hitems, mapError_eq_ok_iff.1 hdie, hothers, Except.ok.inj h⟩
  · rintro ⟨taken, rest, die, others, hlength, hitems, hdie, hothers, rfl⟩
    refine bind_eq_ok_iff.2 ⟨(taken, rest), cut_eq_ok_iff.2 ⟨hlength, hitems⟩, ?_⟩
    refine bind_eq_ok_iff.2 ⟨die, mapError_eq_ok_iff.2 hdie, ?_⟩
    exact bind_eq_ok_iff.2 ⟨others, hothers, rfl⟩

theorem sum_size_le_of_deal {dice : List Die} (h : deal size make xs items = .ok dice) :
    (xs.map size).sum ≤ items.length := by
  induction xs generalizing items dice with
  | nil => exact Nat.zero_le _
  | cons x xs ih =>
    obtain ⟨taken, rest, die, others, hlength, rfl, -, hothers, -⟩ := deal_cons_eq_ok_iff.1 h
    have := ih hothers
    rw [List.map_cons, List.sum_cons, List.length_append]
    omega

/-- Enough items for all parts are never cut behind their end. -/
theorem deal_ne_stopped (h : (xs.map size).sum ≤ items.length) (why : Stop) :
    deal size make xs items ≠ .error (.stopped why) := by
  induction xs generalizing items with
  | nil => nofun
  | cons x xs ih =>
    rw [List.map_cons, List.sum_cons] at h
    intro hall
    rcases bind_eq_error_iff.1 hall with hcut | ⟨⟨taken, rest⟩, hcut, hmade⟩
    · have := (cut_eq_error_iff.1 hcut).1
      omega
    obtain ⟨hlength, hitems⟩ : taken.length = size x ∧ taken ++ rest = items := cut_eq_ok_iff.1 hcut
    rcases bind_eq_error_iff.1 hmade with hdie | ⟨die, -, hothers⟩
    · exact mapError_refused_ne_stopped why hdie
    rcases bind_eq_error_iff.1 hothers with hrest | ⟨_, -, hdone⟩
    · rw [← hitems, List.length_append] at h
      exact ih (by omega) hrest
    · cases hdone

end

/-! ### Values and weights -/

variable {sides : List Nat} {values : List Value} {weights : Option (List Decimal)} {dice : List Die} {pool : Pool}

theorem deal_values_of_ok (h : deal id (fun _ => Die.ofValues) sides values = .ok dice) :
    dice.map Die.sides = sides ∧ dice.flatMap Die.values <+: values ∧
      dice.flatMap Die.weights = List.replicate sides.sum .one := by
  induction sides generalizing values dice with
  | nil =>
    cases h
    simp
  | cons n sides ih =>
    obtain ⟨taken, rest, die, others, rfl, rfl, hdie, hothers, rfl⟩ := deal_cons_eq_ok_iff.1 h
    obtain ⟨-, hvalues, hweights⟩ := Die.ofValues_of_ok hdie
    obtain ⟨hsides, hfront, hones⟩ := ih hothers
    refine ⟨?_, ?_, ?_⟩
    · rw [List.map_cons, hsides, ← Die.length_values, hvalues]
    · rw [List.flatMap_cons, hvalues]
      exact (List.prefix_append_right_inj taken).2 hfront
    · rw [List.flatMap_cons, hweights, hones, List.sum_cons, List.replicate_add]

/-- Values are dealt out if there are enough of them and every die gets one. -/
theorem exists_deal_values_iff :
    (∃ dice, deal id (fun _ => Die.ofValues) sides values = .ok dice) ↔
      (∀ n ∈ sides, 1 ≤ n) ∧ sides.sum ≤ values.length := by
  induction sides generalizing values with
  | nil => simp [deal]
  | cons n sides ih =>
    constructor
    · rintro ⟨dice, h⟩
      have hsum := sum_size_le_of_deal h
      obtain ⟨taken, rest, die, others, hlength, rfl, hdie, hothers, -⟩ := deal_cons_eq_ok_iff.1 h
      have hn : 1 ≤ n := by
        have htaken := List.length_pos_iff.2 (Die.ofValues_of_ok hdie).1
        rwa [hlength] at htaken
      exact ⟨List.forall_mem_cons.2 ⟨hn, (ih.1 ⟨others, hothers⟩).1⟩, by rwa [List.map_id] at hsum⟩
    · rintro ⟨hpos, hsum⟩
      obtain ⟨hn, hpos⟩ := List.forall_mem_cons.1 hpos
      rw [List.sum_cons] at hsum
      have htake : (values.take n).length = n := List.length_take_of_le (by omega)
      have hdrop : sides.sum ≤ (values.drop n).length := by
        rw [List.length_drop]
        omega
      obtain ⟨die, hdie⟩ := Die.exists_ofValues (List.length_pos_iff.1 (by rw [htake]; exact hn))
      obtain ⟨others, hothers⟩ := ih.2 ⟨hpos, hdrop⟩
      exact ⟨die :: others, deal_cons_eq_ok_iff.2 ⟨_, _, die, others, htake, List.take_append_drop n values, hdie,
        hothers, rfl⟩⟩

theorem deal_weights_of_ok {ws : List Decimal} {weighted : List Die}
    (h : deal Die.sides Die.withWeights dice ws = .ok weighted) :
    (∀ w ∈ weighted.flatMap Die.weights, w.isPositive = true) ∧ weighted.map Die.values = dice.map Die.values ∧
      weighted.flatMap Die.weights <+: ws := by
  induction dice generalizing ws weighted with
  | nil =>
    cases h
    simp
  | cons die dice ih =>
    obtain ⟨taken, rest, die', others, -, rfl, hdie, hothers, rfl⟩ := deal_cons_eq_ok_iff.1 h
    obtain ⟨htaken, hvalues, rfl⟩ := Die.withWeights_of_ok hdie
    obtain ⟨hpos, hrest, hfront⟩ := ih hothers
    rw [List.flatMap_cons]
    exact ⟨List.forall_mem_append.2 ⟨htaken, hpos⟩, by rw [List.map_cons, List.map_cons, hvalues, hrest],
      (List.prefix_append_right_inj _).2 hfront⟩

theorem exists_deal_weights {ws : List Decimal} (hsum : (dice.map Die.sides).sum ≤ ws.length)
    (hpos : ∀ w ∈ ws, w.isPositive = true) : ∃ weighted, deal Die.sides Die.withWeights dice ws = .ok weighted := by
  induction dice generalizing ws with
  | nil => exact ⟨[], rfl⟩
  | cons die dice ih =>
    rw [List.map_cons, List.sum_cons] at hsum
    have htake : (ws.take die.sides).length = die.sides := List.length_take_of_le (by omega)
    have hdrop : (dice.map Die.sides).sum ≤ (ws.drop die.sides).length := by
      rw [List.length_drop]
      omega
    obtain ⟨die', hdie⟩ := Die.exists_withWeights htake fun w hw => hpos w (List.mem_of_mem_take hw)
    obtain ⟨others, hothers⟩ := ih hdrop fun w hw => hpos w (List.mem_of_mem_drop hw)
    exact ⟨die' :: others, deal_cons_eq_ok_iff.2 ⟨_, _, die', others, htake, List.take_append_drop _ ws, hdie,
      hothers, rfl⟩⟩

theorem ofDice_eq_ok_iff : ofDice dice = .ok pool ↔ dice ≠ [] ∧ pool.dice = dice := by
  unfold ofDice
  split
  · simp [*]
  · obtain ⟨dice', h⟩ := pool
    simp [*, eq_comm]

/-- The weights are as many as the faces of the dice, and positive. -/
def Weighs (faces : Nat) (weights : Option (List Decimal)) : Prop :=
  ∀ ws ∈ weights, ws.length = faces ∧ ∀ w ∈ ws, w.isPositive = true

theorem ofWeighted_of_ok (h : ofWeighted dice weights = .ok pool) :
    dice ≠ [] ∧ Weighs (dice.map Die.sides).sum weights ∧ pool.dice.map Die.values = dice.map Die.values ∧
      pool.dice.flatMap Die.weights = weights.getD (dice.flatMap Die.weights) := by
  cases weights with
  | none =>
    obtain ⟨hne, hdice⟩ := ofDice_eq_ok_iff.1 (mapError_eq_ok_iff.1 h)
    exact ⟨hne, nofun, by rw [hdice], by rw [hdice]; rfl⟩
  | some ws =>
    obtain ⟨faces, hfaces, h⟩ := bind_eq_ok_iff.1 h
    obtain ⟨-, rfl⟩ := countFaces_eq_ok_iff.1 hfaces
    split at h
    · cases h
    rename_i hlength
    have hlength : ws.length = (dice.map Die.sides).sum := not_not.1 hlength
    obtain ⟨weighted, hweighted, h⟩ := bind_eq_ok_iff.1 h
    obtain ⟨hne, hdice⟩ := ofDice_eq_ok_iff.1 (mapError_eq_ok_iff.1 h)
    obtain ⟨hpos, hvalues, hfront⟩ := deal_weights_of_ok hweighted
    have hne : dice ≠ [] := by
      rintro rfl
      exact hne (List.map_eq_nil_iff.1 hvalues)
    have hsides := Die.map_sides_congr hvalues
    have hall : weighted.flatMap Die.weights = ws :=
      hfront.eq_of_length (by rw [← Die.sum_map_sides, hsides, hlength])
    rw [hall] at hpos
    rw [hdice]
    refine ⟨hne, ?_, hvalues, hall⟩
    rintro ws' ⟨⟩
    exact ⟨hlength, hpos⟩

/-- As many weights as faces are dealt out. -/
theorem ofWeighted_eq_of_length {ws : List Decimal} (hfaces : (dice.map Die.sides).sum < bound64)
    (hlength : ws.length = (dice.map Die.sides).sum) :
    ofWeighted dice (some ws) =
      deal Die.sides Die.withWeights dice ws >>= fun weighted => (ofDice weighted).mapError .refused := by
  simp [ofWeighted, countFaces_of_lt hfaces, hlength, bind, Except.bind]

theorem exists_ofWeighted (hne : dice ≠ []) (hfaces : ∀ ws ∈ weights, ws.length < bound64)
    (hweighs : Weighs (dice.map Die.sides).sum weights) : ∃ pool, ofWeighted dice weights = .ok pool := by
  cases weights with
  | none => exact ⟨⟨dice, hne⟩, mapError_eq_ok_iff.2 (ofDice_eq_ok_iff.2 ⟨hne, rfl⟩)⟩
  | some ws =>
    obtain ⟨hlength, hpos⟩ := hweighs ws rfl
    obtain ⟨weighted, hweighted⟩ := exists_deal_weights (Nat.le_of_eq hlength.symm) hpos
    have hne' : weighted ≠ [] := by
      rintro rfl
      exact hne (List.map_eq_nil_iff.1 (deal_weights_of_ok hweighted).2.1.symm)
    refine ⟨⟨weighted, hne'⟩, ?_⟩
    rw [ofWeighted_eq_of_length (hlength ▸ hfaces ws rfl) hlength]
    exact bind_eq_ok_iff.2 ⟨weighted, hweighted, mapError_eq_ok_iff.2 (ofDice_eq_ok_iff.2 ⟨hne', rfl⟩)⟩

/-- Weights are not cut behind their end, since their number is compared with the number of faces first. -/
theorem ofWeighted_ne_stopped (hfaces : (dice.map Die.sides).sum < bound64) (why : Stop) :
    ofWeighted dice weights ≠ .error (.stopped why) := by
  intro h
  cases weights with
  | none => exact mapError_refused_ne_stopped why h
  | some ws =>
    by_cases hlength : ws.length = (dice.map Die.sides).sum
    · rw [ofWeighted_eq_of_length hfaces hlength] at h
      rcases bind_eq_error_iff.1 h with hdeal | ⟨weighted, -, h⟩
      · exact deal_ne_stopped (Nat.le_of_eq hlength.symm) why hdeal
      · exact mapError_refused_ne_stopped why h
    · simp only [ofWeighted, countFaces_of_lt hfaces, if_pos hlength, bind, Except.bind, throw, throwThe] at h
      cases h

theorem ofWeighted_of_stopped {why : Stop} (h : ofWeighted dice weights = .error (.stopped why)) :
    why = .sumOverflow ∧ weights.isSome = true ∧ bound64 ≤ (dice.map Die.sides).sum := by
  by_cases hfaces : (dice.map Die.sides).sum < bound64
  · exact absurd h (ofWeighted_ne_stopped hfaces why)
  cases weights with
  | none => exact absurd h (mapError_refused_ne_stopped why)
  | some ws =>
    rw [ofWeighted, countFaces_eq, if_neg hfaces] at h
    cases h
    exact ⟨rfl, rfl, Nat.not_lt.1 hfaces⟩

/-! ### Grouped values -/

/-- What a list of values needs to be dealt out to dice of the given sizes. -/
structure Fits (sides : List Nat) (values : List Value) (weights : Option (List Decimal)) : Prop where
  sides_ne_nil : sides ≠ []
  sides_pos : ∀ n ∈ sides, 1 ≤ n
  sum_sides : sides.sum = values.length
  weighs : Weighs values.length weights

/-- Faces that can be counted: their number is compared with the number of values. -/
theorem grouped_of_lt (values : List Value) (weights : Option (List Decimal)) (h : sides.sum < bound64) :
    grouped sides values weights =
      if values.length < sides.sum then .error (.refused (.tooFewValues values.length sides.sum))
      else if sides.sum < values.length then .error (.refused (.unusedValues values.length sides.sum))
      else deal id (fun _ => Die.ofValues) sides values >>= fun dice => ofWeighted dice weights := by
  rw [grouped, countFaces_of_lt h]
  by_cases hfew : values.length < sides.sum
  · simp only [if_pos hfew, bind, Except.bind]
    rfl
  · by_cases hmany : sides.sum < values.length
    · simp only [if_neg hfew, if_pos hmany, bind, Except.bind]
      rfl
    · simp only [if_neg hfew, if_neg hmany, bind, Except.bind]

theorem grouped_of_le (values : List Value) (weights : Option (List Decimal)) (h : bound64 ≤ sides.sum) :
    grouped sides values weights = .error (.stopped .sumOverflow) := by
  rw [grouped, countFaces_eq, if_neg (Nat.not_lt.2 h)]
  rfl

/-- Both checks let pass what has the right number of faces. -/
theorem grouped_eq_of_sum (hvalues : values.length < bound64) (h : sides.sum = values.length) :
    grouped sides values weights =
      deal id (fun _ => Die.ofValues) sides values >>= fun dice => ofWeighted dice weights := by
  rw [grouped_of_lt values weights (h ▸ hvalues), if_neg (by omega), if_neg (by omega)]

theorem grouped_refused_of_sum (weights : Option (List Decimal)) (hfaces : sides.sum < bound64)
    (h : sides.sum ≠ values.length) : ∃ e, grouped sides values weights = .error (.refused e) := by
  rw [grouped_of_lt values weights hfaces]
  rcases Nat.lt_or_gt_of_ne h with hlt | hlt
  · rw [if_neg (by omega), if_pos hlt]
    exact ⟨_, rfl⟩
  · rw [if_pos hlt]
    exact ⟨_, rfl⟩

theorem sum_sides_of_grouped (h : grouped sides values weights = .ok pool) :
    sides.sum < bound64 ∧ sides.sum = values.length := by
  by_cases hfaces : sides.sum < bound64
  · refine ⟨hfaces, by_contra fun hsum => ?_⟩
    obtain ⟨e, hrefused⟩ := grouped_refused_of_sum weights hfaces hsum
    rw [hrefused] at h
    cases h
  · rw [grouped_of_le values weights (Nat.not_lt.1 hfaces)] at h
    cases h

theorem grouped_of_ok (h : grouped sides values weights = .ok pool) :
    Fits sides values weights ∧ pool.dice.map Die.sides = sides ∧ pool.dice.flatMap Die.values = values ∧
      pool.dice.flatMap Die.weights = weights.getD (List.replicate values.length .one) := by
  obtain ⟨hfaces, hsum⟩ := sum_sides_of_grouped h
  rw [grouped_eq_of_sum (hsum ▸ hfaces) hsum] at h
  obtain ⟨dice, hdice, h⟩ := bind_eq_ok_iff.1 h
  have hpos := (exists_deal_values_iff.1 ⟨dice, hdice⟩).1
  obtain ⟨hsides, hfront, hones⟩ := deal_values_of_ok hdice
  obtain ⟨hne, hweighs, hvalues, hweights⟩ := ofWeighted_of_ok h
  have hne : sides ≠ [] := by
    rintro rfl
    exact hne (List.map_eq_nil_iff.1 hsides)
  have hall : dice.flatMap Die.values = values := by
    refine hfront.eq_of_length ?_
    rw [List.length_flatMap, List.map_congr_left fun die _ => Die.length_values die, hsides, hsum]
  rw [hsides, hsum] at hweighs
  rw [hones, hsum] at hweights
  refine ⟨⟨hne, hpos, hsum, hweighs⟩, (Die.map_sides_congr hvalues).trans hsides, ?_, hweights⟩
  rw [← hall, List.flatMap_def, hvalues, List.flatMap_def]

theorem exists_grouped (hvalues : values.length < bound64) (h : Fits sides values weights) :
    ∃ pool, grouped sides values weights = .ok pool := by
  obtain ⟨dice, hdice⟩ := exists_deal_values_iff.2 ⟨h.sides_pos, Nat.le_of_eq h.sum_sides⟩
  have hsides := (deal_values_of_ok hdice).1
  have hne : dice ≠ [] := by
    rintro rfl
    exact h.sides_ne_nil hsides.symm
  have hweighs : Weighs (dice.map Die.sides).sum weights := by
    rw [hsides, h.sum_sides]
    exact h.weighs
  have hfaces : ∀ ws ∈ weights, ws.length < bound64 := fun ws hws => (h.weighs ws hws).1 ▸ hvalues
  obtain ⟨pool, hpool⟩ := exists_ofWeighted hne hfaces hweighs
  exact ⟨pool, by rw [grouped_eq_of_sum hvalues h.sum_sides]; exact bind_eq_ok_iff.2 ⟨dice, hdice, hpool⟩⟩

/-- The program stops when the faces cannot be counted, and for nothing else. -/
theorem grouped_eq_stopped_iff {why : Stop} :
    grouped sides values weights = .error (.stopped why) ↔ bound64 ≤ sides.sum ∧ why = .sumOverflow := by
  by_cases hfaces : sides.sum < bound64
  · refine iff_of_false (fun h => ?_) fun h => Nat.not_le.2 hfaces h.1
    by_cases hsum : sides.sum = values.length
    · rw [grouped_eq_of_sum (hsum ▸ hfaces) hsum] at h
      rcases bind_eq_error_iff.1 h with hdeal | ⟨dice, hdice, h⟩
      · exact deal_ne_stopped (by rw [List.map_id, hsum]) why hdeal
      · have hsides := (deal_values_of_ok hdice).1
        exact ofWeighted_ne_stopped (by rwa [hsides]) why h
    · obtain ⟨e, hrefused⟩ := grouped_refused_of_sum weights hfaces hsum
      rw [hrefused] at h
      cases h
  · rw [grouped_of_le values weights (Nat.not_lt.1 hfaces)]
    simp [Nat.not_lt.1 hfaces, eq_comm]

/-- Values dealt out to dice of given sizes.  A pool is made exactly when everything fits, and then nothing is lost: the
dice have the given sizes and show the values and the weights in order.  All else is refused with an error if there are
less than `2^64` faces in all.  With more the sum of their numbers stops the program; no list is ever cut behind its
end. -/
theorem grouped_cases (sides : List Nat) (values : List Value) (weights : Option (List Decimal))
    (hvalues : values.length < bound64) :
    ((∃ pool, grouped sides values weights = .ok pool) ↔ Fits sides values weights) ∧
      (∀ pool, grouped sides values weights = .ok pool →
        pool.dice.map Die.sides = sides ∧ pool.dice.flatMap Die.values = values ∧
          pool.dice.flatMap Die.weights = weights.getD (List.replicate values.length .one)) ∧
      ((∃ e, grouped sides values weights = .error (.refused e)) ↔
        ¬Fits sides values weights ∧ sides.sum < bound64) ∧
      ∀ why, grouped sides values weights = .error (.stopped why) ↔ bound64 ≤ sides.sum ∧ why = .sumOverflow := by
  have hok : (∃ pool, grouped sides values weights = .ok pool) ↔ Fits sides values weights :=
    ⟨fun ⟨_, h⟩ => (grouped_of_ok h).1, exists_grouped hvalues⟩
  refine ⟨hok, fun pool h => (grouped_of_ok h).2, ?_, fun why => grouped_eq_stopped_iff⟩
  rw [← hok]
  constructor
  · rintro ⟨e, he⟩
    refine ⟨by simp [he], by_contra fun hfaces => ?_⟩
    rw [grouped_of_le values weights (Nat.not_lt.1 hfaces)] at he
    cases he
  · rintro ⟨hnone, hfaces⟩
    cases hgrouped : grouped sides values weights with
    | ok pool => exact absurd ⟨pool, hgrouped⟩ hnone
    | error e =>
      cases e with
      | refused e => exact ⟨e, rfl⟩
      | stopped why => exact absurd (grouped_eq_stopped_iff.1 hgrouped).1 (Nat.not_le.2 hfaces)

/-- Three values and three weights fit on two dice. -/
theorem grouped_cases_weighted :
    [(5 : Value), 5, -1].length < bound64 ∧
      Fits [2, 1] [5, 5, -1] (some [.one, ⟨false, 5, 1, by decide, by decide⟩, .one]) ∧
      ∃ pool, grouped [2, 1] [5, 5, -1] (some [.one, ⟨false, 5, 1, by decide, by decide⟩, .one]) = .ok pool := by
  have hfits : Fits [2, 1] [5, 5, -1] (some [.one, ⟨false, 5, 1, by decide, by decide⟩, .one]) :=
    ⟨by decide, by decide, by decide, by rintro ws ⟨⟩; decide⟩
  exact ⟨by decide, hfits, (grouped_cases [2, 1] [5, 5, -1] _ (by decide)).1.2 hfits⟩

/-- The number of faces of these dice stops the program, whatever the number of values is. -/
theorem grouped_stops :
    grouped [9223372036854775807, 9223372036854775807, 3] [5] none = .error (.stopped .sumOverflow) ∧
      grouped [9223372036854775807, 9223372036854775807, 3] [5, 6] none = .error (.stopped .sumOverflow) :=
  ⟨rfl, rfl⟩

end Pool

end DiceTally
