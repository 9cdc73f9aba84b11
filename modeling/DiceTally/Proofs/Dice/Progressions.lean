import DiceTally.Proofs.Dice.Dealing
import DiceTally.Proofs.Value
import Mathlib.Algebra.BigOperators.Group.List.Lemmas
import Mathlib.Algebra.Order.Ring.Int

/-!
# Dice that count by a step

The values of a die are made one by one, each from the one before it, and any of them may be out of range.  They grow
or fall all the way, so the last one alone decides: on the way to a value no step leaves the range
(`Value.inRange_next`), and the values are counted exactly when the last one is in range (`Die.exists_countOn_iff`).
Room for the values is asked for before they are counted and room for the faces afterwards, so a number of faces for
which there is none stops the program (`Die.ends_arithmetic`).

A pool has one such die for each size.  Its lists of starts and steps are read by `Pool.entry`, and the weights of a die
are its part of the weights for all faces (`Die.weights_getElem`).  The main result, `Pool.progressions_exact`, tells
when dice and pools are made, and what they are.
-/

namespace DiceTally

namespace Value

/-- The integer is a value. -/
def InRange (n : Int) : Prop := -bound ≤ n ∧ n < bound

instance (n : Int) : Decidable (InRange n) := inferInstanceAs (Decidable (_ ∧ _))

theorem inRange_toInt (v : Value) : InRange v.toInt := ⟨v.le_toInt, v.toInt_lt⟩

/-- On the way from a value to a value the first step does not leave the range. -/
theorem inRange_next {n step : Int} {more : Nat} (hn : InRange n)
    (hlast : InRange (n + ((more + 1 : Nat) : Int) * step)) : InRange (n + step) := by
  have hmul : ((more + 1 : Nat) : Int) * step = more * step + step := by
    rw [Int.natCast_add, Int.add_mul, Int.natCast_one, Int.one_mul]
  rw [hmul] at hlast
  unfold InRange at *
  -- the steps behind the first one lead further away in the same direction
  by_cases hstep : 0 ≤ step
  · have hrest : 0 ≤ (more : Int) * step := Int.mul_nonneg (by omega) hstep
    omega
  · have hrest : (more : Int) * step ≤ 0 := Int.mul_nonpos_of_nonneg_of_nonpos (by omega) (by omega)
    omega

end Value

namespace Die

variable {start step value next : Value} {values : List Value} {die : Die} {more n : Nat}

/-! ### Counting -/

/-- The values are `start`, `start + step`, `start + 2 * step` and so on, as integers. -/
def CountsBy (start step : Value) (values : List Value) : Prop :=
  ∀ i (h : i < values.length), values[i].toInt = start.toInt + i * step.toInt

theorem countsBy_singleton (start step : Value) : CountsBy start step [start] := by
  intro i h
  obtain rfl : i = 0 := by simpa using h
  simp

theorem CountsBy.cons (hnext : next.toInt = start.toInt + step.toInt) (h : CountsBy next step values) :
    CountsBy start step (start :: values) := by
  intro i hi
  cases i with
  | zero => simp
  | succ i =>
    rw [List.getElem_cons_succ, h i (by simpa using hi), hnext, Int.natCast_add, Int.add_mul]
    omega

/-- Values that are a step apart are all different. -/
theorem CountsBy.nodup (hstep : step ≠ 0) (h : CountsBy start step values) : values.Nodup := by
  rw [List.Nodup, List.pairwise_iff_getElem]
  intro i j hi hj hij heq
  have hmul : (i : Int) * step.toInt = j * step.toInt := by
    have hsame := congrArg Int64.toInt heq
    rw [h i hi, h j hj] at hsame
    omega
  have hsteps := Int.eq_of_mul_eq_mul_right (Value.toInt_ne_zero hstep) hmul
  omega

/-- What is counted stands behind what was there. -/
theorem countOn_eq_some {counted all : Array Value} (h : countOn step more value counted = some all) :
    ∃ new, all.toList = counted.toList ++ new ∧ new.length = more + 1 ∧ CountsBy value step new := by
  induction more generalizing value counted with
  | zero =>
    cases h
    exact ⟨[value], Array.toList_push, rfl, countsBy_singleton value step⟩
  | succ more ih =>
    unfold countOn at h
    split at h
    · rename_i next hnext
      obtain ⟨new, hall, hlength, hnew⟩ := ih h
      refine ⟨value :: new, ?_, by rw [List.length_cons, hlength], hnew.cons (Value.toInt_of_ofInt? hnext)⟩
      rw [hall, Array.toList_push, List.append_assoc, List.singleton_append]
    · cases h

/-- The values are counted to the end exactly when the last one is in range. -/
theorem exists_countOn_iff (counted : Array Value) :
    (∃ all, countOn step more value counted = some all) ↔ Value.InRange (value.toInt + more * step.toInt) := by
  constructor
  · rintro ⟨all, h⟩
    obtain ⟨new, -, hlength, hnew⟩ := countOn_eq_some h
    rw [← hnew more (by omega)]
    exact Value.inRange_toInt _
  · intro hlast
    induction more generalizing value counted with
    | zero => exact ⟨_, rfl⟩
    | succ more ih =>
      have hin := Value.inRange_next (Value.inRange_toInt value) hlast
      obtain ⟨next, hnext⟩ : ∃ next, Value.ofInt? (value.toInt + step.toInt) = some next :=
        ⟨_, Value.ofInt?_of_range hin.1 hin.2⟩
      have hstep : next.toInt = value.toInt + step.toInt := Value.toInt_of_ofInt? hnext
      have hrest : Value.InRange (next.toInt + more * step.toInt) := by
        rw [Int.natCast_add, Int.add_mul] at hlast
        convert hlast using 1
        omega
      unfold countOn
      rw [hnext]
      exact ih _ hrest

/-! ### Dice -/

/-- What the last of `n` faces would show, in range or not. -/
def lastFace (start step : Value) (n : Nat) : Int := start.toInt + ((n : Int) - 1) * step.toInt

theorem lastFace_succ (start step : Value) (more : Nat) :
    lastFace start step (more + 1) = start.toInt + more * step.toInt := by
  unfold lastFace
  rw [Int.natCast_add, Int.natCast_one, Int.add_sub_cancel]

theorem reserve_of_lt {bytes count : Nat} (h : bytes * count < roomBound) : reserve bytes count = .ok () := if_pos h

theorem reserve_of_le {bytes count : Nat} (h : roomBound ≤ bytes * count) :
    reserve bytes count = .error (.stopped .noRoom) := if_neg (Nat.not_lt.2 h)

/-- Where there is room for the faces there is room for the values. -/
theorem room_values (h : faceBytes * n < roomBound) : valueBytes * n < roomBound := by
  unfold faceBytes valueBytes at *
  omega

theorem arithmetic_of_countOn {all : Array Value} (hstep : step ≠ 0) (hroom : valueBytes * (more + 1) < roomBound)
    (h : countOn step more start #[] = some all) :
    arithmetic start step (more + 1) =
      reserve faceBytes (more + 1) >>= fun _ => (ofValues all.toList).mapError .refused := by
  simp [arithmetic, hstep, reserve_of_lt hroom, h, bind, Except.bind]

theorem arithmetic_of_countOn_none (hstep : step ≠ 0) (hroom : valueBytes * (more + 1) < roomBound)
    (h : countOn step more start #[] = none) : arithmetic start step (more + 1) = .error (.refused .overflow) := by
  simp [arithmetic, hstep, reserve_of_lt hroom, h, bind, Except.bind, throw, throwThe, MonadExceptOf.throw]

theorem arithmetic_of_full (hn : 1 ≤ n) (hstep : step ≠ 0) (hfull : roomBound ≤ valueBytes * n) :
    arithmetic start step n = .error (.stopped .noRoom) := by
  simp [arithmetic, Nat.ne_of_gt hn, hstep, reserve_of_le hfull, bind, Except.bind]

/-- How the making of a die that counts by a step ends. -/
inductive Ends (start step : Value) (n : Nat) : Except DiceFailure Die → Prop where
  | noSides (hn : n = 0) : Ends start step n (.error (.refused .noSides))
  | zeroStep (hn : 1 ≤ n) (hstep : step = 0) : Ends start step n (.error (.refused .zeroStep))
  /-- there is no room to count the values -/
  | full (hn : 1 ≤ n) (hstep : step ≠ 0) (hfull : roomBound ≤ valueBytes * n) :
    Ends start step n (.error (.stopped .noRoom))
  | overflow (hn : 1 ≤ n) (hstep : step ≠ 0) (hlast : ¬Value.InRange (lastFace start step n))
    (hroom : valueBytes * n < roomBound) : Ends start step n (.error (.refused .overflow))
  /-- the values are counted, and there is no room for the faces -/
  | crowded (hn : 1 ≤ n) (hstep : step ≠ 0) (hlast : Value.InRange (lastFace start step n))
    (hroom : valueBytes * n < roomBound) (hfull : roomBound ≤ faceBytes * n) :
    Ends start step n (.error (.stopped .noRoom))
  | made {die : Die} (hn : 1 ≤ n) (hstep : step ≠ 0) (hlast : Value.InRange (lastFace start step n))
    (hroom : faceBytes * n < roomBound) (hsides : die.sides = n) (hcounts : CountsBy start step die.values)
    (hones : die.weights = List.replicate n .one) : Ends start step n (.ok die)

theorem ends_of_countOn {all : Array Value} (hstep : step ≠ 0) (hroom : valueBytes * (more + 1) < roomBound)
    (hcount : countOn step more start #[] = some all) :
    Ends start step (more + 1) (arithmetic start step (more + 1)) := by
  have hlast : Value.InRange (lastFace start step (more + 1)) := by
    rw [lastFace_succ]
    exact (exists_countOn_iff #[]).1 ⟨all, hcount⟩
  rw [arithmetic_of_countOn hstep hroom hcount]
  by_cases hfaces : faceBytes * (more + 1) < roomBound
  · obtain ⟨new, hall, hlength, hnew⟩ := countOn_eq_some hcount
    obtain rfl : all.toList = new := hall
    have hne : all.toList ≠ [] := List.ne_nil_of_length_pos (by omega)
    obtain ⟨die, hdie⟩ := exists_ofValues hne
    obtain ⟨-, hvalues, hweights⟩ := ofValues_of_ok hdie
    rw [reserve_of_lt hfaces, hdie]
    refine .made (by omega) hstep hlast hfaces ?_ ?_ ?_
    · rw [← length_values, hvalues, hlength]
    · rw [hvalues]
      exact hnew
    · rw [hweights, hlength]
  · have hfull := Nat.not_lt.1 hfaces
    rw [reserve_of_le hfull]
    exact .crowded (by omega) hstep hlast hroom hfull

/-- A die with at least one side and a step that is not zero fails by its last value alone, if there is room for it. -/
theorem ends_arithmetic (start step : Value) (n : Nat) : Ends start step n (arithmetic start step n) := by
  cases n with
  | zero => exact .noSides rfl
  | succ more =>
    have hn : 1 ≤ more + 1 := by omega
    by_cases hstep : step = 0
    · have hzero : arithmetic start step (more + 1) = .error (.refused .zeroStep) := by simp [arithmetic, hstep]
      rw [hzero]
      exact .zeroStep hn hstep
    by_cases hroom : valueBytes * (more + 1) < roomBound
    · cases hcount : countOn step more start #[] with
      | none =>
        have hlast : ¬Value.InRange (lastFace start step (more + 1)) := by
          rw [lastFace_succ, ← exists_countOn_iff #[], hcount]
          simp
        rw [arithmetic_of_countOn_none hstep hroom hcount]
        exact .overflow hn hstep hlast hroom
      | some all => exact ends_of_countOn hstep hroom hcount
    · have hfull := Nat.not_lt.1 hroom
      rw [arithmetic_of_full hn hstep hfull]
      exact .full hn hstep hfull

theorem arithmetic_of_ok (h : arithmetic start step n = .ok die) :
    die.sides = n ∧ CountsBy start step die.values ∧ die.weights = List.replicate n .one ∧ die.values.Nodup := by
  have hends := ends_arithmetic start step n
  rw [h] at hends
  cases hends with
  | made _ hstep _ _ hsides hcounts hones => exact ⟨hsides, hcounts, hones, hcounts.nodup hstep⟩

theorem exists_arithmetic_iff :
    (∃ die, arithmetic start step n = .ok die) ↔
      1 ≤ n ∧ step ≠ 0 ∧ Value.InRange (lastFace start step n) ∧ faceBytes * n < roomBound := by
  have hends := ends_arithmetic start step n
  generalize arithmetic start step n = result at hends
  cases hends with
  | noSides hn => simp [hn]
  | zeroStep hn hstep => simp [hstep]
  | full hn hstep hfull => exact iff_of_false nofun fun h => Nat.not_lt.2 hfull (room_values h.2.2.2)
  | overflow hn hstep hlast hroom => simp [hlast]
  | crowded hn hstep hlast hroom hfull => simp [Nat.not_lt.2 hfull]
  | made hn hstep hlast hroom hsides hcounts hones => exact iff_of_true ⟨_, rfl⟩ ⟨hn, hstep, hlast, hroom⟩

theorem arithmetic_eq_overflow_iff :
    arithmetic start step n = .error (.refused .overflow) ↔
      1 ≤ n ∧ step ≠ 0 ∧ ¬Value.InRange (lastFace start step n) ∧ valueBytes * n < roomBound := by
  have hends := ends_arithmetic start step n
  generalize arithmetic start step n = result at hends
  cases hends with
  | noSides hn => simp [hn]
  | zeroStep hn hstep => simp [hstep]
  | full hn hstep hfull => simp [Nat.not_lt.2 hfull]
  | overflow hn hstep hlast hroom => exact iff_of_true rfl ⟨hn, hstep, hlast, hroom⟩
  | crowded hn hstep hlast hroom hfull => simp [hlast]
  | made hn hstep hlast hroom hsides hcounts hones => simp [hlast]

theorem arithmetic_eq_stopped_iff {why : Stop} :
    arithmetic start step n = .error (.stopped why) ↔
      why = .noRoom ∧ 1 ≤ n ∧ step ≠ 0 ∧
        (roomBound ≤ valueBytes * n ∨ Value.InRange (lastFace start step n) ∧ roomBound ≤ faceBytes * n) := by
  have hends := ends_arithmetic start step n
  generalize arithmetic start step n = result at hends
  cases hends with
  | noSides hn => simp [hn]
  | zeroStep hn hstep => simp [hstep]
  | full hn hstep hfull => simp [hn, hstep, hfull, eq_comm]
  | overflow hn hstep hlast hroom => simp [hlast, Nat.not_le.2 hroom]
  | crowded hn hstep hlast hroom hfull => simp [hn, hstep, hlast, hfull, eq_comm]
  | made hn hstep hlast hroom hsides hcounts hones =>
    simp [Nat.not_le.2 hroom, Nat.not_le.2 (room_values hroom)]

/-- The weights of a die are found among the weights of all dice behind as many as the dice in front of it have
sides. -/
theorem weights_getElem (dice : List Die) {j : Nat} (hj : j < dice.length) :
    dice[j].weights = ((dice.flatMap weights).drop ((dice.map sides).take j).sum).take dice[j].sides := by
  have hlengths : (dice.map weights).map List.length = dice.map sides := by
    rw [List.map_map]
    exact List.map_congr_left fun die _ => length_weights die
  have hnext : ((dice.map sides).take (j + 1)).sum = ((dice.map sides).take j).sum + dice[j].sides := by
    rw [List.sum_take_succ (dice.map sides) j (by simpa using hj), List.getElem_map]
  have hpart := List.drop_take_succ_flatten_eq_getElem (dice.map weights) j (by simpa using hj)
  rw [hlengths, hnext, List.getElem_map, List.drop_take, Nat.add_sub_cancel_left] at hpart
  rw [List.flatMap_def, hpart]

end Die

namespace Pool

variable {sides : List Nat} {starts steps : Option (List Value)} {weights : Option (List Decimal)} {dice : List Die}
  {pool : Pool}

/-! ### Pools -/

/-- The start or the step of die `j`: it is one where no list is given. -/
def entry (values : Option (List Value)) (j : Nat) : Value := (values.bind (·[j]?)).getD 1

/-- The weights of a die with `size` sides behind dice with `before` sides: they are ones where none are given. -/
def share (before size : Nat) : Option (List Decimal) → List Decimal
  | none => List.replicate size .one
  | some ws => (ws.drop before).take size

theorem perDie_eq_ok_iff {name : String} {n : Nat} {values : Option (List Value)} {all : List Value} :
    perDie name n values = .ok all ↔ (∀ vs ∈ values, vs.length = n) ∧ all = (List.range n).map (entry values) := by
  cases values with
  | none =>
    have hones : (List.range n).map (entry none) = List.replicate n 1 := by
      rw [List.eq_replicate_iff]
      simp [entry]
    simp [perDie, hones, eq_comm]
  | some vs =>
    by_cases hlength : vs.length = n
    · have hentries : vs = (List.range n).map (entry (some vs)) := by
        refine List.ext_getElem (by simp [hlength]) fun j hj _ => ?_
        simp [entry, hj]
      simp only [perDie, hlength, if_true, Except.ok.injEq]
      rw [← hentries]
      simp [hlength, eq_comm]
    · simp [perDie, hlength]

/-- Every die counts from its start by its step, before it is weighted. -/
structure Counts (sides : List Nat) (starts steps : Option (List Value)) (dice : List Die) : Prop where
  length : dice.length = sides.length
  die : ∀ j (_ : j < sides.length) (_ : j < dice.length),
    Die.arithmetic (entry starts j) (entry steps j) sides[j] = .ok dice[j]

theorem mapM_arithmetic_iff :
    ((sides.zip (((List.range sides.length).map (entry starts)).zip ((List.range sides.length).map (entry steps)))).mapM
      fun (n, start, step) => Die.arithmetic start step n) = .ok dice ↔
      Counts sides starts steps dice := by
  rw [mapM_eq_ok_iff, List.forall₂_iff_get]
  simp only [List.get_eq_getElem, List.getElem_zip, List.getElem_map, List.getElem_range, List.length_zip,
    List.length_map, List.length_range, Nat.min_self]
  constructor
  · rintro ⟨hlength, hdie⟩
    exact ⟨hlength.symm, hdie⟩
  · rintro ⟨hlength, hdie⟩
    exact ⟨hlength.symm, hdie⟩

theorem exists_counts_iff :
    (∃ dice, Counts sides starts steps dice) ↔
      ∀ j (_ : j < sides.length), ∃ die, Die.arithmetic (entry starts j) (entry steps j) sides[j] = .ok die := by
  constructor
  · rintro ⟨dice, hlength, hdie⟩ j hj
    exact ⟨_, hdie j hj (by omega)⟩
  · intro h
    choose make hmake using h
    exact ⟨List.ofFn fun j : Fin sides.length => make j j.isLt, by simp, fun j hj _ => by simp [hmake j hj]⟩

theorem Counts.map_sides (h : Counts sides starts steps dice) : dice.map Die.sides = sides := by
  refine List.ext_getElem (by simp [h.length]) fun j hj hj' => ?_
  rw [List.getElem_map]
  exact (Die.arithmetic_of_ok (h.die j hj' (by simpa using hj))).1

theorem arithmetic_eq_ok_iff :
    arithmetic sides starts steps weights = .ok pool ↔
      (∀ vs ∈ starts, vs.length = sides.length) ∧ (∀ vs ∈ steps, vs.length = sides.length) ∧
        ∃ dice, Counts sides starts steps dice ∧ ofWeighted dice weights = .ok pool := by
  constructor
  · intro h
    obtain ⟨_, hfirst, h⟩ := bind_eq_ok_iff.1 h
    obtain ⟨hstarts, rfl⟩ := perDie_eq_ok_iff.1 (mapError_eq_ok_iff.1 hfirst)
    obtain ⟨_, hsecond, h⟩ := bind_eq_ok_iff.1 h
    obtain ⟨hsteps, rfl⟩ := perDie_eq_ok_iff.1 (mapError_eq_ok_iff.1 hsecond)
    obtain ⟨dice, hdice, h⟩ := bind_eq_ok_iff.1 h
    exact ⟨hstarts, hsteps, dice, mapM_arithmetic_iff.1 hdice, h⟩
  · rintro ⟨hstarts, hsteps, dice, hdice, h⟩
    refine bind_eq_ok_iff.2 ⟨_, mapError_eq_ok_iff.2 (perDie_eq_ok_iff.2 ⟨hstarts, rfl⟩), ?_⟩
    refine bind_eq_ok_iff.2 ⟨_, mapError_eq_ok_iff.2 (perDie_eq_ok_iff.2 ⟨hsteps, rfl⟩), ?_⟩
    exact bind_eq_ok_iff.2 ⟨dice, mapM_arithmetic_iff.2 hdice, h⟩

theorem exists_ofWeighted_iff (hfaces : ∀ ws ∈ weights, ws.length < bound64) :
    (∃ pool, ofWeighted dice weights = .ok pool) ↔ dice ≠ [] ∧ Weighs (dice.map Die.sides).sum weights := by
  constructor
  · rintro ⟨pool, h⟩
    obtain ⟨hne, hweighs, -⟩ := ofWeighted_of_ok h
    exact ⟨hne, hweighs⟩
  · rintro ⟨hne, hweighs⟩
    exact exists_ofWeighted hne hfaces hweighs

theorem exists_arithmetic_iff (hfaces : ∀ ws ∈ weights, ws.length < bound64) :
    (∃ pool, arithmetic sides starts steps weights = .ok pool) ↔
      sides ≠ [] ∧ (∀ vs ∈ starts, vs.length = sides.length) ∧ (∀ vs ∈ steps, vs.length = sides.length) ∧
        (∀ j (_ : j < sides.length), ∃ die, Die.arithmetic (entry starts j) (entry steps j) sides[j] = .ok die) ∧
        Weighs sides.sum weights := by
  have hne {dice : List Die} (hdice : Counts sides starts steps dice) : dice ≠ [] ↔ sides ≠ [] := by
    rw [← hdice.map_sides, ne_eq, ne_eq, List.map_eq_nil_iff]
  simp only [arithmetic_eq_ok_iff, ← exists_counts_iff]
  constructor
  · rintro ⟨pool, hstarts, hsteps, dice, hdice, h⟩
    obtain ⟨hdice_ne, hweighs⟩ := (exists_ofWeighted_iff hfaces).1 ⟨pool, h⟩
    rw [hdice.map_sides] at hweighs
    exact ⟨(hne hdice).1 hdice_ne, hstarts, hsteps, ⟨dice, hdice⟩, hweighs⟩
  · rintro ⟨hsides, hstarts, hsteps, ⟨dice, hdice⟩, hweighs⟩
    rw [← hdice.map_sides] at hweighs
    obtain ⟨pool, h⟩ := (exists_ofWeighted_iff hfaces).2 ⟨(hne hdice).2 hsides, hweighs⟩
    exact ⟨pool, hstarts, hsteps, dice, hdice, h⟩

/-- Weights change neither the sides nor the values of the dice, and each die gets its share of them. -/
theorem arithmetic_of_ok (h : arithmetic sides starts steps weights = .ok pool) :
    pool.dice.length = sides.length ∧ ∀ j (_ : j < sides.length) (_ : j < pool.dice.length),
      pool.dice[j].sides = sides[j] ∧ Die.CountsBy (entry starts j) (entry steps j) pool.dice[j].values ∧
        pool.dice[j].weights = share (sides.take j).sum sides[j] weights := by
  obtain ⟨-, -, dice, hdice, h⟩ := arithmetic_eq_ok_iff.1 h
  obtain ⟨-, -, hvalues, hweights⟩ := ofWeighted_of_ok h
  have hsides : pool.dice.map Die.sides = sides := (Die.map_sides_congr hvalues).trans hdice.map_sides
  have hlength : pool.dice.length = sides.length := by rw [← hsides, List.length_map]
  refine ⟨hlength, fun j hj hj' => ?_⟩
  have hjdice : j < dice.length := by
    rw [hdice.length]
    exact hj
  have hsize : pool.dice[j].sides = sides[j] := by
    simp only [← hsides, List.getElem_map]
  have hsame : pool.dice[j].values = dice[j].values := by
    have hmaps := congrArg (·[j]?) hvalues
    simpa [hj', hjdice] using hmaps
  obtain ⟨hcount, hcounts, hones, -⟩ := Die.arithmetic_of_ok (hdice.die j hj hjdice)
  rw [← hsame] at hcounts
  refine ⟨hsize, hcounts, ?_⟩
  rw [Die.weights_getElem, hsides, hsize, hweights]
  cases weights with
  | some ws => rfl
  | none =>
    -- the weights of all dice are still their own ones
    have hown := Die.weights_getElem dice hjdice
    rw [hdice.map_sides, hcount] at hown
    exact hown.symm.trans hones

/-- The program stops at a die, or because the faces that are to be weighted cannot be counted. -/
theorem arithmetic_of_stopped {why : Stop} (h : arithmetic sides starts steps weights = .error (.stopped why)) :
    (why = .noRoom ∧ ∃ j, ∃ _ : j < sides.length,
        Die.arithmetic (entry starts j) (entry steps j) sides[j] = .error (.stopped .noRoom)) ∨
      why = .sumOverflow ∧ weights.isSome = true ∧ bound64 ≤ sides.sum := by
  rcases bind_eq_error_iff.1 h with hstarts | ⟨_, hstarts, h⟩
  · exact absurd hstarts (mapError_refused_ne_stopped why)
  rcases bind_eq_error_iff.1 h with hsteps | ⟨_, hsteps, h⟩
  · exact absurd hsteps (mapError_refused_ne_stopped why)
  obtain ⟨-, rfl⟩ := perDie_eq_ok_iff.1 (mapError_eq_ok_iff.1 hstarts)
  obtain ⟨-, rfl⟩ := perDie_eq_ok_iff.1 (mapError_eq_ok_iff.1 hsteps)
  rcases bind_eq_error_iff.1 h with hdice | ⟨dice, hdice, h⟩
  · obtain ⟨before, x, after, hzip, -, hdie⟩ := mapM_eq_error_iff.1 hdice
    have hmem : x ∈ sides.zip (((List.range sides.length).map (entry starts)).zip
        ((List.range sides.length).map (entry steps))) := by
      rw [hzip]
      exact List.mem_append_right _ List.mem_cons_self
    obtain ⟨j, hj, rfl⟩ := List.mem_iff_getElem.1 hmem
    have hj' : j < sides.length := by
      rw [List.length_zip] at hj
      omega
    obtain rfl := (Die.arithmetic_eq_stopped_iff.1 hdie).1
    refine .inl ⟨rfl, j, hj', ?_⟩
    simpa only [List.getElem_zip, List.getElem_map, List.getElem_range] using hdie
  · have hcounts := mapM_arithmetic_iff.1 hdice
    obtain ⟨hwhy, hgiven, hmany⟩ := ofWeighted_of_stopped h
    exact .inr ⟨hwhy, hgiven, hcounts.map_sides ▸ hmany⟩

/-! ### Dice and pools -/

/-- A die that counts by a step is made exactly when it has a side, its step is not zero, its last value is in range and
there is room for its faces; its values are then the progression, all different, with ones as weights.  It overflows
exactly when the last value is out of range and there is room to count up to it.  Where there is no room the program
stops, for any number of faces from `2 ^ 60` on whatever the values are.

A pool of such dice is made exactly when there is a die, the lists of starts and steps have an entry for each die, all
dice are made and the weights are one for each face and positive; die `j` then counts from its own start by its own step
and carries its share of the weights.  The pool stops the program only with one of its dice, or with weights for more
faces than can be counted. -/
theorem progressions_exact (start step : Value) (n : Nat) (sides : List Nat) (starts steps : Option (List Value))
    (weights : Option (List Decimal)) (hweights : ∀ ws ∈ weights, ws.length < bound64) :
    (((∃ die, Die.arithmetic start step n = .ok die) ↔
          1 ≤ n ∧ step ≠ 0 ∧ Value.InRange (start.toInt + ((n : Int) - 1) * step.toInt) ∧
            faceBytes * n < roomBound) ∧
        (Die.arithmetic start step n = .error (.refused .overflow) ↔
          1 ≤ n ∧ step ≠ 0 ∧ ¬Value.InRange (start.toInt + ((n : Int) - 1) * step.toInt) ∧
            valueBytes * n < roomBound) ∧
        (∀ why, Die.arithmetic start step n = .error (.stopped why) ↔
          why = .noRoom ∧ 1 ≤ n ∧ step ≠ 0 ∧
            (roomBound ≤ valueBytes * n ∨
              Value.InRange (start.toInt + ((n : Int) - 1) * step.toInt) ∧ roomBound ≤ faceBytes * n)) ∧
        ∀ die, Die.arithmetic start step n = .ok die →
          die.sides = n ∧ Die.CountsBy start step die.values ∧ die.weights = List.replicate n .one ∧
            die.values.Nodup) ∧
      ((∃ pool, arithmetic sides starts steps weights = .ok pool) ↔
        sides ≠ [] ∧ (∀ vs ∈ starts, vs.length = sides.length) ∧ (∀ vs ∈ steps, vs.length = sides.length) ∧
          (∀ j (_ : j < sides.length), ∃ die, Die.arithmetic (entry starts j) (entry steps j) sides[j] = .ok die) ∧
          Weighs sides.sum weights) ∧
      (∀ pool, arithmetic sides starts steps weights = .ok pool →
        pool.dice.length = sides.length ∧ ∀ j (_ : j < sides.length) (_ : j < pool.dice.length),
          pool.dice[j].sides = sides[j] ∧ Die.CountsBy (entry starts j) (entry steps j) pool.dice[j].values ∧
            pool.dice[j].weights = share (sides.take j).sum sides[j] weights) ∧
      ∀ why, arithmetic sides starts steps weights = .error (.stopped why) →
        (why = .noRoom ∧ ∃ j, ∃ _ : j < sides.length,
            Die.arithmetic (entry starts j) (entry steps j) sides[j] = .error (.stopped .noRoom)) ∨
          why = .sumOverflow ∧ weights.isSome = true ∧ bound64 ≤ sides.sum := by
  refine ⟨⟨Die.exists_arithmetic_iff, Die.arithmetic_eq_overflow_iff, ?_, ?_⟩, exists_arithmetic_iff hweights, ?_, ?_⟩
  · intro why
    exact Die.arithmetic_eq_stopped_iff
  · intro die h
    exact Die.arithmetic_of_ok h
  · intro pool h
    exact arithmetic_of_ok h
  · intro why h
    exact arithmetic_of_stopped h

/-- Three values reach from the least value nearly to the greatest, a fourth is out of range; the two dice of the pool
take three and two of the weights. -/
theorem progressions_exact_edges :
    (∃ die, Die.arithmetic (-9223372036854775808) 9223372036854775807 3 = .ok die) ∧
      Die.arithmetic (-9223372036854775808) 9223372036854775807 4 = .error (.refused .overflow) ∧
      ∃ pool, arithmetic [3, 2] (some [-9223372036854775808, 5]) (some [9223372036854775807, -4])
          (some [.one, .one, .one, ⟨false, 5, 1, by decide, by decide⟩, .one]) = .ok pool ∧
        ∀ _ : 1 < pool.dice.length, Die.CountsBy 5 (-4) pool.dice[1].values ∧
          pool.dice[1].weights = [⟨false, 5, 1, by decide, by decide⟩, .one] := by
  have hfew : ∀ ws ∈ some [Decimal.one, .one, .one, ⟨false, 5, 1, by decide, by decide⟩, .one],
      ws.length < bound64 := by
    rintro ws ⟨⟩
    decide
  have hdie := progressions_exact (-9223372036854775808) 9223372036854775807 3 [3, 2]
    (some [-9223372036854775808, 5]) (some [9223372036854775807, -4])
    (some [.one, .one, .one, ⟨false, 5, 1, by decide, by decide⟩, .one]) hfew
  have hover := progressions_exact (-9223372036854775808) 9223372036854775807 4 [] none none none nofun
  obtain ⟨⟨hmade, -⟩, hpool, hdice, -⟩ := hdie
  have hfits : Weighs [3, 2].sum (some [.one, .one, .one, ⟨false, 5, 1, by decide, by decide⟩, .one]) := by
    rintro ws ⟨⟩
    decide
  obtain ⟨pool, h⟩ := hpool.2 ⟨by decide, by decide, by decide, fun j hj => by
    match j, hj with
    | 0, _ => exact ⟨_, rfl⟩
    | 1, _ => exact ⟨_, rfl⟩, hfits⟩
  refine ⟨hmade.2 (by decide), hover.1.2.1.2 (by decide), pool, h, fun hlength => ?_⟩
  obtain ⟨-, hvalues, hweights⟩ := (hdice pool h).2 1 (by decide) hlength
  exact ⟨hvalues, hweights⟩

/-- The last value of the first die is out of range and that of the second one is not: the program stops before it
counts up to either. -/
theorem progressions_stop :
    ¬Value.InRange (Die.lastFace 9223372036854775807 1 1152921504606846976) ∧
      Die.arithmetic 9223372036854775807 1 1152921504606846976 = .error (.stopped .noRoom) ∧
      Value.InRange (Die.lastFace 1 1 1152921504606846976) ∧
      Die.arithmetic 1 1 1152921504606846976 = .error (.stopped .noRoom) :=
  ⟨by decide, rfl, by decide, rfl⟩

end Pool

end DiceTally
