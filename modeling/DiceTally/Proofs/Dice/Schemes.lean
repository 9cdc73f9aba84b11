import DiceTally.Dice.Request

/-!
# Equal dice and dice of several types

A request gives parts for equal dice or parts for dice of several types.  One that gives both is refused
(`pool_of_mixed`), but for starts and steps of dice of several types beside equal dice: these are not looked at
(`pool_of_stray`).
-/

namespace DiceTally

namespace PoolRequest

variable {r : PoolRequest}

/-- A part for equal dice is given. -/
def GivesSingle (r : PoolRequest) : Prop :=
  r.dieSides.isSome = true ∨ r.dieStart.isSome = true ∨ r.dieStep.isSome = true ∨ r.dieValues ≠ [] ∨ r.dieWeights ≠ []

/-- A part for dice of several types is given. -/
def GivesMulti (r : PoolRequest) : Prop :=
  r.multiSides ≠ [] ∨ r.multiStarts ≠ [] ∨ r.multiSteps ≠ [] ∨ r.multiValues ≠ [] ∨ r.multiWeights ≠ []

/-- Beside equal dice only starts or steps of dice of several types can be given. -/
structure Stray (r : PoolRequest) : Prop where
  isSingle : r.isSingle = true
  multiSides : r.multiSides = []
  multiValues : r.multiValues = []
  multiWeights : r.multiWeights = []

/-- The request without starts and steps of dice of several types. -/
def withoutProgressions (r : PoolRequest) : PoolRequest := { r with multiStarts := [], multiSteps := [] }

/-! ### Rules for what goes together -/

theorem isMulti_eq_false_iff : r.isMulti = false ↔ r.multiSides = [] := by
  simp [isMulti]

/-- Some parts exclude each other, and a start or a step needs sides. -/
structure Declared (r : PoolRequest) : Prop where
  numDice : r.numDice.isSome = true → r.multiSides = []
  dieSides : r.dieSides.isSome = true → r.dieValues = []
  dieStart : r.dieStart.isSome = true → r.dieSides.isSome = true
  dieStep : r.dieStep.isSome = true → r.dieSides.isSome = true
  multiStarts : r.multiStarts ≠ [] → r.multiValues = []
  multiSteps : r.multiSteps ≠ [] → r.multiValues = []

/-- A request that keeps these rules is consistent.  The converse fails for a start beside values. -/
theorem Declared.isConsistent (h : r.Declared) : r.isConsistent = true := by
  have apart {a b : Bool} (hab : a = true → b = false) : (!(a && b)) = true := by
    cases a with
    | true => simp [hab rfl]
    | false => rfl
  have hstarted : (r.isSingle || (r.dieStart.isNone && r.dieStep.isNone)) = true := by
    cases hsides : r.dieSides.isSome with
    | true => simp [PoolRequest.isSingle, hsides]
    | false =>
      have hstart : r.dieStart.isSome ≠ true := fun hgiven => by simp [h.dieStart hgiven] at hsides
      have hstep : r.dieStep.isSome ≠ true := fun hgiven => by simp [h.dieStep hgiven] at hsides
      simp_all
  simp only [PoolRequest.isConsistent, Bool.and_eq_true]
  refine ⟨⟨⟨⟨apart fun hgiven => ?_, apart fun hgiven => ?_⟩, apart fun hgiven => ?_⟩, apart fun hgiven => ?_⟩,
    hstarted⟩
  · exact isMulti_eq_false_iff.2 (h.numDice hgiven)
  · simp [h.dieSides hgiven]
  · simp [h.multiStarts (by simpa using hgiven)]
  · simp [h.multiSteps (by simpa using hgiven)]

/-- Without sides and values there is no start and no step. -/
theorem no_start_of_isConsistent (h : r.isConsistent = true) (hsingle : r.isSingle = false) :
    r.dieStart = .none ∧ r.dieStep = .none := by
  simp only [isConsistent, hsingle, Bool.and_eq_true, Bool.false_or, Option.isNone_iff_eq_none] at h
  exact h.2

/-! ### Requests that are refused -/

theorem pool_eq_single (hsingle : r.isSingle = true) (hmulti : r.isMulti = false) : r.pool = r.single := by
  simp [pool, hsingle, hmulti]

theorem pool_of_both (hsingle : r.isSingle = true) (hmulti : r.isMulti = true) : r.pool = .error .mixed := by
  simp [pool, hsingle, hmulti]

theorem pool_of_neither (hsingle : r.isSingle = false) (hmulti : r.isMulti = false) :
    r.pool = .error .nothingGiven := by
  simp [pool, hsingle, hmulti]

/-- Values and weights of several types need the sizes of the dice. -/
theorem pool_of_multiValues (hsingle : r.isSingle = true) (hmulti : r.isMulti = false)
    (h : ¬(r.multiValues = [] ∧ r.multiWeights = [])) : r.pool = .error .multiNeedsSides := by
  rw [pool_eq_single hsingle hmulti, single]
  exact if_pos (by simp; grind)

theorem pool_of_dieWeights (hsingle : r.isSingle = false) (hmulti : r.isMulti = true) (h : r.dieWeights ≠ []) :
    r.pool = .error .weightsForSingle := by
  simp only [pool, hsingle, hmulti, multi]
  exact if_pos (by simpa using h)

/-- Where there is nothing to weigh only weights can be given for equal dice. -/
theorem dieWeights_ne_nil (h : r.isConsistent = true) (hgives : r.GivesSingle) (hsingle : r.isSingle = false) :
    r.dieWeights ≠ [] := by
  obtain ⟨hstart, hstep⟩ := no_start_of_isConsistent h hsingle
  simp only [isSingle, Bool.or_eq_false_iff, Option.isSome_eq_false_iff, Option.isNone_iff_eq_none] at hsingle
  obtain ⟨hsides, hvalues⟩ := hsingle
  have hvalues : r.dieValues = [] := by simpa using hvalues
  simpa [GivesSingle, hsides, hstart, hstep, hvalues] using hgives

/-! ### Parts that are not looked at -/

/-- The pool of equal dice does not depend on starts and steps of dice of several types. -/
theorem pool_of_stray (h : r.Stray) : r.pool = r.withoutProgressions.pool := by
  have hmulti : r.isMulti = false := isMulti_eq_false_iff.2 h.multiSides
  have hrest : r.withoutProgressions.pool = r.withoutProgressions.single := pool_eq_single h.isSingle hmulti
  rw [hrest, pool_eq_single h.isSingle hmulti]
  rfl

/-- A request that gives parts for equal dice and parts for dice of several types is refused, but for starts and
steps of several types beside equal dice, which change nothing. -/
theorem pool_of_mixed (h : r.isConsistent = true) (hsingle : r.GivesSingle) (hmulti : r.GivesMulti) :
    (¬r.Stray → r.pool = .error .mixed ∨ r.pool = .error .nothingGiven ∨ r.pool = .error .multiNeedsSides ∨
        r.pool = .error .weightsForSingle) ∧
      (r.Stray → (r.multiStarts ≠ [] ∨ r.multiSteps ≠ []) ∧ r.pool = r.withoutProgressions.pool) := by
  constructor
  · intro hstray
    cases hs : r.isSingle with
    | true =>
      cases hm : r.isMulti with
      | true => exact .inl (pool_of_both hs hm)
      | false =>
        have hgiven : ¬(r.multiValues = [] ∧ r.multiWeights = []) := fun ⟨hvalues, hweights⟩ =>
          hstray ⟨hs, isMulti_eq_false_iff.1 hm, hvalues, hweights⟩
        exact .inr (.inr (.inl (pool_of_multiValues hs hm hgiven)))
    | false =>
      cases hm : r.isMulti with
      | true => exact .inr (.inr (.inr (pool_of_dieWeights hs hm (dieWeights_ne_nil h hsingle hs))))
      | false => exact .inr (.inl (pool_of_neither hs hm))
  · intro hstray
    refine ⟨?_, pool_of_stray hstray⟩
    rcases hmulti with hsides | hstarts | hsteps | hvalues | hweights
    · exact absurd hstray.multiSides hsides
    · exact .inl hstarts
    · exact .inr hsteps
    · exact absurd hstray.multiValues hvalues
    · exact absurd hstray.multiWeights hweights

/-- A die with three sides, and weights and a step for dice of several types. -/
def weightedThree : PoolRequest := { none with dieSides := some 3, multiSteps := [2], multiWeights := [.one] }

/-- A die with three sides, and a start for dice of several types. -/
def threeFromSeven : PoolRequest := { none with dieSides := some 3, multiStarts := [7] }

theorem pool_of_mixed_three :
    weightedThree.Declared ∧ weightedThree.GivesSingle ∧ weightedThree.GivesMulti ∧ ¬weightedThree.Stray ∧
      (weightedThree.pool = .error .mixed ∨ weightedThree.pool = .error .nothingGiven ∨
        weightedThree.pool = .error .multiNeedsSides ∨ weightedThree.pool = .error .weightsForSingle) ∧
      threeFromSeven.Declared ∧ threeFromSeven.GivesSingle ∧ threeFromSeven.GivesMulti ∧ threeFromSeven.Stray ∧
      threeFromSeven.pool = threeFromSeven.withoutProgressions.pool := by
  have hweighted : weightedThree.Declared := by constructor <;> decide
  have hnot : ¬weightedThree.Stray := fun h => absurd h.multiWeights (by decide)
  have hthree : threeFromSeven.Declared := by constructor <;> decide
  have hstray : threeFromSeven.Stray := by constructor <;> decide
  have hrefused := (pool_of_mixed hweighted.isConsistent (.inl rfl) (.inr (.inr (.inl (by decide))))).1 hnot
  have hsame := (pool_of_mixed hthree.isConsistent (.inl rfl) (.inr (.inl (by decide)))).2 hstray
  exact ⟨hweighted, .inl rfl, .inr (.inr (.inl (by decide))), hnot, hrefused, hthree, .inl rfl,
    .inr (.inl (by decide)), hstray, hsame.2⟩

/-- The start is given for dice that are not there, and the die counts from one all the same. -/
theorem stray_start_counts_from_one :
    threeFromSeven.Declared ∧ threeFromSeven.GivesSingle ∧ threeFromSeven.GivesMulti ∧
      threeFromSeven.pool.map (fun pool => pool.dice.map fun die => die.faces.map Face.value) = .ok [[1, 2, 3]] :=
  ⟨by constructor <;> decide, .inl rfl, .inr (.inl (by decide)), rfl⟩

end PoolRequest

end DiceTally
