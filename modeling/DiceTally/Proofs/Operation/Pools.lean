import DiceTally.Proofs.Operation.Selection

/-!
# Whole pools

The steps that look at the pool as a whole do not depend on the order of the dice, as long as no total on the way to
their result is too large for a value.  `sort`, `select`, `min` and `max` see the dice in ascending order, and the
bitwise reductions have no totals that do not fit.  `sum` and `prod` go through the dice in the order of the roll and
fail as soon as the total over the first dice is no value (`Reduction.apply_cases`); in another order of the same dice
this may not happen (`totals_depend_on_order`).  Where the totals on the way fit in both orders, or in neither, the
results are the same (`eval_perm`).
-/

namespace DiceTally

/-! ### Folds from the first die -/

/-- The order is of no importance to a commutative and associative fold. -/
theorem foldFirst_perm (operation : String) (f : Value → Value → Value) [Std.Commutative f] [Std.Associative f]
    {dice dice' : Tuple} (h : dice.Perm dice') : foldFirst operation f dice = foldFirst operation f dice' := by
  induction h with
  | nil => rfl
  | cons x h _ => exact congrArg Except.ok (h.foldl_eq x)
  | swap x y dice =>
    have hcomm : f y x = f x y := Std.Commutative.comm y x
    rw [foldFirst, foldFirst, List.foldl_cons, List.foldl_cons, hcomm]
  | trans _ _ ih ih' => exact ih.trans ih'

/-! ### Totals -/

/-- The reductions that are totals over the integers. -/
def Reduction.total? : Reduction → Option (List Int → Int)
  | sum => some List.sum
  | product => some List.prod
  | _ => none

/-- The totals over the first dice are values, over any number of them up to all. -/
def TotalsFit (total : List Int → Int) (dice : Tuple) : Prop :=
  ∀ count, -Value.bound ≤ total ((dice.take count).map Int64.toInt) ∧
    total ((dice.take count).map Int64.toInt) < Value.bound

/-- More dice than there are add nothing. -/
theorem totalsFit_iff {total : List Int → Int} {dice : Tuple} :
    TotalsFit total dice ↔ ∀ count ≤ dice.length, -Value.bound ≤ total ((dice.take count).map Int64.toInt) ∧
      total ((dice.take count).map Int64.toInt) < Value.bound := by
  constructor
  · exact fun h count _ => h count
  · intro h count
    by_cases hcount : count ≤ dice.length
    · exact h count hcount
    · have hall := h dice.length (Nat.le_refl _)
      rwa [List.take_length, ← List.take_of_length_le (Nat.le_of_not_le hcount)] at hall

instance (total : List Int → Int) (dice : Tuple) : Decidable (TotalsFit total dice) :=
  decidable_of_iff' _ totalsFit_iff

/-- A checked fold has the exact result if what it has after any number of dice is a value, and overflows otherwise. -/
theorem foldlM_checked_cases (operation : String) (f : Int → Int → Int) (start : Value) (dice : Tuple) :
    (TotalsFit (List.foldl f start.toInt) dice ∧ ∃ v,
        dice.foldlM (fun acc x => checked operation (f acc.toInt x.toInt)) start = .ok v ∧
          v.toInt = (dice.map Int64.toInt).foldl f start.toInt) ∨
      ¬TotalsFit (List.foldl f start.toInt) dice ∧
        dice.foldlM (fun acc x => checked operation (f acc.toInt x.toInt)) start = .error (.overflow operation) := by
  induction dice generalizing start with
  | nil =>
    refine .inl ⟨fun count => ?_, start, rfl, rfl⟩
    rw [List.take_nil]
    exact ⟨start.le_toInt, start.toInt_lt⟩
  | cons x dice ih =>
    rw [List.foldlM_cons]
    rcases checked_cases operation (f start.toInt x.toInt) with ⟨-, v, hv, htoInt⟩ | ⟨hrange, herror⟩
    · have hfit : TotalsFit (List.foldl f start.toInt) (x :: dice) ↔ TotalsFit (List.foldl f v.toInt) dice := by
        constructor
        · intro h count
          have hnext := h (count + 1)
          rwa [List.take_succ_cons, List.map_cons, List.foldl_cons, ← htoInt] at hnext
        · intro h count
          cases count with
          | zero => exact ⟨start.le_toInt, start.toInt_lt⟩
          | succ count =>
            rw [List.take_succ_cons, List.map_cons, List.foldl_cons, ← htoInt]
            exact h count
      rw [hfit, hv, List.map_cons, List.foldl_cons, ← htoInt]
      exact ih v
    · refine .inr ⟨fun h => hrange ?_, ?_⟩
      · exact h 1
      · rw [herror]
        rfl

/-- `sum` and `prod` give the exact total, or overflow as soon as a total over the first dice is no value. -/
theorem Reduction.apply_cases {reduction : Reduction} {total : List Int → Int} (h : reduction.total? = some total)
    (dice : Tuple) :
    (TotalsFit total dice ∧ ∃ v, reduction.apply dice = .ok v ∧ v.toInt = total (dice.map Int64.toInt)) ∨
      ¬TotalsFit total dice ∧ reduction.apply dice = .error (.overflow reduction.keyword) := by
  cases reduction with
  | sum =>
    obtain rfl := Option.some.inj h
    have hsum : (List.sum : List Int → Int) = List.foldl (· + ·) (0 : Value).toInt :=
      funext fun _ => List.sum_eq_foldl
    rw [hsum]
    exact foldlM_checked_cases "sum" (· + ·) 0 dice
  | product =>
    obtain rfl := Option.some.inj h
    have hprod : (List.prod : List Int → Int) = List.foldl (· * ·) (1 : Value).toInt :=
      funext fun _ => List.prod_eq_foldl
    rw [hprod]
    exact foldlM_checked_cases "prod" (· * ·) 1 dice
  | min | max | bitOr | bitXor | bitAnd => cases h

theorem total_perm {reduction : Reduction} {total : List Int → Int} (h : reduction.total? = some total)
    {xs ys : List Int} (hperm : xs.Perm ys) : total xs = total ys := by
  cases reduction with
  | sum =>
    obtain rfl := Option.some.inj h
    exact hperm.sum_eq
  | product =>
    obtain rfl := Option.some.inj h
    exact hperm.prod_eq
  | min | max | bitOr | bitXor | bitAnd => cases h

/-! ### Steps on reordered dice -/

theorem nil_or_ne_nil_of_perm {dice dice' : Tuple} (h : dice.Perm dice') :
    dice = [] ∧ dice' = [] ∨ dice ≠ [] ∧ dice' ≠ [] := by
  by_cases hdice : dice = []
  · subst hdice
    exact .inl ⟨rfl, List.nil_perm.1 h⟩
  · refine .inr ⟨hdice, ?_⟩
    rintro rfl
    exact hdice (List.perm_nil.1 h)

namespace Operation

section

variable {reduction : Reduction} {total : List Int → Int} (htotal : reduction.total? = some total) {dice : Tuple}

include htotal

/-- The exact total, if all totals on the way fit. -/
theorem eval_reduce_of_totalsFit (hfit : TotalsFit total dice) :
    ∃ v : Value, (primitive (.reduce reduction)).eval dice = .ok [v] ∧ v.toInt = total (dice.map Int64.toInt) := by
  rcases Reduction.apply_cases htotal dice with ⟨-, v, hv, htoInt⟩ | ⟨hnot, -⟩
  · refine ⟨v, ?_, htoInt⟩
    rw [eval, Primitive.apply, hv]
    rfl
  · exact absurd hfit hnot

theorem eval_reduce_of_not_totalsFit (hfit : ¬TotalsFit total dice) :
    (primitive (.reduce reduction)).eval dice = .error (.overflow reduction.keyword) := by
  rcases Reduction.apply_cases htotal dice with ⟨hdice, -⟩ | ⟨-, herror⟩
  · exact absurd hdice hfit
  · rw [eval, Primitive.apply, herror]
    rfl

end

section

variable {dice dice' : Tuple} (h : dice.Perm dice')

include h

theorem eval_select_perm (indices : List Value) :
    (primitive (.select indices)).eval dice = (primitive (.select indices)).eval dice' := by
  rw [eval, eval, Primitive.apply, Primitive.apply, selectPlaces, selectPlaces, sorted_perm h]

/-- Without totals a reduction has the same result, or the same failure, in any order. -/
theorem eval_reduce_perm {reduction : Reduction} (hnone : reduction.total? = none) :
    (primitive (.reduce reduction)).eval dice = (primitive (.reduce reduction)).eval dice' := by
  cases reduction with
  | sum | product => cases hnone
  | min =>
    rcases nil_or_ne_nil_of_perm h with ⟨rfl, rfl⟩ | ⟨hdice, hdice'⟩
    · rfl
    · rw [← eval_select_first hdice, ← eval_select_first hdice', eval_select_perm h]
  | max =>
    rcases nil_or_ne_nil_of_perm h with ⟨rfl, rfl⟩ | ⟨hdice, hdice'⟩
    · rfl
    · rw [← eval_select_last hdice, ← eval_select_last hdice', eval_select_perm h]
  | bitOr =>
    have hfold : dice.foldl (· ||| ·) 0 = dice'.foldl (· ||| ·) 0 := h.foldl_eq 0
    exact congrArg (fun v => Except.ok [v]) hfold
  | bitXor => exact congrArg (Except.map fun v => [v]) (foldFirst_perm "bit-xor" (· ^^^ ·) h)
  | bitAnd => exact congrArg (Except.map fun v => [v]) (foldFirst_perm "bit-and" (· &&& ·) h)

/-- The totals on the way fit in both orders, or in neither. -/
theorem eval_total_perm {reduction : Reduction} {total : List Int → Int} (htotal : reduction.total? = some total)
    (hfit : TotalsFit total dice ↔ TotalsFit total dice') :
    (primitive (.reduce reduction)).eval dice = (primitive (.reduce reduction)).eval dice' := by
  have hsame : total (dice.map Int64.toInt) = total (dice'.map Int64.toInt) :=
    total_perm htotal (h.map Int64.toInt)
  have happly : reduction.apply dice = reduction.apply dice' := by
    rcases Reduction.apply_cases htotal dice with ⟨hdice, v, hv, htoInt⟩ | ⟨hdice, herror⟩
    · rcases Reduction.apply_cases htotal dice' with ⟨-, v', hv', htoInt'⟩ | ⟨hdice', -⟩
      · have hvalue : v = v' := Int64.toInt_inj.1 (htoInt.trans (hsame.trans htoInt'.symm))
        rw [hv, hv', hvalue]
      · exact absurd (hfit.1 hdice) hdice'
    · rcases Reduction.apply_cases htotal dice' with ⟨hdice', -⟩ | ⟨-, herror'⟩
      · exact absurd (hfit.2 hdice') hdice
      · rw [herror, herror']
  rw [eval, eval, Primitive.apply, Primitive.apply, happly]

/-- The steps on whole pools have the same result, or the same failure, on the dice in any order: `sort`, `select` and
the reductions but `sum` and `prod` always, and these two where the totals over the first dice fit in both orders or in
neither.  They have the exact total if all these totals fit, and overflow otherwise. -/
theorem eval_perm :
    (∀ reduction : Reduction, reduction.total? = none →
        (primitive (.reduce reduction)).eval dice = (primitive (.reduce reduction)).eval dice') ∧
      (primitive .sort).eval dice = (primitive .sort).eval dice' ∧
      (∀ indices, (primitive (.select indices)).eval dice = (primitive (.select indices)).eval dice') ∧
      ∀ reduction total, Reduction.total? reduction = some total →
        ((TotalsFit total dice ↔ TotalsFit total dice') →
            (primitive (.reduce reduction)).eval dice = (primitive (.reduce reduction)).eval dice') ∧
          (TotalsFit total dice → ∃ v : Value, (primitive (.reduce reduction)).eval dice = .ok [v] ∧
            v.toInt = total (dice.map Int64.toInt)) ∧
          (¬TotalsFit total dice →
            (primitive (.reduce reduction)).eval dice = .error (.overflow reduction.keyword)) := by
  exact ⟨fun _ => eval_reduce_perm h, congrArg Except.ok (sorted_perm h), eval_select_perm h,
    fun reduction total htotal => ⟨eval_total_perm h htotal, eval_reduce_of_totalsFit htotal,
      eval_reduce_of_not_totalsFit htotal⟩⟩

/-- Evaluators that have been used before answer so as well, each to the dice in its order. -/
theorem answer_perm :
    (∀ reduction : Reduction, reduction.total? = none → ∀ one other : (primitive (.reduce reduction)).Evaluator,
        one.answer dice = other.answer dice') ∧
      (∀ one other : (primitive .sort).Evaluator, one.answer dice = other.answer dice') ∧
      (∀ indices, ∀ one other : (primitive (.select indices)).Evaluator, one.answer dice = other.answer dice') ∧
      ∀ reduction total, Reduction.total? reduction = some total →
        ∀ one other : (primitive (.reduce reduction)).Evaluator,
          ((TotalsFit total dice ↔ TotalsFit total dice') → one.answer dice = other.answer dice') ∧
            (TotalsFit total dice → ∃ v : Value, one.answer dice = .ok [v] ∧ v.toInt = total (dice.map Int64.toInt)) ∧
            (¬TotalsFit total dice → one.answer dice = .error (.overflow reduction.keyword)) := by
  simp only [Evaluator.answer_primitive]
  exact ⟨fun reduction hnone _ _ => eval_reduce_perm h hnone, fun _ _ => congrArg Except.ok (sorted_perm h),
    fun indices _ _ => eval_select_perm h indices, fun reduction total htotal _ _ => ⟨eval_total_perm h htotal,
      eval_reduce_of_totalsFit htotal, eval_reduce_of_not_totalsFit htotal⟩⟩

end

/-- In one order a total on the way does not fit: the same dice have a sum, or a product, in another order. -/
theorem totals_depend_on_order :
    [Int64.maxValue, 1, -1].Perm [Int64.maxValue, -1, 1] ∧
      (primitive (.reduce .sum)).eval [Int64.maxValue, 1, -1] = .error (.overflow "sum") ∧
      (primitive (.reduce .sum)).eval [Int64.maxValue, -1, 1] = .ok [Int64.maxValue] ∧
      [Int64.maxValue, 2, 0].Perm [Int64.maxValue, 0, 2] ∧
      (primitive (.reduce .product)).eval [Int64.maxValue, 2, 0] = .error (.overflow "prod") ∧
      (primitive (.reduce .product)).eval [Int64.maxValue, 0, 2] = .ok [0] :=
  ⟨(List.Perm.swap ..).cons _, by cbv, by cbv, (List.Perm.swap ..).cons _, by cbv, by cbv⟩

theorem eval_perm_signs :
    ([3, -5, 4] : Tuple).Perm [-5, 3, 4] ∧
      (primitive (.reduce .bitXor)).eval [3, -5, 4] = (primitive (.reduce .bitXor)).eval [-5, 3, 4] ∧
      TotalsFit List.sum [3, -5, 4] ∧ TotalsFit List.sum [-5, 3, 4] ∧
      (primitive (.reduce .sum)).eval [3, -5, 4] = (primitive (.reduce .sum)).eval [-5, 3, 4] := by
  have hperm : ([3, -5, 4] : Tuple).Perm [-5, 3, 4] := .swap ..
  have hfit : TotalsFit List.sum [3, -5, 4] := by decide
  have hfit' : TotalsFit List.sum [-5, 3, 4] := by decide
  obtain ⟨hplain, -, -, htotal⟩ := eval_perm hperm
  exact ⟨hperm, hplain .bitXor rfl, hfit, hfit', (htotal .sum List.sum rfl).1 (iff_of_true hfit hfit')⟩

end Operation

end DiceTally
