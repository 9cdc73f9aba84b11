import DiceTally.Proofs.Operation.Positions

/-!
# Block by block

`slice-apply` looks at the full blocks of dice one by one.  Dice that do not fill a block are left out (`blocks_take`),
blocks in front of others are not changed by these (`blocks_append`), and the operation on the results comes afterwards
(`eval_sliceApply_eq_andThen`).  So the results on two parts of the dice, the first one made of full blocks, are put one
after the other, and the first block that fails decides about the failure (`sliceApply_blockwise`).  Evaluators that
have been used before answer so as well (`answer_sliceApply`).
-/

namespace DiceTally

/-! ### Blocks -/

/-- The block of dice with a number, counted from zero. -/
def blockAt (size : Nat) (dice : Tuple) (i : Nat) : Tuple := (dice.drop (i * size)).take size

theorem blocks_eq_map_blockAt (size : Nat) (dice : Tuple) :
    blocks size dice = (List.range (dice.length / size)).map (blockAt size dice) :=
  blocks_eq_consecutiveBlocks size dice

theorem blockAt_append_left {size i : Nat} {xs : Tuple} (hi : (i + 1) * size ≤ xs.length) (ys : Tuple) :
    blockAt size (xs ++ ys) i = blockAt size xs i := by
  have hstart : i * size + size ≤ xs.length := by rwa [← Nat.succ_mul]
  have hlength : size ≤ (xs.drop (i * size)).length := by
    rw [List.length_drop]
    omega
  rw [blockAt, blockAt, List.drop_append_of_le_length (by omega), List.take_append_of_le_length hlength]

theorem blockAt_append_right {size count : Nat} {xs : Tuple} (hxs : xs.length = count * size) (ys : Tuple) (i : Nat) :
    blockAt size (xs ++ ys) (count + i) = blockAt size ys i := by
  have hdrop : (xs ++ ys).drop ((count + i) * size) = ys.drop (i * size) := by
    rw [Nat.add_mul, ← hxs, ← List.drop_drop, List.drop_left]
  rw [blockAt, blockAt, hdrop]

variable {size : Nat} (hsize : 0 < size)

include hsize

/-- Full blocks stay as they are in front of other dice. -/
theorem blocks_append {xs : Tuple} (hdvd : size ∣ xs.length) (ys : Tuple) :
    blocks size (xs ++ ys) = blocks size xs ++ blocks size ys := by
  obtain ⟨count, hcount⟩ := hdvd
  have hxs : xs.length = count * size := by rw [hcount, Nat.mul_comm]
  have hnumber : (xs ++ ys).length / size = count + ys.length / size := by
    rw [List.length_append, hcount, Nat.mul_add_div hsize]
  have hnumber' : xs.length / size = count := by rw [hcount, Nat.mul_div_cancel_left count hsize]
  rw [blocks_eq_map_blockAt, blocks_eq_map_blockAt, blocks_eq_map_blockAt, hnumber, hnumber', List.range_add,
    List.map_append, List.map_map]
  congr 1
  · refine List.map_congr_left fun i hi => blockAt_append_left ?_ ys
    rw [hxs]
    exact Nat.mul_le_mul_right size (List.mem_range.1 hi)
  · exact List.map_congr_left fun i _ => blockAt_append_right hxs ys i

omit hsize in
/-- Dice that do not fill a block are in none. -/
theorem blocks_of_length_lt {dice : Tuple} (h : dice.length < size) : blocks size dice = [] := by
  rw [blocks_eq_map_blockAt, Nat.div_eq_of_lt h]
  rfl

/-- The blocks are those of the dice that fill them. -/
theorem blocks_take (dice : Tuple) : blocks size (dice.take (size * (dice.length / size))) = blocks size dice := by
  have hle : size * (dice.length / size) ≤ dice.length := Nat.mul_div_le _ _
  have hlength : (dice.take (size * (dice.length / size))).length = size * (dice.length / size) := by
    rw [List.length_take, Nat.min_eq_left hle]
  have hrest : (dice.drop (size * (dice.length / size))).length < size := by
    have hmod := Nat.div_add_mod dice.length size
    have hlt := Nat.mod_lt dice.length hsize
    rw [List.length_drop]
    omega
  have happend := blocks_append hsize (hlength ▸ Nat.dvd_mul_right _ _) (dice.drop (size * (dice.length / size)))
  rw [List.take_append_drop, blocks_of_length_lt hrest, List.append_nil] at happend
  exact happend.symm

omit hsize

namespace Operation

/-! ### Results -/

/-- The operation on each full block, and nothing more. -/
def onBlocks (size : Nat) (inner : Operation) : Operation := sliceApply size inner (primitive .identity)

theorem eval_onBlocks (size : Nat) (inner : Operation) (dice : Tuple) :
    (onBlocks size inner).eval dice = ((blocks size dice).mapM inner.eval).map List.flatten := by
  rw [onBlocks, eval]
  cases (blocks size dice).mapM inner.eval <;> rfl

/-- The operation on the results may as well come as a stage of its own. -/
theorem eval_sliceApply_eq_andThen (size : Nat) (inner outer : Operation) (dice : Tuple) :
    (sliceApply size inner outer).eval dice = (andThen (onBlocks size inner) outer).eval dice := by
  rw [eval, eval, eval_onBlocks]
  cases (blocks size dice).mapM inner.eval <;> rfl

/-- Dice that do not fill a block make no difference. -/
theorem eval_sliceApply_take {size : Nat} (hsize : 0 < size) (inner outer : Operation) (dice : Tuple) :
    (sliceApply size inner outer).eval (dice.take (size * (dice.length / size))) =
      (sliceApply size inner outer).eval dice := by
  rw [eval, eval, blocks_take hsize]

/-- A block fails, and none before it. -/
def FirstFailure (size : Nat) (inner : Operation) (dice : Tuple) (e : EvalError) : Prop :=
  ∃ i < dice.length / size, inner.eval (blockAt size dice i) = .error e ∧
    ∀ j < i, ∃ result, inner.eval (blockAt size dice j) = .ok result

/-- The failure is that of the first block that fails. -/
theorem eval_onBlocks_eq_error_iff {size : Nat} {inner : Operation} {dice : Tuple} {e : EvalError} :
    (onBlocks size inner).eval dice = .error e ↔ FirstFailure size inner dice e := by
  have hmap : (onBlocks size inner).eval dice = .error e ↔ (blocks size dice).mapM inner.eval = .error e := by
    rw [eval_onBlocks]
    cases (blocks size dice).mapM inner.eval <;> simp [Except.map]
  rw [hmap, blocks_eq_map_blockAt, List.mapM_map, mapM_range_eq_error_iff]
  rfl

/-- The results on full blocks come before those on the other dice. -/
theorem eval_onBlocks_append {size : Nat} (hsize : 0 < size) (inner : Operation) {xs : Tuple}
    (hdvd : size ∣ xs.length) (ys : Tuple) :
    (onBlocks size inner).eval (xs ++ ys) = do
      let results ← (onBlocks size inner).eval xs
      let others ← (onBlocks size inner).eval ys
      return results ++ others := by
  rw [eval_onBlocks, eval_onBlocks, eval_onBlocks, blocks_append hsize hdvd, List.mapM_append]
  cases (blocks size xs).mapM inner.eval with
  | error e => rfl
  | ok results =>
    cases (blocks size ys).mapM inner.eval with
    | error e => rfl
    | ok others => exact congrArg Except.ok List.flatten_append

/-- Dice that do not fill a block make no difference, and the operation on the results of the blocks may come as a stage
of its own.  When the blocks of some dice are followed by other dice, the results on them are followed by the results on
the others; the operation fails on all of them if and only if it fails on one of the two parts, and the failure is that
of the first block that fails. -/
theorem sliceApply_blockwise {size : Nat} (hsize : 0 < size) (inner outer : Operation) (xs ys : Tuple) :
    (sliceApply size inner outer).eval xs =
        (sliceApply size inner outer).eval (xs.take (size * (xs.length / size))) ∧
      (sliceApply size inner outer).eval xs = (andThen (onBlocks size inner) outer).eval xs ∧
      (size ∣ xs.length →
        (∀ results others, (onBlocks size inner).eval xs = .ok results → (onBlocks size inner).eval ys = .ok others →
          (onBlocks size inner).eval (xs ++ ys) = .ok (results ++ others)) ∧
        ((∃ e, (onBlocks size inner).eval (xs ++ ys) = .error e) ↔
          (∃ e, (onBlocks size inner).eval xs = .error e) ∨ ∃ e, (onBlocks size inner).eval ys = .error e) ∧
        ∀ e, (onBlocks size inner).eval (xs ++ ys) = .error e ↔ FirstFailure size inner (xs ++ ys) e) := by
  refine ⟨(eval_sliceApply_take hsize inner outer xs).symm, eval_sliceApply_eq_andThen size inner outer xs,
    fun hdvd => ⟨?_, ?_, fun e => eval_onBlocks_eq_error_iff⟩⟩
  · intro results others hxs hys
    rw [eval_onBlocks_append hsize inner hdvd, hxs, hys]
    rfl
  · rw [eval_onBlocks_append hsize inner hdvd]
    cases (onBlocks size inner).eval xs with
    | error e => simp [bind, Except.bind]
    | ok results =>
      cases (onBlocks size inner).eval ys with
      | error e => simp [bind, Except.bind]
      | ok others => simp [bind, Except.bind, pure, Except.pure]

/-- Of three dice the sum of the first two, moved up to the end of the range. -/
def raisedSum : Operation :=
  .sliceApply 2 (.primitive (.reduce .sum)) (.primitive (.add [9223372036854775807]))

/-- The second block does not fit any more; the last die is in no block. -/
theorem sliceApply_blockwise_raisedSum :
    0 < 3 ∧ 3 ∣ ([-1, -2, 5] : Tuple).length ∧
      (onBlocks 3 raisedSum).eval [-1, -2, 5] = .ok [9223372036854775804] ∧
      (onBlocks 3 raisedSum).eval ([-1, -2, 5] ++ [0, 1, 7, 4]) = .error (.overflow "add") ∧
      FirstFailure 3 raisedSum ([-1, -2, 5] ++ [0, 1, 7, 4]) (.overflow "add") := by
  have hdvd : 3 ∣ ([-1, -2, 5] : Tuple).length := by decide
  have hfails : (onBlocks 3 raisedSum).eval ([-1, -2, 5] ++ [0, 1, 7, 4]) = .error (.overflow "add") := by rfl
  obtain ⟨-, -, hparts⟩ :=
    sliceApply_blockwise (by decide : 0 < 3) raisedSum (.primitive .sort) [-1, -2, 5] [0, 1, 7, 4]
  exact ⟨by decide, hdvd, by rfl, hfails, ((hparts hdvd).2.2 _).1 hfails⟩

/-! ### Used evaluators -/

/-- The same is true of evaluators that have been used before, where no two cached levels share a cache. -/
theorem answer_sliceApply {registry : Registry} (hregistry : registry.Parsed) {size : Nat} (hsize : 0 < size)
    {inner outer : Operation} (hop : (sliceApply size inner outer).Linked registry)
    (happart : (sliceApply size inner outer).Apart) (whole whole' : (sliceApply size inner outer).Evaluator)
    (staged : (andThen (onBlocks size inner) outer).Evaluator) (first second both : (onBlocks size inner).Evaluator)
    (xs ys : Tuple) :
    whole.answer xs = whole'.answer (xs.take (size * (xs.length / size))) ∧ whole.answer xs = staged.answer xs ∧
      (size ∣ xs.length →
        both.answer (xs ++ ys) = (do
          let results ← first.answer xs
          let others ← second.answer ys
          return results ++ others)) ∧
      ∀ e, both.answer xs = .error e ↔ FirstFailure size inner xs e := by
  have hblocks : (onBlocks size inner).Linked registry := ⟨hop.1, trivial⟩
  have hstaged : (andThen (onBlocks size inner) outer).Linked registry := ⟨hblocks, hop.2⟩
  have hmemos : (onBlocks size inner).memos = inner.memos := List.append_nil _
  have hblocksApart : (onBlocks size inner).Apart := by
    rw [Apart, hmemos]
    rw [Apart, memos, List.map_append] at happart
    exact happart.of_append_left
  have hstagedApart : (andThen (onBlocks size inner) outer).Apart := by
    rw [Apart, memos, hmemos]
    exact happart
  have honBlocks := Evaluator.answer_of_linked hregistry hblocks hblocksApart
  rw [whole.answer_of_linked hregistry hop happart, whole'.answer_of_linked hregistry hop happart,
    staged.answer_of_linked hregistry hstaged hstagedApart, honBlocks both, honBlocks both, honBlocks first,
    honBlocks second]
  exact ⟨(eval_sliceApply_take hsize inner outer xs).symm, eval_sliceApply_eq_andThen size inner outer xs,
    fun hdvd => eval_onBlocks_append hsize inner hdvd ys, fun e => eval_onBlocks_eq_error_iff⟩

end Operation

end DiceTally
