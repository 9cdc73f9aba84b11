import DiceTally.Condition.Eval
import DiceTally.Proofs.Condition.Shape
import DiceTally.Proofs.Value
import Mathlib

/-!
# Conditions as statements about integers

A condition says something of an integer at a position (`Condition.Holds`): comparisons joined by `and`, `or` and
`not`, where `mod` goes on with what a division rounded down leaves (`IsRemainder`).  The remainder of two words is
computed without overflow (`isRemainder_wordRemainder`), and so a condition that has been read is decided as the
integers say (`eval_eq_reading`).  There is no answer where a list has no operand for the position or a `mod` divides
the least value by `-1`; the failure is then that of the first leaf that fails, whatever the others say.
-/

namespace DiceTally

/-! ### Remainders -/

/-- What a division rounded down leaves: the dividend without a multiple of the divisor, between zero and the
divisor. -/
structure IsRemainder (n d r : Int) : Prop where
  exists_quotient : ∃ q, n = d * q + r
  between : 0 ≤ r ∧ r < d ∨ d < r ∧ r ≤ 0

theorem IsRemainder.fmod_eq {n d r : Int} (h : IsRemainder n d r) : n.fmod d = r := by
  obtain ⟨q, hq⟩ := h.exists_quotient
  have hsum : r + d * q = n := by omega
  rcases h.between with ⟨hr, hlt⟩ | ⟨hlt, hr⟩
  · have hd : 0 < d := by omega
    exact ((Int.fdiv_fmod_unique hd).2 ⟨hsum, hr, hlt⟩).2
  · have hd : d < 0 := by omega
    exact ((Int.fdiv_fmod_unique' hd).2 ⟨hsum, hlt, hr⟩).2

theorem IsRemainder.unique {n d r r' : Int} (h : IsRemainder n d r) (h' : IsRemainder n d r') : r = r' := by
  rw [← h.fmod_eq, h'.fmod_eq]

theorem natAbs_tmod_lt (n : Int) {d : Int} (hd : d ≠ 0) : (n.tmod d).natAbs < d.natAbs := by
  rw [Int.natAbs_tmod]
  exact Nat.mod_lt _ (by omega)

/-- The sum of a remainder and a divisor of different signs does not overflow. -/
theorem toInt_wordRemainder (value divisor : Value) (hd : divisor ≠ 0) :
    (wordRemainder value divisor).toInt =
      let r := value.toInt.tmod divisor.toInt
      if r ≠ 0 ∧ ¬(r < 0 ↔ divisor.toInt < 0) then r + divisor.toInt else r := by
  have hrem : (value % divisor).toInt = value.toInt.tmod divisor.toInt := Int64.toInt_mod value divisor
  have hzero : value % divisor = 0 ↔ value.toInt.tmod divisor.toInt = 0 := by
    rw [← Int64.toInt_inj, hrem]
    rfl
  have hlow := divisor.le_toInt
  have hhigh := divisor.toInt_lt
  have hsmall := natAbs_tmod_lt value.toInt (Value.toInt_ne_zero hd)
  simp only [wordRemainder, ne_eq, hzero, Int64.lt_iff_toInt_lt, hrem, Int64.toInt_zero]
  split
  · rename_i hsigns
    rw [Int64.toInt_add, hrem]
    exact Int.bmod_eq_of_le (by omega) (by omega)
  · exact hrem

theorem isRemainder_wordRemainder (value divisor : Value) (hd : divisor ≠ 0) :
    IsRemainder value.toInt divisor.toInt (wordRemainder value divisor).toInt := by
  rw [toInt_wordRemainder value divisor hd]
  generalize value.toInt = n
  have hsmall := natAbs_tmod_lt n (Value.toInt_ne_zero hd)
  generalize divisor.toInt = d at hsmall
  have hsum := Int.mul_tdiv_add_tmod n d
  dsimp only
  split
  · refine ⟨⟨n.tdiv d - 1, ?_⟩, by omega⟩
    rw [Int.mul_sub, Int.mul_one]
    omega
  · exact ⟨⟨n.tdiv d, hsum.symm⟩, by omega⟩

theorem floorMod_eq_wordRemainder {value divisor : Value} (hd : divisor ≠ 0) :
    floorMod value divisor =
      if value = Int64.minValue ∧ divisor = -1 then .error (.overflow "mod")
      else .ok (wordRemainder value divisor) := by
  simp only [floorMod, hd, false_or]

/-- The remainder is the one that the integers have for a division rounded down. -/
theorem floorMod_eq_fmod {value divisor : Value} (hd : divisor ≠ 0) :
    floorMod value divisor =
      if value = Int64.minValue ∧ divisor = -1 then .error (.overflow "mod")
      else .ok (Int64.ofInt (value.toInt.fmod divisor.toInt)) := by
  rw [floorMod_eq_wordRemainder hd, (isRemainder_wordRemainder value divisor hd).fmod_eq, Int64.ofInt_toInt]

/-! ### Operands -/

/-- There is one operand for all positions, or one for this position. -/
def HasOperand (operands : List Value) (position : Nat) : Prop :=
  operands.length = 1 ∨ position < operands.length

/-- The operand for a position: the only one, or the one at this position. -/
def IsOperand (operands : List Value) (position : Nat) (operand : Value) : Prop :=
  operands = [operand] ∨ operands.length ≠ 1 ∧ operands[position]? = some operand

theorem IsOperand.unique {operands : List Value} {position : Nat} {m m' : Value}
    (h : IsOperand operands position m) (h' : IsOperand operands position m') : m = m' := by
  rcases h with rfl | ⟨hlength, h⟩
  · rcases h' with h' | ⟨hlength', -⟩
    · exact List.head_eq_of_cons_eq h'
    · exact absurd rfl hlength'
  · rcases h' with rfl | ⟨-, h'⟩
    · exact absurd rfl hlength
    · exact Option.some.inj (h.symm.trans h')

theorem IsOperand.hasOperand {operands : List Value} {position : Nat} {m : Value}
    (h : IsOperand operands position m) : HasOperand operands position := by
  rcases h with rfl | ⟨-, h⟩
  · exact .inl rfl
  · exact .inr (List.getElem?_eq_some_iff.1 h).1

theorem IsOperand.mem {operands : List Value} {position : Nat} {m : Value} (h : IsOperand operands position m) :
    m ∈ operands := by
  rcases h with rfl | ⟨-, h⟩
  · exact List.mem_singleton.2 rfl
  · exact List.mem_of_getElem? h

theorem operandAt_cases (keyword : String) (operands : List Value) (position : Nat) :
    (∃ m, IsOperand operands position m ∧ operandAt keyword operands position = .ok m) ∨
      ¬HasOperand operands position ∧
        operandAt keyword operands position = .error (.missingOperand keyword position operands.length) := by
  unfold operandAt
  split
  · exact .inl ⟨_, .inl rfl, rfl⟩
  · rename_i hmany
    have hlength : operands.length ≠ 1 := by
      intro h
      obtain ⟨m, rfl⟩ := List.length_eq_one_iff.1 h
      exact hmany m rfl
    split
    · rename_i m hm
      exact .inl ⟨m, .inr ⟨hlength, hm⟩, rfl⟩
    · rename_i hnone
      have hle : operands.length ≤ position := List.getElem?_eq_none_iff.1 hnone
      refine .inr ⟨?_, rfl⟩
      unfold HasOperand
      omega

/-! ### The reading of a condition -/

/-- A comparison of integers. -/
def Comparison.Relates : Comparison → Int → Int → Prop
  | eq, m, n => m = n
  | ne, m, n => m ≠ n
  | gt, m, n => n < m
  | ge, m, n => n ≤ m
  | lt, m, n => m < n
  | le, m, n => m ≤ n

theorem Comparison.holds_iff (comparison : Comparison) (a b : Value) :
    comparison.holds a b = true ↔ comparison.Relates a.toInt b.toInt := by
  cases comparison <;>
    simp [holds, Relates, Int64.toInt_inj, Int64.lt_iff_toInt_lt, Int64.le_iff_toInt_le]

namespace Condition

/-- What a condition says of an integer at a position. -/
def Holds : Condition → Int → Nat → Prop
  | always, _, _ => True
  | compare comparison operands, n, position => ∃ m, IsOperand operands position m ∧ comparison.Relates n m.toInt
  | modulo divisors inner, n, position =>
    ∃ d r, IsOperand divisors position d ∧ IsRemainder n d.toInt r ∧ inner.Holds r position
  | not inner, n, position => ¬inner.Holds n position
  | and left right, n, position => left.Holds n position ∧ right.Holds n position
  | or left right, n, position => left.Holds n position ∨ right.Holds n position

/-- The lists of operands and of divisors, from left to right. -/
def lists : Condition → List (List Value)
  | always => []
  | compare _ operands => [operands]
  | modulo divisors inner => divisors :: inner.lists
  | not inner => inner.lists
  | and left right | or left right => left.lists ++ right.lists

/-- A `mod` has the least value to divide by `-1`. -/
def DividesLeast : Condition → Int → Nat → Prop
  | always, _, _ | compare _ _, _, _ => False
  | modulo divisors inner, n, position =>
    ∃ d, IsOperand divisors position d ∧
      (n = -Value.bound ∧ d.toInt = -1 ∨ ∃ r, IsRemainder n d.toInt r ∧ inner.DividesLeast r position)
  | not inner, n, position => inner.DividesLeast n position
  | and left right, n, position | or left right, n, position =>
    left.DividesLeast n position ∨ right.DividesLeast n position

/-- There is an answer for an integer at a position. -/
def Answers (c : Condition) (n : Int) (position : Nat) : Prop :=
  (∀ operands ∈ c.lists, HasOperand operands position) ∧ ¬c.DividesLeast n position

/-- The comparisons, each with every `mod` in front of it, from left to right. -/
def leaves : Condition → List Condition
  | always => []
  | compare comparison operands => [compare comparison operands]
  | modulo divisors inner => [modulo divisors inner]
  | not inner => inner.leaves
  | and left right | or left right => left.leaves ++ right.leaves

/-- Why a leaf has no answer. -/
inductive Fails (position : Nat) : Condition → Int → EvalError → Prop where
  | operand {comparison : Comparison} {operands : List Value} {n : Int} (h : ¬HasOperand operands position) :
    Fails position (compare comparison operands) n
      (.missingOperand comparison.keyword position operands.length)
  | divisor {divisors : List Value} {inner : Condition} {n : Int} (h : ¬HasOperand divisors position) :
    Fails position (modulo divisors inner) n (.missingOperand "mod" position divisors.length)
  | least {divisors : List Value} {inner : Condition} {d : Value} (h : IsOperand divisors position d)
    (hd : d.toInt = -1) : Fails position (modulo divisors inner) (-Value.bound) (.overflow "mod")
  | remainder {divisors : List Value} {inner : Condition} {d : Value} {n r : Int} {e : EvalError}
    (h : IsOperand divisors position d) (hleast : ¬(n = -Value.bound ∧ d.toInt = -1))
    (hr : IsRemainder n d.toInt r) (hinner : Fails position inner r e) : Fails position (modulo divisors inner) n e

theorem leaves_of_isLeaf {c : Condition} (h : c.isLeaf = true) : c.leaves = [c] := by
  cases c <;> first | rfl | cases h

/-! ### `mod` -/

theorem dividesLeast_modulo {divisors : List Value} {inner : Condition} {position : Nat} {d : Value}
    (hd : IsOperand divisors position d) (hminus : d.toInt = -1) :
    (modulo divisors inner).DividesLeast (-Value.bound) position := by
  rw [DividesLeast]
  exact ⟨d, hd, .inl ⟨rfl, hminus⟩⟩

section

variable {divisors : List Value} {inner : Condition} {position : Nat} {d : Value} {n r : Int}
  (hd : IsOperand divisors position d) (hr : IsRemainder n d.toInt r)

include hd hr

theorem holds_modulo_iff : (modulo divisors inner).Holds n position ↔ inner.Holds r position := by
  constructor
  · rintro ⟨d', r', hd', hr', hinner⟩
    obtain rfl := hd.unique hd'
    obtain rfl := hr.unique hr'
    exact hinner
  · intro hinner
    exact ⟨d, r, hd, hr, hinner⟩

variable (hleast : ¬(n = -Value.bound ∧ d.toInt = -1))

include hleast

theorem answers_modulo_iff : (modulo divisors inner).Answers n position ↔ inner.Answers r position := by
  have hdivides : (modulo divisors inner).DividesLeast n position ↔ inner.DividesLeast r position := by
    constructor
    · rintro ⟨d', hd', h⟩
      obtain rfl := hd.unique hd'
      rcases h with h | ⟨r', hr', h⟩
      · exact absurd h hleast
      · obtain rfl := hr.unique hr'
        exact h
    · intro h
      exact ⟨d, hd, .inr ⟨r, hr, h⟩⟩
  unfold Answers
  rw [hdivides, lists, List.forall_mem_cons]
  simp only [hd.hasOperand, true_and]

theorem fails_modulo_iff {e : EvalError} : (modulo divisors inner).Fails position n e ↔ inner.Fails position r e := by
  constructor
  · intro h
    cases h with
    | divisor h => exact absurd hd.hasOperand h
    | least hd' hminus =>
      obtain rfl := hd.unique hd'
      exact absurd ⟨rfl, hminus⟩ hleast
    | remainder hd' _ hr' hinner =>
      obtain rfl := hd.unique hd'
      obtain rfl := hr.unique hr'
      exact hinner
  · intro hinner
    exact .remainder hd hleast hr hinner

end

/-! ### Evaluation -/

/-- An answer that agrees with the reading of a condition, or the failure of its first leaf that fails. -/
inductive Decided (c : Condition) (n : Int) (position : Nat) : Except EvalError Bool → Prop where
  | answer {b : Bool} (hanswers : c.Answers n position)
    (hleaves : ∀ leaf ∈ c.leaves, ∀ e, ¬leaf.Fails position n e) (hb : b = true ↔ c.Holds n position) :
    Decided c n position (.ok b)
  | failure {before after : List Condition} {leaf : Condition} {e : EvalError} (hanswers : ¬c.Answers n position)
    (hleaves : c.leaves = before ++ leaf :: after) (hbefore : ∀ l ∈ before, ∀ e', ¬l.Fails position n e')
    (he : leaf.Fails position n e) : Decided c n position (.error e)

namespace Decided

variable {c left right : Condition} {n : Int} {position : Nat} {x y : Except EvalError Bool}

theorem leaf_failure (hleaf : c.isLeaf = true) (hanswers : ¬c.Answers n position) {e : EvalError}
    (he : c.Fails position n e) : Decided c n position (.error e) := by
  have hleaves : c.leaves = [] ++ c :: [] := leaves_of_isLeaf hleaf
  exact .failure hanswers hleaves (by simp) he

/-- Both sides are decided, and the left one fails first. -/
theorem join (hleft : Decided left n position x) (hright : Decided right n position y)
    (hlists : c.lists = left.lists ++ right.lists) (hleaves : c.leaves = left.leaves ++ right.leaves)
    (hleast : c.DividesLeast n position ↔ left.DividesLeast n position ∨ right.DividesLeast n position)
    {f : Bool → Bool → Bool}
    (hf : ∀ l r : Bool, (l = true ↔ left.Holds n position) → (r = true ↔ right.Holds n position) →
      (f l r = true ↔ c.Holds n position)) :
    Decided c n position (x >>= fun l => y >>= fun r => pure (f l r)) := by
  have hanswers : c.Answers n position ↔ left.Answers n position ∧ right.Answers n position := by
    unfold Answers
    rw [hlists, List.forall_mem_append, hleast]
    tauto
  cases hleft with
  | failure hnot hsplit hbefore he =>
    have hall := hleaves
    rw [hsplit, List.append_assoc, List.cons_append] at hall
    exact .failure (fun h => hnot (hanswers.1 h).1) hall hbefore he
  | answer hl hnone hlb =>
    cases hright with
    | failure hnot hsplit hbefore he =>
      have hall := hleaves
      rw [hsplit, ← List.append_assoc] at hall
      exact .failure (fun h => hnot (hanswers.1 h).2) hall (List.forall_mem_append.2 ⟨hnone, hbefore⟩) he
    | answer hr hnone' hrb =>
      refine .answer (hanswers.2 ⟨hl, hr⟩) ?_ (hf _ _ hlb hrb)
      rw [hleaves]
      exact List.forall_mem_append.2 ⟨hnone, hnone'⟩

theorem of_always (n : Int) (position : Nat) : Decided always n position (.ok true) :=
  .answer ⟨by simp [lists], not_false⟩ (by simp [leaves]) (by simp [Holds])

theorem of_compare (comparison : Comparison) (operands : List Value) (value : Value) (position : Nat) :
    Decided (compare comparison operands) value.toInt position
      ((compare comparison operands).eval value position) := by
  rw [eval]
  rcases operandAt_cases comparison.keyword operands position with ⟨m, hm, hok⟩ | ⟨hmissing, herror⟩
  · rw [hok]
    refine .answer ⟨?_, not_false⟩ ?_ ?_
    · simpa [lists] using hm.hasOperand
    · intro leaf hleaf e he
      obtain rfl := List.mem_singleton.1 hleaf
      cases he with
      | operand hmissing => exact hmissing hm.hasOperand
    · rw [comparison.holds_iff]
      constructor
      · intro h
        exact ⟨m, hm, h⟩
      · rintro ⟨m', hm', h⟩
        obtain rfl := hm.unique hm'
        exact h
  · rw [herror]
    exact .leaf_failure rfl (fun h => hmissing (h.1 _ (List.mem_singleton.2 rfl))) (.operand hmissing)

/-- With a divisor and a remainder at hand, `mod` is decided as the condition behind it is. -/
theorem modulo {divisors : List Value} {inner : Condition} {d : Value} {r : Int} (hleaf : inner.isLeaf = true)
    (hd : IsOperand divisors position d) (hr : IsRemainder n d.toInt r)
    (hleast : ¬(n = -Value.bound ∧ d.toInt = -1)) (h : Decided inner r position x) :
    Decided (.modulo divisors inner) n position x := by
  cases h with
  | answer hanswers hnone hb =>
    refine .answer ((answers_modulo_iff hd hr hleast).2 hanswers) ?_ (hb.trans (holds_modulo_iff hd hr).symm)
    intro leaf hmem e he
    obtain rfl := List.mem_singleton.1 hmem
    have hself : inner ∈ inner.leaves := leaves_of_isLeaf hleaf ▸ List.mem_singleton.2 rfl
    exact hnone inner hself e ((fails_modulo_iff hd hr hleast).1 he)
  | failure hanswers hleaves _ he =>
    -- a leaf has itself for its only leaf
    rw [leaves_of_isLeaf hleaf] at hleaves
    rcases List.singleton_eq_append_iff.1 hleaves with ⟨-, hcons⟩ | ⟨-, hnil⟩
    · obtain ⟨rfl, -⟩ := List.cons.inj hcons
      exact .leaf_failure rfl (fun h => hanswers ((answers_modulo_iff hd hr hleast).1 h))
        ((fails_modulo_iff hd hr hleast).2 he)
    · cases hnil

theorem of_modulo {divisors : List Value} {inner : Condition} (hzero : 0 ∉ divisors) (hleaf : inner.isLeaf = true)
    (ih : ∀ value : Value, Decided inner value.toInt position (inner.eval value position)) (value : Value) :
    Decided (.modulo divisors inner) value.toInt position ((Condition.modulo divisors inner).eval value position) := by
  rw [eval]
  rcases operandAt_cases "mod" divisors position with ⟨d, hd, hok⟩ | ⟨hmissing, herror⟩
  · have hne : d ≠ 0 := fun h => hzero (h ▸ hd.mem)
    have hmin : value = Int64.minValue ∧ d = -1 ↔ value.toInt = -Value.bound ∧ d.toInt = -1 := by
      rw [← Int64.toInt_inj, ← Int64.toInt_inj]
      rfl
    rw [hok]
    change Decided _ _ _ (floorMod value d >>= fun r => inner.eval r position)
    rw [floorMod_eq_wordRemainder hne]
    by_cases hleast : value = Int64.minValue ∧ d = -1
    · rw [if_pos hleast]
      obtain ⟨hvalue, hminus⟩ := hmin.1 hleast
      rw [hvalue]
      exact .leaf_failure rfl (fun h => h.2 (dividesLeast_modulo hd hminus)) (.least hd hminus)
    · rw [if_neg hleast]
      rw [hmin] at hleast
      exact (ih (wordRemainder value d)).modulo hleaf hd (isRemainder_wordRemainder value d hne) hleast
  · rw [herror]
    exact .leaf_failure rfl (fun h => hmissing (h.1 _ List.mem_cons_self)) (.divisor hmissing)

theorem not (h : Decided c n position x) : Decided (.not c) n position (x >>= fun b => pure !b) := by
  cases h with
  | answer hanswers hnone hb =>
    refine .answer hanswers hnone ?_
    rw [Holds, ← hb, Bool.not_eq_true', Bool.not_eq_true]
  | failure hanswers hleaves hbefore he => exact .failure hanswers hleaves hbefore he

end Decided

/-- A well-formed condition is decided as the integers say. -/
theorem decided_eval {c : Condition} (hc : c.WellFormed) (value : Value) (position : Nat) :
    Decided c value.toInt position (c.eval value position) := by
  induction c generalizing value with
  | always => exact .of_always ..
  | compare comparison operands => exact .of_compare ..
  | modulo divisors inner ih =>
    obtain ⟨-, hzero, hleaf, hinner⟩ := hc
    exact .of_modulo hzero hleaf (ih hinner) value
  | not inner ih => exact (ih hc value).not
  | and left right ihleft ihright =>
    refine (ihleft hc.1 value).join (ihright hc.2 value) rfl rfl Iff.rfl fun l r hl hr => ?_
    rw [Bool.and_eq_true, hl, hr, Holds]
  | or left right ihleft ihright =>
    refine (ihleft hc.1 value).join (ihright hc.2 value) rfl rfl Iff.rfl fun l r hl hr => ?_
    rw [Bool.or_eq_true, hl, hr, Holds]

/-- A condition that has been read is ordinary logic over the integers.  It has an answer exactly if every list has
an operand for the position and no `mod` divides the least value by `-1`, and then the answer is what the condition
says; it fails as the leftmost leaf that fails, also if another leaf settles the answer. -/
theorem eval_eq_reading {tokens : List String} {c : Condition} (h : parse tokens = .ok c) (value : Value)
    (position : Nat) :
    ((∃ b, c.eval value position = .ok b) ↔
      (∀ operands ∈ c.lists, operands.length = 1 ∨ position < operands.length) ∧
        ¬c.DividesLeast value.toInt position) ∧
      (∀ b, c.eval value position = .ok b → (b = true ↔ c.Holds value.toInt position)) ∧
      ∀ e, c.eval value position = .error e → ∃ before leaf after, c.leaves = before ++ leaf :: after ∧
        (∀ l ∈ before, ∀ e', ¬l.Fails position value.toInt e') ∧ leaf.Fails position value.toInt e := by
  have hdecided : Decided c value.toInt position (c.eval value position) := by
    rcases wellFormed_of_parse h with rfl | hc
    · exact .of_always ..
    · exact decided_eval hc value position
  cases hresult : c.eval value position with
  | ok b =>
    rw [hresult] at hdecided
    cases hdecided with
    | answer hanswers _ hb =>
      refine ⟨⟨fun _ => hanswers, fun _ => ⟨b, rfl⟩⟩, ?_, by simp⟩
      intro b' hb'
      obtain rfl := Except.ok.inj hb'
      exact hb
  | error e =>
    rw [hresult] at hdecided
    cases hdecided with
    | failure hanswers hleaves hbefore he =>
      refine ⟨⟨by simp, fun h => absurd h hanswers⟩, by simp, ?_⟩
      intro e' he'
      obtain rfl := Except.error.inj he'
      exact ⟨_, _, _, hleaves, hbefore, he⟩

/-- The condition `eq 5 or mod -1 3 eq 0 -2`. -/
def eager : Condition := .or (.compare .eq [5]) (.modulo [-1, 3] (.compare .eq [0, -2]))

/-- The die that shows five satisfies the first comparison, but for the third die there is no divisor. -/
theorem eval_eq_reading_eager :
    parse ["eq", "5", "or", "mod", "-1", "3", "eq", "0", "-2"] = .ok eager ∧
      eager.eval 5 2 = .error (.missingOperand "mod" 2 2) ∧
      ¬(∀ operands ∈ eager.lists, operands.length = 1 ∨ 2 < operands.length) ∧
      eager.eval 5 1 = .ok true ∧ eager.Holds 5 1 := by
  have hparse : parse ["eq", "5", "or", "mod", "-1", "3", "eq", "0", "-2"] = .ok eager := by cbv
  have hfails : eager.eval 5 2 = .error (.missingOperand "mod" 2 2) := rfl
  have hok : eager.eval 5 1 = .ok true := rfl
  have hanswer := (eval_eq_reading hparse 5 1).2.1 true hok
  exact ⟨hparse, hfails, by decide, hok, hanswer.1 rfl⟩

end Condition

end DiceTally
