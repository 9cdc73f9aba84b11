import DiceTally.Proofs.Tally

/-!
# Rolls by number

The rolls of a pool are numbered from 0.  The positions of the faces that come up in a roll are the digits of its
number, written in mixed radix with one digit for each die and the number of its faces as base (`getElem?_choices`);
the last die has the lowest digit.  A pool hands out exactly these rolls, in the order of their numbers, which is the
lexicographic order of the positions, and then nothing more (`enumerate_eq_product`).
-/

namespace DiceTally

/-! ### Numbers in mixed radix -/

namespace MixedRadix

/-- The digits of a number, the first one being the highest. -/
def digits : List Nat → Nat → List Nat
  | [], _ => []
  | _ :: bases, k => k / bases.prod :: digits bases (k % bases.prod)

/-- The number that has the given digits. -/
def number : List Nat → List Nat → Nat
  | _ :: bases, digit :: digits => digit * bases.prod + number bases digits
  | _, _ => 0

variable {bases : List Nat} {j k : Nat}

theorem prod_pos_of_lt {base : Nat} (h : k < (base :: bases).prod) : 0 < bases.prod :=
  Nat.pos_of_ne_zero fun hzero => by simp [hzero] at h

theorem digits_lt (h : k < bases.prod) : List.Forall₂ (· < ·) (digits bases k) bases := by
  induction bases generalizing k with
  | nil => exact .nil
  | cons base bases ih =>
    have hpos := prod_pos_of_lt h
    rw [List.prod_cons] at h
    exact .cons (Nat.div_lt_of_lt_mul (Nat.mul_comm base _ ▸ h)) (ih (Nat.mod_lt k hpos))

theorem number_digits (h : k < bases.prod) : number bases (digits bases k) = k := by
  induction bases generalizing k with
  | nil => exact (Nat.lt_one_iff.1 h).symm
  | cons base bases ih =>
    rw [digits, number, ih (Nat.mod_lt k (prod_pos_of_lt h)), Nat.div_add_mod']

theorem number_lt {ds : List Nat} (h : List.Forall₂ (· < ·) ds bases) : number bases ds < bases.prod := by
  induction h with
  | nil => exact Nat.one_pos
  | @cons digit base ds bases hdigit _ ih =>
    rw [number, List.prod_cons]
    calc digit * bases.prod + number bases ds < digit * bases.prod + bases.prod := Nat.add_lt_add_left ih _
      _ = (digit + 1) * bases.prod := (Nat.succ_mul ..).symm
      _ ≤ base * bases.prod := Nat.mul_le_mul_right _ hdigit

theorem digits_number {ds : List Nat} (h : List.Forall₂ (· < ·) ds bases) : digits bases (number bases ds) = ds := by
  induction h with
  | nil => rfl
  | @cons digit base ds bases _ hrest ih =>
    have hlt := number_lt hrest
    have hpos : 0 < bases.prod := Nat.zero_lt_of_lt hlt
    rw [number, digits, Nat.mul_comm digit, Nat.mul_add_div hpos, Nat.mul_add_mod, Nat.div_eq_of_lt hlt,
      Nat.mod_eq_of_lt hlt, ih, Nat.add_zero]

/-- A smaller number has digits that come first in lexicographic order. -/
theorem digits_lt_digits (hjk : j < k) (hk : k < bases.prod) : digits bases j < digits bases k := by
  induction bases generalizing j k with
  | nil =>
    have hone : k < 1 := hk
    omega
  | cons base bases ih =>
    have hpos := prod_pos_of_lt hk
    rw [digits, digits, List.cons_lt_cons_iff]
    rcases (Nat.div_le_div_right (c := bases.prod) (Nat.le_of_lt hjk)).lt_or_eq with hlt | heq
    · exact .inl hlt
    · refine .inr ⟨heq, ih ?_ (Nat.mod_lt k hpos)⟩
      have hj := Nat.div_add_mod j bases.prod
      have hk := Nat.div_add_mod k bases.prod
      rw [heq] at hj
      omega

end MixedRadix

/-! ### Choices by number -/

section

variable {α β : Type}

/-- Lists of one length laid end to end. -/
theorem getElem?_flatMap {xs : List α} {f : α → List β} {n : Nat} (h : ∀ x ∈ xs, (f x).length = n) (k : Nat) :
    (xs.flatMap f)[k]? = xs[k / n]?.bind fun x => (f x)[k % n]? := by
  induction xs generalizing k with
  | nil => rfl
  | cons x xs ih =>
    obtain ⟨hx, hxs⟩ := List.forall_mem_cons.1 h
    rw [List.flatMap_cons, List.getElem?_append, hx]
    split
    · rename_i hlt
      rw [Nat.div_eq_of_lt hlt, Nat.mod_eq_of_lt hlt]
      rfl
    · rename_i hge
      rw [ih hxs]
      rcases Nat.eq_zero_or_pos n with rfl | hpos
      · -- all the lists are empty
        have hnil : f x = [] := List.eq_nil_of_length_eq_zero hx
        have hrest (y : α) (hy : y ∈ xs) : f y = [] := List.eq_nil_of_length_eq_zero (hxs y hy)
        cases xs with
        | nil => simp [hnil]
        | cons y xs => simp [hnil, hrest y List.mem_cons_self]
      · rw [Nat.div_eq_sub_div hpos (Nat.not_lt.1 hge), Nat.mod_eq_sub_mod (Nat.not_lt.1 hge), List.getElem?_cons_succ]

/-- The entries of lists at given positions, one of each list. -/
def entriesAt (lists : List (List α)) (positions : List Nat) : Option (List α) :=
  (lists.zip positions).mapM fun (xs, i) => xs[i]?

/-- The choice with a number takes the entries at the digits of the number. -/
theorem getElem?_choices (lists : List (List α)) (k : Nat) (h : k < (lists.map List.length).prod) :
    (choices lists)[k]? = entriesAt lists (MixedRadix.digits (lists.map List.length) k) := by
  induction lists generalizing k with
  | nil =>
    obtain rfl := Nat.lt_one_iff.1 h
    rfl
  | cons xs lists ih =>
    have hlength : ∀ x ∈ xs, ((choices lists).map (x :: ·)).length = (lists.map List.length).prod :=
      fun x _ => by rw [List.length_map, length_choices]
    have hrest := ih (k % (lists.map List.length).prod) (Nat.mod_lt _ (MixedRadix.prod_pos_of_lt h))
    rw [choices, getElem?_flatMap hlength]
    simp only [List.getElem?_map, hrest]
    simp only [entriesAt, List.map_cons, MixedRadix.digits, List.zip_cons_cons, List.mapM_cons]
    cases xs[k / (lists.map List.length).prod]? with
    | none => rfl
    | some x => exact Option.map_eq_bind

end

/-! ### Calls -/

namespace Outcomes

/-- What is left after a call.  At the end a call changes nothing. -/
def afterCall (outcomes : Outcomes) : Outcomes := (outcomes.next?.map Prod.snd).getD outcomes

/-- The answer to the call with a number, calls being numbered from 0. -/
def answer (outcomes : Outcomes) : Nat → Option Outcome
  | 0 => outcomes.next?.map Prod.fst
  | k + 1 => outcomes.afterCall.answer k

/-- Calls hand out all outcomes in order, and nothing after the last one. -/
theorem answer_eq_getElem? (outcomes : Outcomes) (k : Nat) : outcomes.answer k = outcomes.all[k]? := by
  induction k generalizing outcomes with
  | zero =>
    cases hnext : outcomes.next? with
    | none => simp [answer, hnext, all_of_next?_none hnext]
    | some r => simp [answer, hnext, all_of_next? hnext]
  | succ k ih =>
    rw [answer, ih]
    cases hnext : outcomes.next? with
    | none => simp [afterCall, hnext, all_of_next?_none hnext]
    | some r => simp [afterCall, hnext, all_of_next? hnext]

end Outcomes

namespace Pool

/-- The numbers of faces. -/
def sizes (pool : Pool) : List Nat := pool.dice.map Die.sides

/-- The faces at given positions, one of each die. -/
def facesAt (pool : Pool) (positions : List Nat) : Option (List Face) :=
  entriesAt (pool.dice.map (·.faces)) positions

theorem outcomeCount?_eq (pool : Pool) :
    pool.outcomeCount? = if pool.sizes.prod < 2 ^ 128 then some pool.sizes.prod else none := by
  -- each die has a face, so no product is smaller than the one before it
  have hgrow (rolls : Nat) (die : Die) : rolls ≤ rolls * die.sides :=
    Nat.le_mul_of_pos_right rolls (List.length_pos_iff.2 die.faces_ne_nil)
  rw [List.prod_eq_foldl, sizes, List.foldl_map]
  exact foldlM_checked hgrow (fun _ => rfl) pool.dice (by decide)

theorem getElem?_choices_faces (pool : Pool) {k : Nat} (h : k < pool.sizes.prod) :
    (choices (pool.dice.map (·.faces)))[k]? = pool.facesAt (MixedRadix.digits pool.sizes k) := by
  have hsizes : (pool.dice.map (·.faces)).map List.length = pool.sizes := List.map_map
  rw [getElem?_choices _ k (hsizes ▸ h), hsizes]
  rfl

theorem length_all_enumerate (pool : Pool) : (Outcomes.enumerate pool).all.length = pool.sizes.prod := by
  rw [Outcomes.all_enumerate, List.length_map, length_choices, List.map_map]
  rfl

/-- The roll with a number shows the faces at the digits of the number. -/
theorem exists_roll (pool : Pool) {k : Nat} (h : k < pool.sizes.prod) :
    ∃ faces, pool.facesAt (MixedRadix.digits pool.sizes k) = some faces ∧
      (Outcomes.enumerate pool).answer k = some (.ofFaces faces) := by
  rw [← getElem?_choices_faces pool h, Outcomes.answer_eq_getElem?, Outcomes.all_enumerate, List.getElem?_map]
  have hlength : k < (choices (pool.dice.map (·.faces))).length := by
    rwa [length_choices, List.map_map]
  exact ⟨_, List.getElem?_eq_getElem hlength, by rw [List.getElem?_eq_getElem hlength]; rfl⟩

end Pool

open MixedRadix in
/-- The rolls that a pool hands out are those of the Cartesian product of its dice, in lexicographic order, and each
once: the roll with number `k` shows the faces at the digits of `k`, and its weight is the product of their weights
from left to right, the largest number standing for one out of range.  There are as many rolls as the pool counts, or
`2 ^ 128` or more if it counts none. -/
theorem enumerate_eq_product (pool : Pool) :
    (∀ k < pool.sizes.prod, ∃ faces, pool.facesAt (digits pool.sizes k) = some faces ∧
      (Outcomes.enumerate pool).answer k =
        some (faces.map (·.value),
          (faces.map (·.weight)).foldl (fun product weight => (product.mul? weight).getD .max) .one)) ∧
    (∀ k, pool.sizes.prod ≤ k → (Outcomes.enumerate pool).answer k = none) ∧
    (∀ k < pool.sizes.prod,
      List.Forall₂ (· < ·) (digits pool.sizes k) pool.sizes ∧ number pool.sizes (digits pool.sizes k) = k) ∧
    (∀ positions, List.Forall₂ (· < ·) positions pool.sizes →
      ∃ k < pool.sizes.prod, digits pool.sizes k = positions) ∧
    (∀ j k, j < k → k < pool.sizes.prod → digits pool.sizes j < digits pool.sizes k) ∧
    (∀ n, pool.outcomeCount? = some n → pool.sizes.prod = n) ∧
    (pool.outcomeCount? = none → 2 ^ 128 ≤ pool.sizes.prod) := by
  refine ⟨fun k => pool.exists_roll, ?ends, fun k hk => ⟨digits_lt hk, number_digits hk⟩,
    fun positions h => ⟨_, number_lt h, digits_number h⟩, fun j k => digits_lt_digits, ?counted, ?uncounted⟩
  case ends =>
    intro k hk
    rw [Outcomes.answer_eq_getElem?]
    exact List.getElem?_eq_none (pool.length_all_enumerate ▸ hk)
  case counted =>
    intro n hn
    rw [pool.outcomeCount?_eq, Option.ite_none_right_eq_some] at hn
    exact Option.some.inj hn.2
  case uncounted =>
    intro hnone
    rw [pool.outcomeCount?_eq, ite_eq_right_iff] at hnone
    exact Nat.not_lt.1 fun hlt => Option.some_ne_none _ (hnone hlt)

end DiceTally
