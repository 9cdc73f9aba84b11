import DiceTally.Proofs.Outcome.Enumeration

/-!
# Simulation

Random rolls of a pool are rolls that the pool hands out when all of them are enumerated, with the same weights, and
there are as many of them as were asked for (`sampled_rolls`).  This holds for every source of randomness and every way
to choose a face by it.
-/

namespace DiceTally

namespace Sampler

variable {R : Type} {choose : Chooser R}

/-- The sampler after a number of calls. -/
def after (choose : Chooser R) (s : Sampler R) : Nat → Sampler R
  | 0 => s
  | k + 1 => (s.next choose).2.after choose k

/-- The answer to the call with a number, calls being numbered from 0. -/
def answer (choose : Chooser R) (s : Sampler R) (k : Nat) : Option Outcome := ((s.after choose k).next choose).1

theorem left_after (choose : Chooser R) (s : Sampler R) (k : Nat) : (s.after choose k).left = s.left - k := by
  induction k generalizing s with
  | zero => rfl
  | succ k ih => rw [after, ih, left_next, Nat.sub_sub, Nat.add_comm]

theorem dice_after (choose : Chooser R) (s : Sampler R) (k : Nat) : (s.after choose k).dice = s.dice := by
  induction k generalizing s with
  | zero => rfl
  | succ k ih => rw [after, ih, dice_next]

theorem sizeHint_eq {s : Sampler R} (h : s.left < bound64) : s.sizeHint = (s.left, some s.left) := by
  have hmin : min s.left (bound64 - 1) = s.left := Nat.min_eq_left (by omega)
  rw [sizeHint, hmin]

/-- Words are one source of randomness. -/
theorem answer_samples (s : Sampler RandomWords) (k : Nat) :
    (Outcomes.samples s).answer k = s.answer chooseByWords k := by
  induction k generalizing s with
  | zero =>
    cases hnext : (s.next chooseByWords).1 with
    | none =>
      have hleft := (next_eq_none_iff chooses_chooseByWords).1 hnext
      rw [Outcomes.answer, Outcomes.next?_samples_eq_none_iff.2 hleft]
      exact hnext.symm
    | some outcome =>
      rw [Outcomes.answer, Outcomes.next?_samples_eq_some_iff.2 ⟨hnext, rfl⟩]
      exact hnext.symm
  | succ k ih =>
    have hafter : (Outcomes.samples s).afterCall = .samples (s.next chooseByWords).2 := by
      cases hnext : (s.next chooseByWords).1 with
      | none =>
        have hleft := (next_eq_none_iff chooses_chooseByWords).1 hnext
        rw [Outcomes.afterCall, Outcomes.next?_samples_eq_none_iff.2 hleft, next_of_left_eq_zero hleft]
        rfl
      | some outcome =>
        rw [Outcomes.afterCall, Outcomes.next?_samples_eq_some_iff.2 ⟨hnext, rfl⟩]
        rfl
    rw [Outcomes.answer, hafter, ih]
    rfl

end Sampler

theorem exists_answer_of_mem_choices {pool : Pool} {faces : List Face}
    (h : faces ∈ choices (pool.dice.map (·.faces))) :
    ∃ j < pool.sizes.prod, (Outcomes.enumerate pool).answer j = some (.ofFaces faces) := by
  have hmem : Outcome.ofFaces faces ∈ (Outcomes.enumerate pool).all := by
    rw [Outcomes.all_enumerate]
    exact List.mem_map_of_mem h
  obtain ⟨j, hj, hget⟩ := List.getElem_of_mem hmem
  exact ⟨j, pool.length_all_enumerate ▸ hj, by rw [Outcomes.answer_eq_getElem?, List.getElem?_eq_getElem hj, hget]⟩

/-- A simulation of `n` rolls answers the first `n` calls, each with an outcome of the enumeration of the same pool, and
no call after them, and tells before each call how many rolls are left.  A chooser may choose as it likes among the
faces, but has to choose one of them if there are any; the random words of the program are such a chooser. -/
theorem sampled_rolls {R : Type} {choose : Chooser R}
    (hchoose : ∀ faces random, faces ≠ [] → ∃ face ∈ faces, (choose faces random).1 = some face)
    (pool : Pool) (random : R) (n : Nat) :
    (∀ k < n, ∃ outcome, (Sampler.ofPool pool n random).answer choose k = some outcome ∧
      ∃ j < pool.sizes.prod, (Outcomes.enumerate pool).answer j = some outcome) ∧
    (∀ k, n ≤ k → (Sampler.ofPool pool n random).answer choose k = none) ∧
    (∀ k, n - k < bound64 → ((Sampler.ofPool pool n random).after choose k).sizeHint = (n - k, some (n - k))) ∧
    ∀ words k, (Outcomes.sample pool n words).answer k =
      (Sampler.ofPool pool n ⟨words, 0⟩).answer chooseByWords k := by
  have hleft (k : Nat) : ((Sampler.ofPool pool n random).after choose k).left = n - k := Sampler.left_after ..
  have hdice (k : Nat) : ((Sampler.ofPool pool n random).after choose k).dice = pool.dice := Sampler.dice_after ..
  refine ⟨fun k hk => ?drawn, fun k hk => ?ended, fun k hk => ?hint, fun words k => Sampler.answer_samples _ k⟩
  case drawn =>
    obtain ⟨faces, hfaces, hnext⟩ := Sampler.exists_next hchoose
      (show ((Sampler.ofPool pool n random).after choose k).left ≠ 0 by rw [hleft]; omega)
    rw [hdice] at hfaces
    exact ⟨_, hnext, exists_answer_of_mem_choices hfaces⟩
  case ended => exact (Sampler.next_eq_none_iff hchoose).2 (by rw [hleft]; omega)
  case hint => rw [Sampler.sizeHint_eq (by rwa [hleft]), hleft]

/-- Two coins. -/
def coins : Pool :=
  let coin : Die := ⟨[⟨0, .one⟩, ⟨1, .one⟩], List.cons_ne_nil _ _, by decide⟩
  ⟨[coin, coin], List.cons_ne_nil _ _⟩

/-- Three throws of two coins by two words and the zeros behind them. -/
theorem sampled_rolls_coins :
    (∀ faces random, faces ≠ [] → ∃ face ∈ faces, (chooseByWords faces random).1 = some face) ∧
      (∀ k < 3, ∃ outcome, (Outcomes.sample coins 3 [0xFFFFFFFF, 7]).answer k = some outcome ∧
        ∃ j < coins.sizes.prod, (Outcomes.enumerate coins).answer j = some outcome) ∧
      (∀ k, 3 ≤ k → (Outcomes.sample coins 3 [0xFFFFFFFF, 7]).answer k = none) := by
  obtain ⟨hdrawn, hended, -, hwords⟩ := sampled_rolls chooses_chooseByWords coins ⟨[0xFFFFFFFF, 7], 0⟩ 3
  simp only [hwords]
  exact ⟨chooses_chooseByWords, hdrawn, hended⟩

end DiceTally
