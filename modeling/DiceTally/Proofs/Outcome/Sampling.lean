import DiceTally.Outcome.Basic
import DiceTally.Proofs.Outcome.Choices

/-!
# Random rolls

A sampler hands out one roll less with each call (`Sampler.left_next`).  As long as its chooser takes one of the faces
that it is given, a roll is never broken off, and shows a face of each die (`Sampler.exists_next`).  Random words always
choose one of the faces (`chooses_chooseByWords`).
-/

namespace DiceTally

variable {R : Type} {choose : Chooser R}

/-- One of the faces is chosen, if there are any. -/
def Chooser.Chooses (choose : Chooser R) : Prop :=
  ∀ faces random, faces ≠ [] → ∃ face ∈ faces, (choose faces random).1 = some face

/-! ### Random words -/

theorem index_pickIndex_lt {n : Nat} (hn : 0 < n) (used : Nat) (words : List UInt32) :
    (pickIndex n used words).1 < n := by
  induction words generalizing used with
  | nil => exact hn
  | cons w words ih =>
    have hword : w.toNat * n < bound32 * n := Nat.mul_lt_mul_of_pos_right w.toNat_lt hn
    rw [pickIndex]
    split
    · exact Nat.div_lt_of_lt_mul hword
    · exact ih (used + 1)

theorem chooses_chooseByWords : Chooser.Chooses chooseByWords := by
  intro faces random hne
  have hlt := index_pickIndex_lt (List.length_pos_iff.2 hne) random.used random.words
  refine ⟨faces[(pickIndex faces.length random.used random.words).1], List.getElem_mem hlt, ?_⟩
  rw [chooseByWords, if_neg (by simpa using hne)]
  exact List.getElem?_eq_getElem hlt

/-! ### Rolls -/

/-- Every die shows one of its faces. -/
theorem exists_rollDice (h : choose.Chooses) (dice : List Die) (random : R) :
    ∃ faces ∈ choices (dice.map (·.faces)), (rollDice choose dice random).1 = some faces := by
  induction dice generalizing random with
  | nil => exact ⟨[], mem_choices.2 .nil, rfl⟩
  | cons die dice ih =>
    obtain ⟨face, hface, hchosen⟩ := h die.faces random die.faces_ne_nil
    rw [rollDice]
    cases hresult : choose die.faces random with
    | mk result rest =>
      rw [hresult] at hchosen
      obtain rfl : result = some face := hchosen
      obtain ⟨faces, hfaces, hrolled⟩ := ih rest
      exact ⟨face :: faces, mem_choices.2 (.cons hface (mem_choices.1 hfaces)), congrArg (·.map (face :: ·)) hrolled⟩

namespace Sampler

variable {s : Sampler R}

theorem left_next (choose : Chooser R) (s : Sampler R) : (s.next choose).2.left = s.left - 1 := by
  unfold next
  cases hleft : s.left with
  | zero => exact hleft
  | succ n => rfl

theorem dice_next (choose : Chooser R) (s : Sampler R) : (s.next choose).2.dice = s.dice := by
  unfold next
  cases s.left <;> rfl

theorem next_of_left_eq_zero (h : s.left = 0) : s.next choose = (none, s) := by
  unfold next
  rw [h]

/-- The next roll is one of those that the dice have. -/
theorem exists_next (h : choose.Chooses) (hleft : s.left ≠ 0) :
    ∃ faces ∈ choices (s.dice.map (·.faces)), (s.next choose).1 = some (.ofFaces faces) := by
  obtain ⟨faces, hfaces, hrolled⟩ := exists_rollDice h s.dice s.random
  obtain ⟨n, hn⟩ := Nat.exists_eq_succ_of_ne_zero hleft
  refine ⟨faces, hfaces, ?_⟩
  unfold next
  rw [hn]
  exact congrArg (·.map Outcome.ofFaces) hrolled

theorem next_eq_none_iff (h : choose.Chooses) : (s.next choose).1 = none ↔ s.left = 0 := by
  constructor
  · intro hnone
    by_contra hleft
    obtain ⟨faces, -, hsome⟩ := exists_next h hleft
    rw [hsome] at hnone
    cases hnone
  · intro hleft
    rw [next_of_left_eq_zero hleft]

end Sampler

/-! ### Outcomes -/

namespace Outcomes

variable {s : Sampler RandomWords}

theorem next?_samples_eq_none_iff : (samples s).next? = none ↔ s.left = 0 := by
  rw [← Sampler.next_eq_none_iff chooses_chooseByWords]
  exact Option.map_eq_none_iff

theorem next?_samples_eq_some_iff {outcome : Outcome} {rest : Outcomes} :
    (samples s).next? = some (outcome, rest) ↔
      (s.next chooseByWords).1 = some outcome ∧ samples (s.next chooseByWords).2 = rest := by
  have hnext : (samples s).next? =
      (s.next chooseByWords).1.map fun outcome => (outcome, samples (s.next chooseByWords).2) := rfl
  rw [hnext, Option.map_eq_some_iff]
  constructor
  · rintro ⟨_, houtcome, h⟩
    cases h
    exact ⟨houtcome, rfl⟩
  · rintro ⟨houtcome, rfl⟩
    exact ⟨outcome, houtcome, rfl⟩

end Outcomes

end DiceTally
