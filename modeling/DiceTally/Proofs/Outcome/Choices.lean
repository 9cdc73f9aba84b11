import Mathlib.Algebra.Group.Nat.Defs
import Mathlib.Data.List.Forall2

/-!
# Choices

`choices` lists all ways to take one entry of each of several lists, the last list fastest: the entries of the
Cartesian product in lexicographic order of the positions.
-/

namespace DiceTally

variable {α β : Type}

/-- All choices of one entry of each list, the last list fastest. -/
def choices : List (List α) → List (List α)
  | [] => [[]]
  | xs :: lists => xs.flatMap fun x => (choices lists).map (x :: ·)

theorem mem_choices {lists : List (List α)} {c : List α} :
    c ∈ choices lists ↔ List.Forall₂ (· ∈ ·) c lists := by
  induction lists generalizing c with
  | nil => simp [choices]
  | cons xs lists ih =>
    simp only [choices, List.mem_flatMap, List.mem_map, ih]
    constructor
    · rintro ⟨x, hx, rest, hrest, rfl⟩
      exact .cons hx hrest
    · intro h
      cases h with
      | cons hx hrest => exact ⟨_, hx, _, hrest, rfl⟩

/-- What is chosen comes from one of the lists. -/
theorem exists_mem_of_mem_choices {lists : List (List α)} {c : List α} (hc : c ∈ choices lists) {x : α} (hx : x ∈ c) :
    ∃ xs ∈ lists, x ∈ xs := by
  have hmem := mem_choices.1 hc
  clear hc
  induction hmem with
  | nil => cases hx
  | cons hfirst _ ih =>
    rcases List.mem_cons.1 hx with rfl | hrest
    · exact ⟨_, List.mem_cons_self, hfirst⟩
    · obtain ⟨xs, hxs, hmem⟩ := ih hrest
      exact ⟨xs, List.mem_cons_of_mem _ hxs, hmem⟩

/-- Which choices there are depends on which entries the lists have. -/
theorem mem_choices_congr {lists lists' : List (List α)}
    (h : List.Forall₂ (fun xs ys => ∀ x, x ∈ xs ↔ x ∈ ys) lists lists') (c : List α) :
    c ∈ choices lists ↔ c ∈ choices lists' := by
  rw [mem_choices, mem_choices]
  induction h generalizing c with
  | nil => rfl
  | cons hfirst _ ih =>
    rw [List.forall₂_cons_right_iff, List.forall₂_cons_right_iff]
    simp only [hfirst, ih]

theorem choices_map (f : α → β) (lists : List (List α)) :
    choices (lists.map (List.map f)) = (choices lists).map (List.map f) := by
  induction lists with
  | nil => rfl
  | cons xs lists ih =>
    simp only [List.map_cons, choices, ih, List.flatMap_map, List.map_flatMap, List.map_map]
    rfl

theorem length_choices (lists : List (List α)) : (choices lists).length = (lists.map List.length).prod := by
  induction lists with
  | nil => rfl
  | cons xs lists ih =>
    rw [choices, List.length_flatMap]
    simp [ih]

theorem choices_singleton (xs : List α) : choices [xs] = xs.map fun x => [x] := by
  induction xs with
  | nil => rfl
  | cons x xs ih =>
    simp only [choices, List.map_cons, List.map_nil, List.flatMap_cons, List.singleton_append] at ih ⊢
    rw [ih]

/-- The lists may be divided in front and back ones. -/
theorem choices_append (front back : List (List α)) :
    choices (front ++ back) = (choices front).flatMap fun c => (choices back).map (c ++ ·) := by
  induction front with
  | nil => simp [choices]
  | cons xs front ih => simp [choices, ih, List.map_flatMap, List.flatMap_map, List.flatMap_assoc, Function.comp_def]

end DiceTally
