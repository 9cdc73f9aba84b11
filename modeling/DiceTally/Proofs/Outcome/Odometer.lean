import DiceTally.Outcome.Odometer
import DiceTally.Proofs.Outcome.Choices

/-!
# An odometer shows every combination once

`Odometer.shown` lists the combinations that an odometer has yet to show.  The combination handed out next is the
first of them (`shown_of_next?`), `Odometer.left` is their number (`left_eq_length`), and at the start they are the
choices of one entry of each list (`shown_ofLists`).
-/

namespace DiceTally

variable {α : Type}

namespace Wheel

/-- All entries of a wheel. -/
def entries (w : Wheel α) : List α := w.first :: w.others

@[simp] theorem entries_comp_reset : (entries ∘ reset : Wheel α → List α) = entries := rfl

theorem next?_eq_some_iff {w moved : Wheel α} :
    w.next? = some moved ↔ ∃ x xs, w.later = x :: xs ∧ moved = { w with shown := x, later := xs } := by
  unfold Wheel.next?
  cases hlater : w.later with
  | nil => simp
  | cons x xs => simp [eq_comm]

theorem next?_eq_none_iff {w : Wheel α} : w.next? = none ↔ w.later = [] := by
  unfold Wheel.next?
  cases hlater : w.later <;> simp

end Wheel

namespace Odometer

/-- The combinations of some wheels from the present one on: those with the first wheel as it is, then those with
each of its later entries. -/
def shownFrom : List (Wheel α) → List (List α)
  | [] => [[]]
  | w :: ws => (shownFrom ws).map (w.shown :: ·) ++
      w.later.flatMap fun x => (choices (ws.map Wheel.entries)).map (x :: ·)

/-- The combinations still to be shown. -/
def shown (o : Odometer α) : List (List α) :=
  match o.wheels with
  | none => []
  | some ws => shownFrom ws

theorem shownFrom_reset (ws : List (Wheel α)) :
    shownFrom (ws.map Wheel.reset) = choices (ws.map Wheel.entries) := by
  induction ws with
  | nil => rfl
  | cons w ws ih =>
    simp only [List.map_cons, shownFrom, ih, List.map_map]
    rfl

/-- The present combination comes first, and moving on leaves the combinations after it. -/
theorem shownFrom_eq_cons (ws : List (Wheel α)) :
    shownFrom ws = ws.map (·.shown) :: ((advance ws).map shownFrom).getD [] ∧
      ∀ moved ∈ advance ws, moved.map Wheel.entries = ws.map Wheel.entries := by
  induction ws with
  | nil => simp [shownFrom, advance]
  | cons w ws ih =>
    obtain ⟨hshown, hentries⟩ := ih
    cases hadvance : advance ws with
    | some moved =>
      -- a later wheel moves, so the first one stays
      have hmoved : advance (w :: ws) = some (w :: moved) := by simp [advance, hadvance]
      rw [hadvance] at hshown
      have hsame : moved.map Wheel.entries = ws.map Wheel.entries := hentries moved (by simp [hadvance])
      constructor
      · simp [shownFrom, hmoved, hshown, hsame]
      · simp [hmoved, hsame]
    | none =>
      rw [hadvance] at hshown
      have hlast : shownFrom ws = [ws.map (·.shown)] := by simpa using hshown
      cases hnext : w.next? with
      | none =>
        have hend : advance (w :: ws) = none := by simp [advance, hadvance, hnext]
        have hlater : w.later = [] := Wheel.next?_eq_none_iff.1 hnext
        simp [shownFrom, hend, hlast, hlater]
      -- the later wheels are at their ends and start again
      | some next =>
        have hmoved : advance (w :: ws) = some (next :: ws.map Wheel.reset) := by simp [advance, hadvance, hnext]
        obtain ⟨x, xs, hlater, hturned⟩ := Wheel.next?_eq_some_iff.1 hnext
        have hentry : next.entries = w.entries := by rw [hturned]; rfl
        constructor
        · simp [shownFrom, hmoved, hlast, hlater, hturned, shownFrom_reset]
        · simp [hmoved, hentry]

theorem countFrom_eq_length (ws : List (Wheel α)) : countFrom ws = (shownFrom ws).length := by
  induction ws with
  | nil => rfl
  | cons w ws ih =>
    have hsizes : ((ws.map Wheel.entries).map List.length).prod = ws.foldr (·.size * ·) 1 := by
      rw [List.map_map, List.prod_eq_foldr, List.foldr_map]
      rfl
    simp only [countFrom, shownFrom, List.length_append, List.length_map, List.length_flatMap, length_choices, hsizes,
      ih]
    simp
    omega

theorem left_eq_length (o : Odometer α) : o.left = o.shown.length := by
  unfold left shown
  cases o.wheels with
  | none => rfl
  | some ws => exact countFrom_eq_length ws

theorem shown_of_next? {o rest : Odometer α} {c : List α} (h : o.next? = some (c, rest)) :
    o.shown = c :: rest.shown := by
  obtain ⟨wheels⟩ := o
  cases wheels with
  | none => cases h
  | some ws =>
    cases h
    have hfirst := (shownFrom_eq_cons ws).1
    unfold shown
    cases hadvance : advance ws <;> simp [hadvance] at hfirst ⊢ <;> exact hfirst

theorem next?_eq_none_iff {o : Odometer α} : o.next? = none ↔ o.shown = [] := by
  obtain ⟨wheels⟩ := o
  cases wheels with
  | none => simp [next?, shown]
  | some ws => simp [next?, shown, (shownFrom_eq_cons ws).1]

/-- An odometer over lists shows all choices of one entry of each. -/
theorem shown_ofLists (lists : List (List α)) : (ofLists lists).shown = choices lists := by
  have hstart : ∀ lists : List (List α), ((lists.mapM Wheel.ofList?).map shownFrom).getD [] = choices lists ∧
      ∀ ws ∈ lists.mapM Wheel.ofList?, ws.map Wheel.entries = lists := by
    intro lists
    induction lists with
    | nil => simp [shownFrom, choices]
    | cons xs lists ih =>
      obtain ⟨hshown, hentries⟩ := ih
      -- a list without entries stops the odometer before it starts, and leaves no choice
      cases xs with
      | nil => simp [Wheel.ofList?, choices]
      | cons x xs =>
        cases hws : lists.mapM Wheel.ofList? with
        | none =>
          rw [hws] at hshown
          have hnone : choices lists = [] := by simpa using hshown.symm
          simp [Wheel.ofList?, hws, choices, hnone]
        | some ws =>
          rw [hws] at hshown
          have hsome : shownFrom ws = choices lists := by simpa using hshown
          have hlists : ws.map Wheel.entries = lists := hentries ws (by simp [hws])
          simp [Wheel.ofList?, hws, choices, shownFrom, hsome, hlists, Wheel.entries]
  have h := (hstart lists).1
  unfold shown ofLists
  cases hws : lists.mapM Wheel.ofList? <;> simpa [hws] using h

end Odometer

end DiceTally
