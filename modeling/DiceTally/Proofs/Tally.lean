import DiceTally.Proofs.Distribution
import DiceTally.Proofs.Operation.Sessions
import DiceTally.Proofs.Outcome.Odometer
import DiceTally.Proofs.Outcome.Sampling
import DiceTally.Tally

/-!
# What is tallied

`Outcomes.all` lists the outcomes that are handed out one at a time: for a pool one for each choice of a face of
every die (`all_enumerate`), for distributions one for each choice of an entry of each (`all_combine`).  A tally
evaluates them in this order, ends at the first failure, and otherwise adds up the weights of the results
(`tally_eq`); caches do not show.
-/

namespace DiceTally

namespace Outcomes

/-- The outcomes still to come. -/
def all (outcomes : Outcomes) : List Outcome := (outcomes.take outcomes.left).1

variable {outcomes rest : Outcomes} {outcome : Outcome}

theorem left_of_next? (h : outcomes.next? = some (outcome, rest)) : outcomes.left = rest.left + 1 := by
  cases outcomes with
  | given list =>
    cases list <;> cases h
    rfl
  | rolls faces =>
    obtain ⟨r, hr, hrest⟩ := Option.map_eq_some_iff.1 h
    cases hrest
    have hshown := Odometer.shown_of_next? hr
    simp [left, Odometer.left_eq_length, hshown]
  | combinations parts =>
    obtain ⟨r, hr, hrest⟩ := Option.map_eq_some_iff.1 h
    cases hrest
    have hshown := Odometer.shown_of_next? hr
    simp [left, Odometer.left_eq_length, hshown]
  | samples sampler =>
    obtain ⟨houtcome, rfl⟩ := next?_samples_eq_some_iff.1 h
    have hleft : sampler.left ≠ 0 := by
      intro hzero
      rw [Sampler.next_of_left_eq_zero hzero] at houtcome
      cases houtcome
    simp only [left, Sampler.left_next]
    omega

theorem left_of_next?_none (h : outcomes.next? = none) : outcomes.left = 0 := by
  cases outcomes with
  | given list =>
    cases list with
    | nil => rfl
    | cons outcome list => cases h
  | rolls faces =>
    have hshown := Odometer.next?_eq_none_iff.1 (Option.map_eq_none_iff.1 h)
    simp [left, Odometer.left_eq_length, hshown]
  | combinations parts =>
    have hshown := Odometer.next?_eq_none_iff.1 (Option.map_eq_none_iff.1 h)
    simp [left, Odometer.left_eq_length, hshown]
  | samples sampler => exact next?_samples_eq_none_iff.1 h

theorem all_of_next? (h : outcomes.next? = some (outcome, rest)) : outcomes.all = outcome :: rest.all := by
  unfold all
  rw [left_of_next? h, take, h]

theorem all_of_next?_none (h : outcomes.next? = none) : outcomes.all = [] := by
  unfold all
  rw [left_of_next?_none h, take]

theorem all_given (list : List Outcome) : (given list).all = list := by
  induction list with
  | nil => rfl
  | cons outcome list ih =>
    have hnext : (given (outcome :: list)).next? = some (outcome, given list) := rfl
    rw [all_of_next? hnext, ih]

/-- Outcomes that are made of what an odometer shows. -/
theorem all_of_odometer {α : Type} (make : Odometer α → Outcomes) (outcomeOf : List α → Outcome)
    (hnext : ∀ o, (make o).next? = o.next?.map fun (c, rest) => (outcomeOf c, make rest)) (o : Odometer α) :
    (make o).all = o.shown.map outcomeOf := by
  -- by induction on what is still to be shown, which gets shorter with every move
  generalize hshown : o.shown = shown
  induction shown generalizing o with
  | nil =>
    have hend : (make o).next? = none := by rw [hnext, Odometer.next?_eq_none_iff.2 hshown]; rfl
    rw [all_of_next?_none hend, List.map_nil]
  | cons c shown ih =>
    cases hmove : o.next? with
    | none => simp [Odometer.next?_eq_none_iff.1 hmove] at hshown
    | some r =>
      rw [Odometer.shown_of_next? hmove] at hshown
      obtain ⟨hfirst, hrest⟩ := List.cons.inj hshown
      have hmade : (make o).next? = some (outcomeOf r.1, make r.2) := by rw [hnext, hmove]; rfl
      rw [all_of_next? hmade, ih r.2 hrest, hfirst, List.map_cons]

/-- A pool is rolled once for each choice of a face of every die. -/
theorem all_enumerate (pool : Pool) :
    (enumerate pool).all = (choices (pool.dice.map (·.faces))).map Outcome.ofFaces := by
  unfold enumerate
  rw [all_of_odometer rolls Outcome.ofFaces fun _ => rfl, Odometer.shown_ofLists]

/-- Distributions are combined once for each choice of an entry of every one. -/
theorem all_combine {distributions : List Distribution} (h : distributions ≠ []) :
    (combine distributions).all = (choices (distributions.map (·.entries))).map Outcome.join := by
  unfold combine
  rw [all_of_odometer combinations Outcome.join fun _ => rfl, if_neg (by simpa using h), Odometer.shown_ofLists]

end Outcomes

namespace Operation

/-- The result of an outcome, with its weight. -/
def weigh (op : Operation) (outcome : Outcome) : Except EvalError (Tuple × Decimal) :=
  (op.eval outcome.1).map fun key => (key, outcome.2)

section

variable {op : Operation} {outcomes rest : Outcomes} {dice : Tuple} {weight : Decimal} {s s' : Store}

theorem tallyFrom_of_error (hnext : outcomes.next? = some ((dice, weight), rest)) {e : EvalError}
    (happly : op.apply dice s = (.error e, s')) (n : Nat) (counts : Distribution) :
    tallyFrom op (n + 1) outcomes counts s = (.error e, s') := by
  simp only [tallyFrom, hnext, happly]

theorem tallyFrom_of_ok (hnext : outcomes.next? = some ((dice, weight), rest)) {key : Tuple}
    (happly : op.apply dice s = (.ok key, s')) (n : Nat) (counts : Distribution) :
    tallyFrom op (n + 1) outcomes counts s = tallyFrom op n rest (counts.add key weight) s' := by
  simp only [tallyFrom, hnext, happly]

end

/-- The tally of an evaluator that has been used before. -/
def tallied (op : Operation) (capacity : Option Nat) (earlier : List Step) (outcomes : Outcomes) :
    Except EvalError Distribution :=
  (tally op outcomes (op.session earlier (.new op capacity)).2).1

variable {registry : Registry} (hregistry : registry.Built) {options : ParseOptions} {words : List String}
  {op : Operation} (hparse : parse ⟨registry, options⟩ words = .ok op)

include hregistry hparse

theorem tallyFrom_eq (n : Nat) (outcomes : Outcomes) (hn : outcomes.left = n) (counts : Distribution) {s : Store}
    (hs : s.Sound registry op) :
    (tallyFrom op n outcomes counts s).1 =
      (outcomes.all.mapM op.weigh).map fun results => results.foldl (fun d r => d.add r.1 r.2) counts := by
  induction n generalizing outcomes counts s with
  | zero =>
    have hall : outcomes.all = [] := by rw [Outcomes.all, hn, Outcomes.take]
    rw [hall]
    rfl
  | succ n ih =>
    cases hnext : outcomes.next? with
    | none => simp [Outcomes.left_of_next?_none hnext] at hn
    | some r =>
      obtain ⟨⟨dice, weight⟩, rest⟩ := r
      have hleft : rest.left = n := by
        have h := Outcomes.left_of_next? hnext
        omega
      obtain ⟨hresult, hafter⟩ := apply_eq hregistry hparse hs dice
      rw [Outcomes.all_of_next? hnext, List.mapM_cons]
      cases hanswer : op.apply dice s with
      | mk result s' =>
        rw [hanswer] at hresult hafter
        cases result with
        | error e =>
          have hweigh : op.weigh (dice, weight) = .error e := by rw [weigh, ← hresult]; rfl
          rw [tallyFrom_of_error hnext hanswer, hweigh]
          rfl
        | ok key =>
          have hweigh : op.weigh (dice, weight) = .ok (key, weight) := by rw [weigh, ← hresult]; rfl
          -- the caches after this outcome are sound again, which is all that the next one needs
          rw [tallyFrom_of_ok hnext hanswer, ih rest hleft _ hafter, hweigh]
          cases rest.all.mapM op.weigh <;> rfl

/-- A tally is the first failure over the outcomes in order, or the distribution of the results. -/
theorem tally_eq (outcomes : Outcomes) {s : Store} (hs : s.Sound registry op) :
    (tally op outcomes s).1 = (outcomes.all.mapM op.weigh).map Distribution.ofList :=
  tallyFrom_eq hregistry hparse _ outcomes rfl _ hs

omit hregistry hparse in
theorem weigh_eq_ok_iff {outcome : Outcome} {r : Tuple × Decimal} :
    op.weigh outcome = .ok r ↔ op.eval outcome.1 = .ok r.1 ∧ r.2 = outcome.2 := by
  obtain ⟨key, weight⟩ := r
  unfold weigh
  rw [map_eq_ok_iff]
  constructor
  · rintro ⟨_, heval, h⟩
    cases h
    exact ⟨heval, rfl⟩
  · rintro ⟨heval, rfl⟩
    exact ⟨key, heval, rfl⟩

omit hregistry hparse in
theorem weigh_eq_error_iff {outcome : Outcome} {e : EvalError} :
    op.weigh outcome = .error e ↔ op.eval outcome.1 = .error e := by
  unfold weigh
  cases op.eval outcome.1 <;> simp [Except.map]

theorem tallied_eq (capacity : Option Nat) (earlier : List Step) (outcomes : Outcomes) :
    op.tallied capacity earlier outcomes = (outcomes.all.mapM op.weigh).map Distribution.ofList :=
  tally_eq hregistry hparse outcomes (session_eq hregistry hparse (Store.sound_new registry op capacity) earlier).2

/-- A tally fails as the operation does on the first outcome without a result. -/
theorem tallied_eq_error_iff {capacity : Option Nat} {earlier : List Step} {outcomes : Outcomes} {e : EvalError} :
    op.tallied capacity earlier outcomes = .error e ↔
      ∃ before first after, outcomes.all = before ++ first :: after ∧
        (∀ outcome ∈ before, ∃ key, op.eval outcome.1 = .ok key) ∧ op.eval first.1 = .error e := by
  have hmap {x : Except EvalError (List (Tuple × Decimal))} :
      x.map Distribution.ofList = .error e ↔ x = .error e := by cases x <;> simp [Except.map]
  have hok (outcome : Outcome) : (∃ r, op.weigh outcome = .ok r) ↔ ∃ key, op.eval outcome.1 = .ok key := by
    simp [weigh, map_eq_ok_iff]
  simp only [tallied_eq hregistry hparse, hmap, mapM_eq_error_iff, hok, weigh_eq_error_iff]

theorem tallied_eq_ok_iff {capacity : Option Nat} {earlier : List Step} {outcomes : Outcomes} {d : Distribution} :
    op.tallied capacity earlier outcomes = .ok d ↔
      ∃ results, List.Forall₂ (fun outcome r => op.eval outcome.1 = .ok r.1 ∧ r.2 = outcome.2) outcomes.all results ∧
        Distribution.ofList results = d := by
  simp only [tallied_eq hregistry hparse, map_eq_ok_iff, mapM_eq_ok_iff, weigh_eq_ok_iff]

theorem exists_tallied_eq_ok_iff {capacity : Option Nat} {earlier : List Step} {outcomes : Outcomes} :
    (∃ d, op.tallied capacity earlier outcomes = .ok d) ↔
      ∀ outcome ∈ outcomes.all, ∃ key, op.eval outcome.1 = .ok key := by
  constructor
  · rintro ⟨d, hd⟩ outcome hmem
    obtain ⟨results, hresults, -⟩ := (tallied_eq_ok_iff hregistry hparse).1 hd
    obtain ⟨r, -, heval, -⟩ := exists_of_mem_forall₂ hresults hmem
    exact ⟨r.1, heval⟩
  · intro h
    have hweigh : ∀ outcome ∈ outcomes.all, ∃ r, op.weigh outcome = .ok r := by
      intro outcome hmem
      obtain ⟨key, heval⟩ := h outcome hmem
      exact ⟨(key, outcome.2), weigh_eq_ok_iff.2 ⟨heval, rfl⟩⟩
    obtain ⟨results, hresults⟩ := exists_mapM_eq_ok hweigh
    exact ⟨_, by rw [tallied_eq hregistry hparse, hresults]; rfl⟩

/-- What is tallied are the results on the outcomes. -/
theorem isSome_get?_of_tallied {capacity : Option Nat} {earlier : List Step} {outcomes : Outcomes} {d : Distribution}
    (h : op.tallied capacity earlier outcomes = .ok d) (key : Tuple) :
    (d.get? key).isSome = true ↔ ∃ outcome ∈ outcomes.all, op.eval outcome.1 = .ok key := by
  obtain ⟨results, hresults, rfl⟩ := (tallied_eq_ok_iff hregistry hparse).1 h
  rw [Distribution.isSome_get?_ofList, List.mem_map]
  constructor
  · rintro ⟨r, hr, rfl⟩
    obtain ⟨outcome, hmem, heval, -⟩ := exists_of_mem_forall₂ hresults.flip hr
    exact ⟨outcome, hmem, heval⟩
  · rintro ⟨outcome, hmem, heval⟩
    obtain ⟨r, hr, hkey, -⟩ := exists_of_mem_forall₂ hresults hmem
    rw [heval] at hkey
    exact ⟨r, hr, (Except.ok.inj hkey).symm⟩

end Operation

end DiceTally
