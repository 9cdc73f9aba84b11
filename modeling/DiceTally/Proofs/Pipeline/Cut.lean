import DiceTally.Pipeline.Cut
import Mathlib.Data.List.TakeWhile

/-!
# What is cut off a pipeline

The ways in which the first stage can be cut off, each with the tokens put together again (`Guard.split_cases`,
`splitGuard_cases`, `Cut.ofTokens_cases`).  So the parts of a stage are tokens of the pipeline, and no parameter is
a word that ends a list of parameters (`Cut.within_of_ofTokens`).
-/

namespace DiceTally

/-! ### Splitting at brackets -/

theorem splitBracket_open (d : Nat) (ts : List String) :
    splitBracket d ("[" :: ts) = (splitBracket (d + 1) ts).map fun (body, after) => ("[" :: body, after) := by
  simp [splitBracket]

theorem splitBracket_close (d : Nat) (ts : List String) :
    splitBracket (d + 1) ("]" :: ts) = (splitBracket d ts).map fun (body, after) => ("]" :: body, after) := by
  simp [splitBracket]

theorem splitBracket_word (d : Nat) {t : String} (hopen : t ≠ "[") (hclose : t ≠ "]") (ts : List String) :
    splitBracket d (t :: ts) = (splitBracket d ts).map fun (body, after) => (t :: body, after) := by
  simp [splitBracket, hopen, hclose]

theorem eq_append_of_splitBracket {depth : Nat} {tokens body rest : List String}
    (h : splitBracket depth tokens = some (body, rest)) : tokens = body ++ "]" :: rest := by
  induction tokens generalizing depth body rest with
  | nil => cases h
  | cons t ts ih =>
    have step {d : Nat} (hd : (splitBracket d ts).map (fun (b, a) => (t :: b, a)) = some (body, rest)) :
        t :: ts = body ++ "]" :: rest := by
      obtain ⟨⟨b, a⟩, hs, he⟩ := Option.map_eq_some_iff.1 hd
      cases he
      rw [ih hs, List.cons_append]
    by_cases hopen : t = "["
    · subst hopen
      exact step (splitBracket_open depth ts ▸ h)
    · by_cases hclose : t = "]"
      · subst hclose
        cases depth with
        | zero =>
          simp only [splitBracket, if_neg hopen, if_true] at h
          cases h
          rfl
        | succ depth => exact step (splitBracket_close depth ts ▸ h)
      · exact step (splitBracket_word depth hopen hclose ts ▸ h)

/-! ### Splitting at the first end outside of brackets -/

theorem splitTop_open (isEnd : String → Bool) (d : Nat) (ts : List String) :
    splitTop isEnd d ("[" :: ts) = ("[" :: (splitTop isEnd (d + 1) ts).1, (splitTop isEnd (d + 1) ts).2) := by
  simp [splitTop]

theorem splitTop_close (isEnd : String → Bool) (d : Nat) (ts : List String) :
    splitTop isEnd d ("]" :: ts) = ("]" :: (splitTop isEnd (d - 1) ts).1, (splitTop isEnd (d - 1) ts).2) := by
  simp [splitTop]

theorem splitTop_word {isEnd : String → Bool} {d : Nat} {t : String} (hopen : t ≠ "[") (hclose : t ≠ "]")
    (h : 0 < d ∨ isEnd t = false) (ts : List String) :
    splitTop isEnd d (t :: ts) = (t :: (splitTop isEnd d ts).1, (splitTop isEnd d ts).2) := by
  have hend : ¬ (decide (d = 0) && isEnd t) = true := by
    rcases h with h | h
    · simp [Nat.pos_iff_ne_zero.1 h]
    · simp [h]
  simp only [splitTop, if_neg hopen, if_neg hclose, if_neg hend]

theorem splitTop_end {isEnd : String → Bool} {t : String} (hopen : t ≠ "[") (hclose : t ≠ "]") (h : isEnd t = true)
    (ts : List String) : splitTop isEnd 0 (t :: ts) = ([], t :: ts) := by
  simp [splitTop, hopen, hclose, h]

theorem splitTop_append_self (isEnd : String → Bool) (depth : Nat) (tokens : List String) :
    (splitTop isEnd depth tokens).1 ++ (splitTop isEnd depth tokens).2 = tokens := by
  induction tokens generalizing depth with
  | nil => rfl
  | cons t ts ih =>
    unfold splitTop
    dsimp only
    split
    · rw [List.cons_append, ih]
    · split
      · rw [List.cons_append, ih]
      · split
        · rfl
        · rw [List.cons_append, ih]

theorem isEnd_of_splitTop {isEnd : String → Bool} {d : Nat} {ts us : List String} {t : String}
    (h : (splitTop isEnd d ts).2 = t :: us) : isEnd t = true ∧ Token.isBracket t = false := by
  induction ts generalizing d with
  | nil => cases h
  | cons u ts ih =>
    by_cases hopen : u = "["
    · subst hopen
      rw [splitTop_open] at h
      exact ih h
    · by_cases hclose : u = "]"
      · subst hclose
        rw [splitTop_close] at h
        exact ih h
      · by_cases hend : 0 < d ∨ isEnd u = false
        · rw [splitTop_word hopen hclose hend] at h
          exact ih h
        · obtain ⟨hd, hu⟩ := not_or.1 hend
          obtain rfl : d = 0 := by omega
          rw [splitTop_end hopen hclose (by simpa using hu)] at h
          cases h
          exact ⟨by simpa using hu, by simp [Token.isBracket, hopen, hclose]⟩

/-! ### `if` blocks -/

namespace Guard

/-- The words that end a condition. -/
abbrev endsCondition (t : String) : Bool := t == "else" || t == "then"

/-- The word that ends a branch. -/
abbrev endsBranch (t : String) : Bool := t == "then"

theorem split_of_end {ts condition : List String} (h : splitTop endsCondition 0 ts = (condition, [])) :
    split ts = (⟨condition, none⟩, []) := by
  simp only [split, h]

theorem split_of_then {ts condition us : List String} (h : splitTop endsCondition 0 ts = (condition, "then" :: us)) :
    split ts = (⟨condition, none⟩, us) := by
  simp [split, h, dropThen]

theorem split_of_else {ts condition us : List String} (h : splitTop endsCondition 0 ts = (condition, "else" :: us)) :
    split ts = (⟨condition, some (splitTop endsBranch 0 us).1⟩, dropThen (splitTop endsBranch 0 us).2) := by
  simp [split, h]

/-- The branch after `else`, if any, and the tokens after the block put together again. -/
theorem split_cases (ts : List String) :
    ∃ condition, split ts = (⟨condition, none⟩, []) ∧ ts = condition ∨
      (∃ after, split ts = (⟨condition, none⟩, after) ∧ ts = condition ++ "then" :: after) ∨
      (∃ branch, split ts = (⟨condition, some branch⟩, []) ∧ ts = condition ++ "else" :: branch) ∨
      ∃ branch after, split ts = (⟨condition, some branch⟩, after) ∧
        ts = condition ++ "else" :: branch ++ "then" :: after := by
  have hts := splitTop_append_self endsCondition 0 ts
  cases hsplit : splitTop endsCondition 0 ts with
  | mk condition rest =>
    rw [hsplit] at hts
    refine ⟨condition, ?_⟩
    cases rest with
    | nil => exact .inl ⟨split_of_end hsplit, by rw [← hts, List.append_nil]⟩
    | cons t us =>
      right
      have ht : endsCondition t = true := (isEnd_of_splitTop (congrArg Prod.snd hsplit)).1
      simp only [endsCondition, Bool.or_eq_true, beq_iff_eq] at ht
      -- the condition ends at `else` or at `then`
      rcases ht with rfl | rfl
      · right
        have hus := splitTop_append_self endsBranch 0 us
        have helse := split_of_else hsplit
        cases hbranch : splitTop endsBranch 0 us with
        | mk branch after =>
          rw [hbranch] at hus helse
          cases after with
          | nil => exact .inl ⟨branch, helse, by rw [← hts, ← hus, List.append_nil]⟩
          | cons u after =>
            have hu : endsBranch u = true := (isEnd_of_splitTop (congrArg Prod.snd hbranch)).1
            obtain rfl : u = "then" := by simpa using hu
            exact .inr ⟨branch, after, helse, by rw [← hts, ← hus, List.append_assoc, List.cons_append]⟩
      · exact .inl ⟨us, split_of_then hsplit, hts.symm⟩

end Guard

theorem splitGuard_if (ts : List String) :
    splitGuard ("if" :: ts) = (some (Guard.split ts).1, (Guard.split ts).2) := by
  simp [splitGuard]

theorem splitGuard_of_ne {t : String} (h : t ≠ "if") (ts : List String) :
    splitGuard (t :: ts) = (none, t :: ts) := by
  simp [splitGuard, h]

theorem splitGuard_cases (ts : List String) :
    splitGuard ts = (none, ts) ∨
      ∃ us, ts = "if" :: us ∧ splitGuard ts = (some (Guard.split us).1, (Guard.split us).2) := by
  cases ts with
  | nil => exact .inl rfl
  | cons t us =>
    by_cases ht : t = "if"
    · subst ht
      exact .inr ⟨us, rfl, splitGuard_if us⟩
    · exact .inl (splitGuard_of_ne ht us)

namespace Cut

/-! ### Stages -/

/-- The two ways in which a first stage begins, and what it is cut into. -/
theorem ofTokens_cases {registry : Registry} {tokens : List String} {cut : Cut}
    (h : ofTokens registry tokens = .ok cut) :
    (∃ body after, tokens = "[" :: body ++ "]" :: after ∧ splitBracket 0 (body ++ "]" :: after) = some (body, after) ∧
      cut = ⟨.group body (splitGuard after).1, (splitGuard after).2⟩) ∨
    ∃ head params after, tokens = head :: params ++ after ∧ Token.isBracket head = false ∧
      (∀ p ∈ params, stopsParams registry p = false) ∧
      (head = "slice-apply" ∧ cut = ⟨.slices params (after.head? == some "if"), after⟩ ∨
        cut = ⟨.call head params (splitGuard after).1, (splitGuard after).2⟩) := by
  cases tokens with
  | nil => cases h
  | cons head tail =>
    simp only [ofTokens] at h
    split at h
    -- a stage in brackets
    · rename_i hopen
      left
      split at h
      · cases h
      · rename_i body after hs
        have htail := eq_append_of_splitBracket hs
        split at h
        · cases h
        · cases h
          exact ⟨body, after, by rw [hopen, htail, List.cons_append], htail ▸ hs, rfl⟩
    -- a name, and the parameters up to the first token that is none
    · rename_i hopen
      right
      split at h
      · cases h
      · rename_i hclose
        split at h
        · cases h
        · refine ⟨head, tail.takeWhile fun t => !stopsParams registry t,
            tail.dropWhile fun t => !stopsParams registry t, ?_, by simp [Token.isBracket, hopen, hclose],
            fun p hp => ?_, ?_⟩
          · rw [List.cons_append, List.takeWhile_append_dropWhile]
          · simpa using List.mem_takeWhile_imp hp
          · split at h
            · rename_i hslices
              cases h
              exact .inl ⟨hslices, rfl⟩
            · cases h
              exact .inr rfl

end Cut

/-! ### Parts -/

/-- All tokens of an `if` block are among the given ones. -/
def Guard.Within (all : List String) (guard : Guard) : Prop :=
  guard.condition ⊆ all ∧ ∀ branch ∈ guard.otherwise, branch ⊆ all

/-- All tokens of a stage are among the given ones, and its parameters are words that may be parameters. -/
def Stage.Within (registry : Registry) (all : List String) : Stage → Prop
  | group body guard => body ⊆ all ∧ ∀ g ∈ guard, g.Within all
  | slices params _ => params ⊆ all
  | call _ params guard =>
    (∀ p ∈ params, p ∈ all ∧ stopsParams registry p = false) ∧ ∀ g ∈ guard, g.Within all

/-- All tokens of a stage and after it are among the given ones. -/
def Cut.Within (registry : Registry) (all : List String) (cut : Cut) : Prop :=
  cut.stage.Within registry all ∧ cut.rest ⊆ all

theorem within_guardSplit {all tokens : List String} (h : tokens ⊆ all) :
    (Guard.split tokens).1.Within all ∧ (Guard.split tokens).2 ⊆ all := by
  obtain ⟨condition, ⟨hsplit, rfl⟩ | ⟨after, hsplit, rfl⟩ | ⟨branch, hsplit, rfl⟩ | ⟨branch, after, hsplit, rfl⟩⟩ :=
    Guard.split_cases tokens
  · rw [hsplit]
    exact ⟨⟨h, by simp⟩, by simp⟩
  · rw [hsplit]
    simp only [List.append_subset, List.cons_subset] at h
    exact ⟨⟨h.1, by simp⟩, h.2.2⟩
  · rw [hsplit]
    simp only [List.append_subset, List.cons_subset] at h
    exact ⟨⟨h.1, by simpa using h.2.2⟩, by simp⟩
  · rw [hsplit]
    simp only [List.append_subset, List.cons_subset] at h
    exact ⟨⟨h.1.1, by simpa using h.1.2.2⟩, h.2.2⟩

theorem within_splitGuard {all tokens : List String} (h : tokens ⊆ all) :
    (∀ g ∈ (splitGuard tokens).1, g.Within all) ∧ (splitGuard tokens).2 ⊆ all := by
  rcases splitGuard_cases tokens with hsplit | ⟨ts, rfl, hsplit⟩
  · rw [hsplit]
    exact ⟨by simp, h⟩
  · obtain ⟨hguard, hrest⟩ := within_guardSplit (List.cons_subset.1 h).2
    rw [hsplit]
    exact ⟨by simpa using hguard, hrest⟩

namespace Cut

theorem within_of_ofTokens {registry : Registry} {all tokens : List String} {cut : Cut}
    (h : ofTokens registry tokens = .ok cut) (hall : tokens ⊆ all) : cut.Within registry all := by
  rcases ofTokens_cases h with ⟨body, after, rfl, -, rfl⟩ | ⟨head, params, after, rfl, -, hparams, hcut⟩
  · simp only [List.append_subset, List.cons_subset] at hall
    obtain ⟨hguard, hrest⟩ := within_splitGuard hall.2.2
    exact ⟨⟨hall.1.2, hguard⟩, hrest⟩
  · simp only [List.append_subset, List.cons_subset] at hall
    obtain ⟨⟨-, hwords⟩, hafter⟩ := hall
    rcases hcut with ⟨-, rfl⟩ | rfl
    · exact ⟨hwords, hafter⟩
    · obtain ⟨hguard, hrest⟩ := within_splitGuard hafter
      exact ⟨⟨fun p hp => ⟨hwords hp, hparams p hp⟩, hguard⟩, hrest⟩

theorem Within.after {registry : Registry} {all : List String} {cut : Cut} (h : cut.Within registry all) :
    cut.after ⊆ all := by
  unfold Cut.after
  split
  · simp
  · exact h.2

end Cut

end DiceTally
