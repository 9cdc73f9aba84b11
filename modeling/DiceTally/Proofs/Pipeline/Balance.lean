import DiceTally.Proofs.Condition.Shape
import DiceTally.Proofs.Pipeline.Cut
import DiceTally.Proofs.Pipeline.Derivation

/-!
# Balanced brackets

Tokens are balanced if every bracket that is opened is closed and no other one is closed.  A body between brackets
is cut off where it ends if it is balanced (`splitBracket_body`), and all tokens that are read as a pipeline are
balanced (`balanced_of_parse`).
-/

namespace DiceTally

/-- The number of open brackets after some tokens, `depth` being open before them; none if one is closed that is not
open. -/
def depthAfter (depth : Nat) : List String → Option Nat
  | [] => some depth
  | t :: ts =>
    if t = "[" then depthAfter (depth + 1) ts
    else if t = "]" then
      match depth with
      | 0 => none
      | depth + 1 => depthAfter depth ts
    else depthAfter depth ts

/-- Every bracket is opened and closed. -/
def Balanced (tokens : List String) : Prop := depthAfter 0 tokens = some 0

theorem depthAfter_open (depth : Nat) (ts : List String) :
    depthAfter depth ("[" :: ts) = depthAfter (depth + 1) ts := by
  simp [depthAfter]

theorem depthAfter_close (depth : Nat) (ts : List String) :
    depthAfter (depth + 1) ("]" :: ts) = depthAfter depth ts := by
  simp [depthAfter]

theorem depthAfter_word {t : String} (hopen : t ≠ "[") (hclose : t ≠ "]") (depth : Nat) (ts : List String) :
    depthAfter depth (t :: ts) = depthAfter depth ts := by
  simp [depthAfter, hopen, hclose]

theorem depthAfter_append (depth : Nat) (ts us : List String) :
    depthAfter depth (ts ++ us) = (depthAfter depth ts).bind fun d => depthAfter d us := by
  induction ts generalizing depth with
  | nil => rfl
  | cons t ts ih =>
    simp only [List.cons_append, depthAfter]
    split
    · exact ih _
    · split
      · cases depth with
        | zero => rfl
        | succ depth => exact ih _
      · exact ih _

/-- Further open brackets stay open. -/
theorem depthAfter_add {d e : Nat} {ts : List String} (h : depthAfter d ts = some e) (k : Nat) :
    depthAfter (d + k) ts = some (e + k) := by
  induction ts generalizing d with
  | nil =>
    cases h
    rfl
  | cons t ts ih =>
    by_cases hopen : t = "["
    · subst hopen
      rw [depthAfter_open] at h ⊢
      rw [Nat.add_right_comm]
      exact ih h
    · by_cases hclose : t = "]"
      · subst hclose
        cases d with
        | zero => cases h
        | succ d =>
          rw [depthAfter_close] at h
          rw [Nat.add_right_comm, depthAfter_close]
          exact ih h
      · rw [depthAfter_word hopen hclose] at h ⊢
        exact ih h

namespace Balanced

variable {ts us : List String}

theorem depth (h : Balanced ts) (depth : Nat) : depthAfter depth ts = some depth := by
  have := depthAfter_add h depth
  rwa [Nat.zero_add] at this

theorem nil : Balanced [] := rfl

theorem append (hts : Balanced ts) (hus : Balanced us) : Balanced (ts ++ us) := by
  rw [Balanced, depthAfter_append, hts]
  exact hus

theorem cons {t : String} (ht : Token.isBracket t = false) (hts : Balanced ts) : Balanced (t :: ts) := by
  simp only [Token.isBracket, Bool.or_eq_false_iff, beq_eq_false_iff_ne] at ht
  rw [Balanced, depthAfter_word ht.1 ht.2]
  exact hts

theorem brackets (hts : Balanced ts) : Balanced ("[" :: ts ++ ["]"]) := by
  rw [Balanced, List.cons_append, depthAfter_open, depthAfter_append, hts.depth]
  rfl

theorem group (hts : Balanced ts) (hus : Balanced us) : Balanced ("[" :: ts ++ "]" :: us) := by
  have h := hts.brackets.append hus
  rwa [List.append_assoc] at h

theorem of_words (h : ∀ t ∈ ts, Token.isBracket t = false) : Balanced ts := by
  induction ts with
  | nil => exact nil
  | cons t ts ih => exact cons (h t List.mem_cons_self) (ih fun u hu => h u (List.mem_cons_of_mem t hu))

theorem of_params {registry : Registry} (h : ∀ t ∈ ts, stopsParams registry t = false) : Balanced ts := by
  refine of_words fun t ht => ?_
  have hstop := h t ht
  simp only [stopsParams, Bool.or_eq_false_iff] at hstop
  exact hstop.1.2

end Balanced

/-! ### Conditions -/

namespace Condition

theorem Leaf.not_isBracket {ts : List String} {c : Condition} (h : Leaf ts c) : ∀ t ∈ ts, Token.isBracket t = false := by
  intro t ht
  rcases h.mem ht with rfl | ⟨comparison, rfl⟩ | ⟨v, hv⟩
  · decide
  · cases comparison <;> decide
  · have hkeywords := hv.not_mem_keywords
    simp only [keywords, List.cons_append, List.mem_cons, not_or] at hkeywords
    simp [Token.isBracket, hkeywords.1, hkeywords.2.1]

theorem Derives.balanced {level : Level} {ts : List String} {c : Condition} (h : Derives level ts c) : Balanced ts := by
  induction h with
  | leaf h => exact .of_words h.not_isBracket
  | brackets _ ih => exact ih.brackets
  | plain _ ih => exact ih
  | not _ ih => exact ih.cons (by decide)
  | conjunct _ ih => exact ih
  | and _ _ ihl ihr => exact ihl.append (ihr.cons (by decide))
  | disjunct _ ih => exact ih
  | or _ _ ihl ihr => exact ihl.append (ihr.cons (by decide))

theorem balanced_of_parse {ts : List String} {c : Condition} (h : parse ts = .ok c) : Balanced ts := by
  cases sentence_of_parse h with
  | empty => exact .nil
  | written h => exact h.balanced

end Condition

/-! ### Cutting at brackets -/

theorem splitBracket_append {d e : Nat} {ts : List String} (h : depthAfter d ts = some e) (rest : List String) :
    splitBracket d (ts ++ rest) = (splitBracket e rest).map fun (body, after) => (ts ++ body, after) := by
  induction ts generalizing d with
  | nil =>
    cases h
    simp
  | cons t ts ih =>
    rw [List.cons_append]
    by_cases hopen : t = "["
    · subst hopen
      rw [depthAfter_open] at h
      rw [splitBracket_open, ih h, Option.map_map]
      rfl
    · by_cases hclose : t = "]"
      · subst hclose
        cases d with
        | zero => cases h
        | succ d =>
          rw [depthAfter_close] at h
          rw [splitBracket_close, ih h, Option.map_map]
          rfl
      · rw [depthAfter_word hopen hclose] at h
        rw [splitBracket_word d hopen hclose, ih h, Option.map_map]
        rfl

/-- A balanced body ends at the bracket after it. -/
theorem splitBracket_body {body : List String} (h : Balanced body) (rest : List String) :
    splitBracket 0 (body ++ "]" :: rest) = some (body, rest) := by
  rw [splitBracket_append h]
  simp [splitBracket]

/-- The search for the end goes past tokens that are inside brackets or do not end it. -/
theorem splitTop_append {isEnd : String → Bool} {d e : Nat} {ts : List String} (h : depthAfter d ts = some e) (k : Nat)
    (hend : 0 < k ∨ ∀ t ∈ ts, isEnd t = false) (rest : List String) :
    splitTop isEnd (d + k) (ts ++ rest) =
      (ts ++ (splitTop isEnd (e + k) rest).1, (splitTop isEnd (e + k) rest).2) := by
  induction ts generalizing d with
  | nil =>
    cases h
    rfl
  | cons t ts ih =>
    have htail : 0 < k ∨ ∀ u ∈ ts, isEnd u = false := hend.imp_right fun h u hu => h u (List.mem_cons_of_mem t hu)
    rw [List.cons_append]
    by_cases hopen : t = "["
    · subst hopen
      rw [depthAfter_open] at h
      rw [splitTop_open, Nat.add_right_comm, ih h htail]
      rfl
    · by_cases hclose : t = "]"
      · subst hclose
        cases d with
        | zero => cases h
        | succ d =>
          rw [depthAfter_close] at h
          rw [splitTop_close, Nat.add_right_comm, Nat.add_sub_cancel, ih h htail]
          rfl
      -- a word could only end the search outside all brackets
      · rw [depthAfter_word hopen hclose] at h
        have hword : 0 < d + k ∨ isEnd t = false := by
          rcases hend with hk | hall
          · exact .inl (Nat.add_pos_right d hk)
          · exact .inr (hall t List.mem_cons_self)
        rw [splitTop_word hopen hclose hword, ih h htail]
        rfl

/-- The search for an end goes past these tokens. -/
def Passes (isEnd : String → Bool) (ts : List String) : Prop :=
  ∀ rest, splitTop isEnd 0 (ts ++ rest) = (ts ++ (splitTop isEnd 0 rest).1, (splitTop isEnd 0 rest).2)

namespace Passes

variable {isEnd : String → Bool} {ts us : List String}

theorem of_balanced (hts : Balanced ts) (h : ∀ t ∈ ts, isEnd t = false) : Passes isEnd ts :=
  splitTop_append hts 0 (.inr h)

theorem append (hts : Passes isEnd ts) (hus : Passes isEnd us) : Passes isEnd (ts ++ us) := by
  intro rest
  rw [List.append_assoc, hts, hus, List.append_assoc]

theorem word {t : String} (ht : Token.isBracket t = false) (hend : isEnd t = false) : Passes isEnd [t] :=
  of_balanced (Balanced.nil.cons ht) (by simpa using hend)

/-- Brackets hide all that stands between them. -/
theorem brackets {body : List String} (hbody : Balanced body) : Passes isEnd ("[" :: body ++ ["]"]) := by
  intro rest
  have hinside := @splitTop_append isEnd 0 0 body hbody 1 (.inl Nat.one_pos) ("]" :: rest)
  rw [List.append_assoc, List.cons_append, splitTop_open, List.singleton_append, hinside, splitTop_close]
  simp

end Passes

/-! ### All that is read -/

/-- Condition and branch are balanced. -/
def Guard.AllBalanced (guard : Guard) : Prop := Balanced guard.condition ∧ ∀ branch ∈ guard.otherwise, Balanced branch

/-- What is still to be read of a stage is balanced. -/
def Cut.AllBalanced (cut : Cut) : Prop :=
  match cut.stage with
  | .group body guard => Balanced body ∧ ∀ g ∈ guard, g.AllBalanced
  | .slices _ _ => Balanced cut.rest
  | .call _ _ guard => ∀ g ∈ guard, g.AllBalanced

theorem balanced_of_guardSplit {ts : List String} (hguard : (Guard.split ts).1.AllBalanced)
    (hrest : Balanced (Guard.split ts).2) : Balanced ts := by
  obtain ⟨condition, ⟨hsplit, rfl⟩ | ⟨after, hsplit, rfl⟩ | ⟨branch, hsplit, rfl⟩ | ⟨branch, after, hsplit, rfl⟩⟩ :=
    Guard.split_cases ts
  all_goals rw [hsplit] at hguard hrest
  · exact hguard.1
  · exact hguard.1.append (hrest.cons (by decide))
  · exact hguard.1.append ((hguard.2 branch rfl).cons (by decide))
  · exact (hguard.1.append ((hguard.2 branch rfl).cons (by decide))).append (hrest.cons (by decide))

theorem balanced_of_splitGuard {ts : List String} (hguard : ∀ g ∈ (splitGuard ts).1, g.AllBalanced)
    (hrest : Balanced (splitGuard ts).2) : Balanced ts := by
  rcases splitGuard_cases ts with hsplit | ⟨us, rfl, hsplit⟩
  all_goals rw [hsplit] at hguard hrest
  · exact hrest
  · exact (balanced_of_guardSplit (hguard _ rfl) hrest).cons (by decide)

/-- Tokens are balanced if their first stage and what follows it are. -/
theorem Cut.balanced_of_ofTokens {registry : Registry} {tokens : List String} {cut : Cut}
    (h : ofTokens registry tokens = .ok cut) (hcut : cut.AllBalanced) (hafter : Balanced cut.after) :
    Balanced tokens := by
  -- a bracketed stage, or a name with parameters, which are no brackets
  rcases ofTokens_cases h with ⟨body, after, rfl, -, rfl⟩ | ⟨head, params, after, rfl, hhead, hparams, hcases⟩
  · exact hcut.1.group (balanced_of_splitGuard hcut.2 hafter)
  · have hwords := Balanced.of_params hparams
    rcases hcases with ⟨-, rfl⟩ | rfl
    · exact (hwords.append hcut).cons hhead
    · exact (hwords.append (balanced_of_splitGuard hcut hafter)).cons hhead

namespace Operation

/-- All that is still to be read of a part is balanced. -/
def PartBalanced : Part → Prop
  | .pipeline _ tokens => Balanced tokens
  | .stage cut => cut.AllBalanced
  | .guarded _ guard => ∀ g ∈ guard, g.AllBalanced
  | .branch tokens => Balanced tokens

variable {language : Language}

theorem Reads.balanced {part : Part} {n k : Nat} {op : Operation} (h : Reads language part n op k) :
    PartBalanced part := by
  induction h with
  | last hcut _ hafter ih => exact Cut.balanced_of_ofTokens hcut ih (hafter ▸ .nil)
  | andThen hcut _ _ _ ihcurrent ihnext => exact Cut.balanced_of_ofTokens hcut ihcurrent ihnext
  | group _ _ ihinner ihop => exact ⟨ihinner, ihop⟩
  | slicesLast _ _ hfirst _ hafter ih => exact Cut.balanced_of_ofTokens hfirst ih (hafter ▸ .nil)
  | slices _ _ hfirst _ _ _ ihinner ihouter => exact Cut.balanced_of_ofTokens hfirst ihinner ihouter
  | registered _ => exact fun g hg => by cases hg
  | reroll _ => exact fun g hg => by cases hg
  | rerollIf _ hcondition =>
    intro g hg
    cases hg
    exact ⟨Condition.balanced_of_parse hcondition, fun _ h => by cases h⟩
  | builtIn _ _ _ _ _ ih => exact ih
  | unguarded => exact fun g hg => by cases hg
  | guarded hcondition =>
    intro g hg
    cases hg
    exact ⟨Condition.balanced_of_parse hcondition, fun _ h => by cases h⟩
  | branched hcondition _ ih =>
    intro g hg
    cases hg
    refine ⟨Condition.balanced_of_parse hcondition, fun branch hbranch => ?_⟩
    cases hbranch
    exact ih
  | branch _ _ ih => exact ih

/-- All tokens of a pipeline that is accepted are balanced. -/
theorem balanced_of_parse {words : List String} {op : Operation} (h : parse language words = .ok op) :
    Balanced (Token.normalize words) := by
  obtain ⟨k, hreads⟩ := parse_eq_ok_iff.1 h
  exact hreads.balanced

end Operation

end DiceTally
