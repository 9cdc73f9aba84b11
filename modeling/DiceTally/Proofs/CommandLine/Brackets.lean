import DiceTally.CommandLine.Report
import DiceTally.Proofs.Pipeline.Balance
import Mathlib

/-!
# Brackets that do not match

Brackets match if every beginning of the tokens opens at least as many as it closes, and all of them together as
many.  This is what balanced tokens are (`balanced_iff_bracketsMatch`).  A pipeline whose brackets do not match is
refused, wherever the fault is, and so is a definition; a run with one of them ends before its dice are looked at
(`refused_of_unmatched`).
-/

namespace DiceTally

/-- No bracket is closed before it has been opened, and none stays open. -/
structure BracketsMatch (tokens : List String) : Prop where
  opened : ∀ start, start <+: tokens → start.count "]" ≤ start.count "["
  closed : tokens.count "[" = tokens.count "]"

theorem forall_prefix_cons {P : List String → Prop} {t : String} {ts : List String} :
    (∀ start, start <+: t :: ts → P start) ↔ P [] ∧ ∀ start, start <+: ts → P (t :: start) := by
  constructor
  · exact fun h => ⟨h [] List.nil_prefix, fun start hstart => h _ (List.cons_prefix_cons.2 ⟨rfl, hstart⟩)⟩
  · rintro ⟨hnil, hcons⟩ start hstart
    rcases List.prefix_cons_iff.1 hstart with rfl | ⟨rest, rfl, hrest⟩
    · exact hnil
    · exact hcons rest hrest

/-- The depth exists if no beginning closes more than is open, and is what has been opened and not closed. -/
theorem depthAfter_eq_some_iff {d e : Nat} {ts : List String} :
    depthAfter d ts = some e ↔
      (∀ start, start <+: ts → start.count "]" ≤ d + start.count "[") ∧ d + ts.count "[" = e + ts.count "]" := by
  induction ts generalizing d with
  | nil => simp [depthAfter]
  | cons t ts ih =>
    rw [forall_prefix_cons, List.count_nil, List.count_nil, and_iff_right (Nat.zero_le _)]
    by_cases hopen : t = "["
    · subst hopen
      rw [depthAfter_open, ih]
      simp only [List.count_cons_self, List.count_cons_of_ne (show "[" ≠ "]" by decide)]
      simp only [Nat.add_assoc, Nat.add_comm 1]
    · by_cases hclose : t = "]"
      · subst hclose
        simp only [List.count_cons_self, List.count_cons_of_ne hopen]
        cases d with
        | zero =>
          -- the bracket alone is a beginning that closes what is not open
          have hnone : depthAfter 0 ("]" :: ts) = none := by simp [depthAfter]
          rw [hnone]
          refine iff_of_false (by simp) fun h => ?_
          simpa using h.1 [] List.nil_prefix
        | succ d =>
          rw [depthAfter_close, ih]
          refine and_congr (forall₂_congr fun start _ => ?_) ?_ <;> omega
      · rw [depthAfter_word hopen hclose, ih]
        simp only [List.count_cons_of_ne hopen, List.count_cons_of_ne hclose]

theorem balanced_iff_bracketsMatch {tokens : List String} : Balanced tokens ↔ BracketsMatch tokens := by
  rw [Balanced, depthAfter_eq_some_iff]
  simp only [Nat.zero_add]
  exact ⟨fun h => ⟨h.1, h.2⟩, fun h => ⟨h.opened, h.closed⟩⟩

/-! ### Refusals -/

theorem Operation.bracketsMatch_of_parse {language : Language} {words : List String} {op : Operation}
    (h : parse language words = .ok op) : BracketsMatch (Token.normalize words) :=
  balanced_iff_bracketsMatch.1 (balanced_of_parse h)

theorem Definition.parse_of_mem_registerAll {options : ParseOptions} {definitions : List Definition}
    {registry registry' : Registry} (h : registerAll options registry definitions = .ok registry') {d : Definition}
    (hd : d ∈ definitions) : ∃ op, d.parse options = .ok op := by
  induction definitions generalizing registry with
  | nil => cases hd
  | cons first definitions ih =>
    obtain ⟨next, hfirst, hrest⟩ := bind_eq_ok_iff.1 h
    rcases List.mem_cons.1 hd with rfl | hd
    · obtain ⟨op, hop, -⟩ := bind_eq_ok_iff.1 hfirst
      exact ⟨op, hop⟩
    · exact ih hrest hd

/-- What a run sets out to do has been read: its definitions are registered, and its pipeline is accepted with
them. -/
theorem Flags.accepted_of_plan {flags : Flags} {files : Files} {plan : Plan} (h : flags.plan files = .ok plan) :
    ∃ registry, Definition.registerAll flags.parseOptions .empty plan.definitions = .ok registry ∧
      Operation.parse ⟨registry, flags.parseOptions⟩ flags.pipeline = .ok plan.operation := by
  obtain ⟨settings, -, h⟩ := bind_eq_ok_iff.1 h
  obtain ⟨more, -, h⟩ := bind_eq_ok_iff.1 h
  obtain ⟨registry, hregistry, h⟩ := bind_eq_ok_iff.1 h
  obtain ⟨operation, hoperation, h⟩ := bind_eq_ok_iff.1 h
  cases h
  exact ⟨registry, mapError_eq_ok_iff.1 hregistry, mapError_eq_ok_iff.1 hoperation⟩

/-- Only pipelines with matching brackets are accepted.  A run either has read a pipeline and definitions whose
brackets match, or ends with an error that is the same for all dice, random rolls and stored distributions. -/
theorem refused_of_unmatched (language : Language) (words : List String) :
    (∀ op, Operation.parse language words = .ok op → BracketsMatch (Token.normalize words)) ∧
    (¬BracketsMatch (Token.normalize words) → ∃ e, Operation.parse language words = .error e) ∧
    ∀ (files : Files) (flags : Flags),
      (∃ plan, flags.plan files = .ok plan ∧ BracketsMatch (Token.normalize flags.pipeline) ∧
        ∀ d ∈ plan.definitions, BracketsMatch (Token.normalize [d.pipeline])) ∨
      ∃ e, ∀ (random : List UInt32) (dice : PoolRequest) (samples : Option Nat) (load : List String),
        Report.ofRun files random { flags with dice := dice, samples := samples, load := load } =
          ⟨"", none, some e⟩ := by
  refine ⟨fun op h => Operation.bracketsMatch_of_parse h, fun hunmatched => ?_, fun files flags => ?_⟩
  · refine exists_eq_error_iff.2 ?_
    rintro ⟨op, h⟩
    exact hunmatched (Operation.bracketsMatch_of_parse h)
  · cases hplan : flags.plan files with
    | error e =>
      refine .inr ⟨e, fun random dice samples load => ?_⟩
      -- none of what is changed is looked at by `Flags.plan`
      have hsame : Flags.plan { flags with dice := dice, samples := samples, load := load } files = .error e := hplan
      simp only [Report.ofRun, hsame]
    | ok plan =>
      obtain ⟨registry, hregistry, hoperation⟩ := Flags.accepted_of_plan hplan
      refine .inl ⟨plan, rfl, Operation.bracketsMatch_of_parse hoperation, fun d hd => ?_⟩
      obtain ⟨op, hop⟩ := Definition.parse_of_mem_registerAll hregistry hd
      exact Operation.bracketsMatch_of_parse (mapError_eq_ok_iff.1 hop)

theorem refused_of_unmatched_condition :
    (∃ op, Operation.parse ⟨.empty, ⟨true, true⟩⟩ ["add 1 if [ not eq 1]", "else [ add 2 ]"] = .ok op) ∧
    BracketsMatch (Token.normalize ["add 1 if [ not eq 1]", "else [ add 2 ]"]) ∧
    ∃ e, Operation.parse ⟨.empty, ⟨true, true⟩⟩ ["add 1 if [ not eq 1", "else [ add 2 ]"] = .error e := by
  have hok : (Operation.parse ⟨.empty, ⟨true, true⟩⟩ ["add 1 if [ not eq 1]", "else [ add 2 ]"]).isOk = true := by cbv
  have hlost : ¬BracketsMatch (Token.normalize ["add 1 if [ not eq 1", "else [ add 2 ]"]) := by
    intro h
    have hcount := h.closed
    revert hcount
    decide
  cases h : Operation.parse ⟨.empty, ⟨true, true⟩⟩ ["add 1 if [ not eq 1]", "else [ add 2 ]"] with
  | error e =>
    rw [h] at hok
    cases hok
  | ok op => exact ⟨⟨op, rfl⟩, (refused_of_unmatched _ _).1 op h, (refused_of_unmatched _ _).2.1 hlost⟩

end DiceTally
