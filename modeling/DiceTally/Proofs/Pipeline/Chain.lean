import DiceTally.Proofs.Operation.Lengths
import DiceTally.Proofs.Operation.Sessions
import DiceTally.Proofs.Pipeline.Composition
import DiceTally.Proofs.Pipeline.Extension

/-!
# Chains of branches

A chain is written `b if c else b' if c' else ...`, with a last `else` branch or without one.  The branch behind an
`else` is itself a guarded operation, so a chain is read from its first link inwards: each link keeps its condition,
and all that follows its `else`, up to a `then`, is the other branch.  The dice are merged from the inside outwards,
so that every position ends up with the first branch whose condition holds there (`Chain.eval_op`), whatever is read
after the chain (`chain_picks_first`).
-/

namespace DiceTally

/-! ### Merging -/

namespace Condition

/-- Whether a condition is decided for a die, and holds. -/
def holdsAt (c : Condition) (value : Value) (position : Nat) : Bool :=
  match c.eval value position with
  | .ok holds => holds
  | .error _ => false

theorem eval_of_decided {c : Condition} {value : Value} {position : Nat}
    (h : ∃ holds, c.eval value position = .ok holds) : c.eval value position = .ok (c.holdsAt value position) := by
  obtain ⟨holds, h⟩ := h
  rw [holdsAt, h]

end Condition

theorem mergeFrom_of_decided {condition : Condition} {position : Nat} {dice taken fallback : Tuple}
    (hdecided : ∀ i x, dice[i]? = some x → ∃ holds, condition.eval x (position + i) = .ok holds)
    (htaken : taken.length = dice.length) (hfallback : fallback.length = dice.length) :
    ∃ merged, mergeFrom condition position dice taken fallback = .ok merged ∧ ∀ i x, dice[i]? = some x →
      merged[i]? = (if condition.holdsAt x (position + i) then taken else fallback)[i]? := by
  induction dice generalizing position taken fallback with
  | nil =>
    obtain rfl := List.eq_nil_of_length_eq_zero htaken
    exact ⟨[], rfl, fun i x hx => by simp at hx⟩
  | cons value dice ih =>
    obtain ⟨t, taken, rfl⟩ := List.exists_cons_of_length_eq_add_one htaken
    obtain ⟨f, fallback, rfl⟩ := List.exists_cons_of_length_eq_add_one hfallback
    have hfirst : condition.eval value position = .ok (condition.holdsAt value position) :=
      Condition.eval_of_decided (hdecided 0 value rfl)
    have hlater : ∀ i x, dice[i]? = some x → ∃ holds, condition.eval x (position + 1 + i) = .ok holds := by
      intro i x hx
      rw [Nat.add_right_comm]
      exact hdecided (i + 1) x hx
    obtain ⟨rest, hrest, hpicked⟩ := ih hlater (Nat.succ.inj htaken) (Nat.succ.inj hfallback)
    refine ⟨(if condition.holdsAt value position then t else f) :: rest, ?_, fun i x hx => ?_⟩
    · rw [mergeFrom, hfirst]
      refine bind_eq_ok_iff.2 ⟨_, rfl, ?_⟩
      rw [hrest]
      rfl
    · cases i with
      | zero =>
        obtain rfl : value = x := by simpa using hx
        rw [Nat.add_zero]
        split <;> rfl
      | succ i =>
        have hi := hpicked i x hx
        rw [Nat.add_right_comm, Nat.add_assoc] at hi
        rw [List.getElem?_cons_succ, hi]
        split <;> rfl

/-- Where a condition is decided for every die, the branches are merged position by position. -/
theorem merge_of_decided {condition : Condition} {dice taken fallback : Tuple}
    (hdecided : ∀ i x, dice[i]? = some x → ∃ holds, condition.eval x i = .ok holds)
    (htaken : taken.length = dice.length) (hfallback : fallback.length = dice.length) :
    ∃ merged, merge condition dice taken fallback = .ok merged ∧ merged.length = dice.length ∧
      ∀ i x, dice[i]? = some x → merged[i]? = (if condition.holdsAt x i then taken else fallback)[i]? := by
  have hfirst : ∀ i x, dice[i]? = some x → ∃ holds, condition.eval x (0 + i) = .ok holds := by simpa using hdecided
  obtain ⟨merged, hmerged, hpicked⟩ := mergeFrom_of_decided hfirst htaken hfallback
  refine ⟨merged, ?_, length_of_mergeFrom htaken hfallback hmerged, by simpa using hpicked⟩
  rw [merge, if_neg (by simp [htaken, hfallback]), hmerged]

/-! ### What is written -/

/-- A branch as it is written, and what it is read as. -/
structure Branch where
  tokens : List String
  op : Operation

/-- A branch is an operation with its parameters, or a pipeline between brackets. -/
def Branch.Accepted (language : Language) (b : Branch) : Prop :=
  (∃ name params, b.tokens = name :: params ∧ name ∈ Token.branchable ∧ Operation.ofWords name params = .ok b.op) ∨
    ∃ words, b.tokens = "[" :: Token.normalize words ++ ["]"] ∧ Operation.parse language words = .ok b.op

/-- A branch and its condition. -/
structure Link where
  branch : Branch
  /-- the tokens of the condition -/
  tokens : List String
  condition : Condition

namespace Link

structure Accepted (language : Language) (link : Link) : Prop where
  branch : link.branch.Accepted language
  condition : Condition.parse link.tokens = .ok link.condition

/-- A link with the branch behind its `else`, if there is one. -/
def guarded (link : Link) (other : Option Branch) : Branch where
  tokens := link.branch.tokens ++ "if" :: link.tokens ++
    match other with
    | none => []
    | some b => "else" :: b.tokens
  op := .conditional link.condition link.branch.op
    (match other with
    | none => .primitive .identity
    | some b => b.op)

end Link

/-- Links joined by `else`, the last one with a final branch or without one. -/
inductive Chain where
  | last (link : Link) (final : Option Branch)
  | more (link : Link) (rest : Chain)

namespace Chain

def links : Chain → List Link
  | last link _ => [link]
  | more link rest => link :: rest.links

def final : Chain → Option Branch
  | last _ final => final
  | more _ rest => rest.final

/-- All that is written, read as one guarded operation in another. -/
def branch : Chain → Branch
  | last link final => link.guarded final
  | more link rest => link.guarded (some rest.branch)

structure Accepted (language : Language) (chain : Chain) : Prop where
  links : ∀ link ∈ chain.links, link.Accepted language
  final : ∀ b ∈ chain.final, b.Accepted language

/-! ### What is picked -/

/-- All branches have a value for every die, and all conditions are decided for every die. -/
structure ResultsOn (chain : Chain) (dice : Tuple) (values : Branch → Tuple) : Prop where
  branches : ∀ link ∈ chain.links, link.branch.op.eval dice = .ok (values link.branch) ∧
    (values link.branch).length = dice.length
  final : ∀ b ∈ chain.final, b.op.eval dice = .ok (values b) ∧ (values b).length = dice.length
  conditions : ∀ link ∈ chain.links, ∀ i x, dice[i]? = some x → ∃ holds, link.condition.eval x i = .ok holds

/-- The tuple that a die at a position has its value from: that of the first branch whose condition holds, else that
of the final branch, else the dice themselves. -/
def source (chain : Chain) (dice : Tuple) (values : Branch → Tuple) (x : Value) (i : Nat) : Tuple :=
  match chain.links.find? fun link => link.condition.holdsAt x i with
  | some link => values link.branch
  | none =>
    match chain.final with
    | some b => values b
    | none => dice

/-- Every position has the value of its source. -/
structure Picks (chain : Chain) (dice : Tuple) (values : Branch → Tuple) (merged : Tuple) : Prop where
  length : merged.length = dice.length
  at_position : ∀ i x, dice[i]? = some x → merged[i]? = (chain.source dice values x i)[i]?

theorem ResultsOn.rest {link : Link} {rest : Chain} {dice : Tuple} {values : Branch → Tuple}
    (h : (more link rest).ResultsOn dice values) : rest.ResultsOn dice values where
  branches := fun l hl => h.branches l (List.mem_cons_of_mem link hl)
  final := h.final
  conditions := fun l hl => h.conditions l (List.mem_cons_of_mem link hl)

theorem source_last (link : Link) (final : Option Branch) (dice : Tuple) (values : Branch → Tuple) (x : Value)
    (i : Nat) : (last link final).source dice values x i =
      if link.condition.holdsAt x i then values link.branch
      else match final with | some b => values b | none => dice := by
  cases h : link.condition.holdsAt x i <;> simp [source, links, Chain.final, h]

theorem source_more (link : Link) (rest : Chain) (dice : Tuple) (values : Branch → Tuple) (x : Value) (i : Nat) :
    (more link rest).source dice values x i =
      if link.condition.holdsAt x i then values link.branch else rest.source dice values x i := by
  cases h : link.condition.holdsAt x i <;> simp [source, links, Chain.final, h]

/-- A link and what stands behind its `else` are merged, if this is where the sources of the chain are. -/
theorem ResultsOn.eval_conditional {chain : Chain} {dice : Tuple} {values : Branch → Tuple}
    (h : chain.ResultsOn dice values) {link : Link} (hlink : link ∈ chain.links) {other : Operation} {fallback : Tuple}
    (hother : other.eval dice = .ok fallback) (hlength : fallback.length = dice.length)
    (hsource : ∀ i x, dice[i]? = some x → (chain.source dice values x i)[i]? =
      (if link.condition.holdsAt x i then values link.branch else fallback)[i]?) :
    ∃ merged, (Operation.conditional link.condition link.branch.op other).eval dice = .ok merged ∧
      chain.Picks dice values merged := by
  obtain ⟨hvalues, hsame⟩ := h.branches link hlink
  obtain ⟨merged, hmerged, hmergedLength, hpicked⟩ := merge_of_decided (h.conditions link hlink) hsame hlength
  refine ⟨merged, ?_, hmergedLength, fun i x hx => ?_⟩
  · simp only [Operation.eval, hvalues, hother]
    exact hmerged
  · rw [hpicked i x hx, hsource i x hx]

/-- A chain gives every position the value of the first branch whose condition holds. -/
theorem eval_op {chain : Chain} {dice : Tuple} {values : Branch → Tuple} (h : chain.ResultsOn dice values) :
    ∃ merged, chain.branch.op.eval dice = .ok merged ∧ chain.Picks dice values merged := by
  induction chain with
  | last link final =>
    cases final with
    | none =>
      have hidentity : (Operation.primitive .identity).eval dice = .ok dice := rfl
      exact h.eval_conditional List.mem_cons_self hidentity rfl fun i x _ => by rw [source_last]
    | some b =>
      obtain ⟨hvalues, hlength⟩ := h.final b rfl
      exact h.eval_conditional List.mem_cons_self hvalues hlength fun i x _ => by rw [source_last]
  | more link rest ih =>
    obtain ⟨inner, hinner, hpicks⟩ := ih h.rest
    refine h.eval_conditional List.mem_cons_self hinner hpicks.length fun i x hx => ?_
    rw [source_more]
    split
    · rfl
    · exact (hpicks.at_position i x hx).symm

end Chain

/-! ### What is read -/

namespace Operation

variable {registry : Registry} {options : ParseOptions}

/-- The outline of a pipeline is the same at any level. -/
theorem readPipeline_outline (top top' : Bool) (tokens : List String) :
    readPipeline ⟨registry, .outline⟩ top tokens = readPipeline ⟨registry, .outline⟩ top' tokens := by
  cases hcut : Cut.ofTokens registry tokens with
  | error e =>
    have hthrows (top : Bool) := @readPipeline_error ⟨registry, .outline⟩ top tokens e hcut
    rw [hthrows, hthrows]
  | ok cut =>
    have hreads (top : Bool) := @readPipeline_ok ⟨registry, .outline⟩ top tokens cut hcut
    rw [hreads top, hreads top']
    rfl

/-- What is read at one level of a pipeline is read at any other, with the caches numbered from any number on. -/
theorem exists_reads_level {top : Bool} {tokens : List String} {n k : Nat} {op : Operation}
    (h : Reads ⟨registry, options⟩ (.pipeline top tokens) n op k) (top' : Bool) (m : Nat) :
    ∃ op' l, Reads ⟨registry, options⟩ (.pipeline top' tokens) m op' l ∧ op'.eval = op.eval := by
  obtain ⟨validate, memoize⟩ := options
  have hrun := h.run
  rw [Part.reading, run_readPipeline registry _ top tokens n 0] at hrun
  obtain ⟨⟨outline, j⟩, houtline, hop⟩ := map_eq_ok_iff.1 hrun
  obtain rfl : (outline.wrapLevels ⟨validate, memoize⟩ top n).1 = op := congrArg Prod.fst hop
  have hlevel : (readPipeline ⟨registry, ⟨validate, memoize⟩⟩ top' tokens).run m =
      .ok (outline.wrapLevels ⟨validate, memoize⟩ top' m) := by
    rw [run_readPipeline registry _ top' tokens m 0, readPipeline_outline top' top, houtline]
    rfl
  exact ⟨_, _, reads_iff_run.2 hlevel,
    funext fun dice => eval_wrapLevels validate memoize memoize top' top outline m n dice⟩

/-- A validated level names a stage in all its failures. -/
theorem isStage_of_reads {memoize top : Bool} {tokens : List String} {n k : Nat} {op : Operation}
    (h : Reads ⟨registry, ⟨true, memoize⟩⟩ (.pipeline top tokens) n op k) {dice : Tuple} {e : EvalError}
    (he : op.eval dice = .error e) : e.isStage = true := by
  have hlevel : ∃ level slot, op = (wrapped ⟨true, memoize⟩ top level slot).1 := by
    cases h with
    | last => exact ⟨_, _, rfl⟩
    | andThen => exact ⟨_, _, rfl⟩
  obtain ⟨level, slot, rfl⟩ := hlevel
  rw [eval_wrapped, if_pos rfl] at he
  cases hinner : level.eval dice with
  | ok result =>
    rw [hinner] at he
    cases he
  | error inner =>
    rw [hinner] at he
    cases he
    unfold EvalError.within
    split
    · assumption
    · rfl

end Operation

open Operation

section Reading

variable {registry : Registry} (hregistry : registry.Built) {options : ParseOptions}

/-- Tokens that can stand behind `else`, and are read there as the operation. -/
structure Branch.Readable (language : Language) (b : Branch) : Prop where
  starts : ∃ first rest, b.tokens = first :: rest ∧ Operation.startsBranch first = true
  passes : Passes Guard.endsBranch b.tokens
  reads : ∀ n, ∃ op k, Reads language (.pipeline false b.tokens) n op k ∧ op.SameResults b.op

namespace Branch

variable {b : Branch} {after rest : List String}

theorem Accepted.starts {language : Language} (h : b.Accepted language) :
    ∃ first rest, b.tokens = first :: rest ∧ Operation.startsBranch first = true := by
  rcases h with ⟨name, params, htokens, hname, -⟩ | ⟨words, htokens, -⟩
  · exact ⟨name, params, htokens, by simp [Operation.startsBranch, hname]⟩
  · exact ⟨"[", _, htokens, by decide⟩

theorem Accepted.passes {language : Language} (h : b.Accepted language) : Passes Guard.endsBranch b.tokens := by
  rcases h with ⟨name, params, htokens, hname, hop⟩ | ⟨words, htokens, hparse⟩
  · have hnames : ∀ w ∈ Token.branchable, Token.isBracket w = false ∧ Guard.endsBranch w = false := by decide
    obtain ⟨hbracket, hends⟩ := hnames name hname
    -- a parameter stays one with no names registered, so it is neither a bracket nor `then`
    have hparam : ∀ p ∈ params, Token.isBracket p = false ∧ Token.isLogic p = false := fun p hp => by
      have hstop := (isParameter_of_ofWords hop hp).stopsParams .empty
      simp only [stopsParams, Bool.or_eq_false_iff] at hstop
      exact ⟨hstop.1.2, hstop.1.1.2⟩
    rw [htokens]
    refine .of_balanced ((Balanced.of_words fun p hp => (hparam p hp).1).cons hbracket) fun t ht => ?_
    rcases List.mem_cons.1 ht with rfl | ht
    · exact hends
    · have hlogic := (hparam t ht).2
      simp only [Token.isLogic, Bool.or_eq_false_iff] at hlogic
      exact hlogic.2
  · rw [htokens]
    exact .brackets (balanced_of_parse hparse)

include hregistry in
/-- A branch in front of an `if` block, or of what no block belongs to, is read before the block. -/
theorem Accepted.stage (h : b.Accepted ⟨registry, options⟩) {guard : Option Guard}
    (hsplit : splitGuard after = (guard, rest)) (hends : EndsParams registry after) (n : Nat) :
    ∃ cut op m, Cut.ofTokens registry (b.tokens ++ after) = .ok cut ∧ cut.after = rest ∧ op.SameResults b.op ∧
      ∀ whole k, Reads ⟨registry, options⟩ (.guarded op guard) m whole k →
        Reads ⟨registry, options⟩ (.stage cut) n whole k := by
  rcases h with ⟨name, params, htokens, hname, hop⟩ | ⟨words, htokens, hparse⟩
  · have hnames : ∀ w ∈ Token.branchable, Token.isBracket w = false ∧ Token.isLogic w = false ∧
        w ≠ "slice-apply" ∧ w ≠ "reroll" ∧ Token.isReserved w = true ∧ Token.guardable.contains w = true := by decide
    obtain ⟨hbracket, hlogic, hslices, hreroll, hreserved, hguardable⟩ := hnames name hname
    have hcut := Cut.ofTokens_word registry hbracket hlogic params
      (fun p hp => (isParameter_of_ofWords hop hp).stopsParams hregistry) hends
    rw [if_neg hslices, hsplit] at hcut
    refine ⟨_, b.op, n, by rw [htokens, hcut], rfl, .refl _, fun whole k hwhole => ?_⟩
    exact .builtIn (get?_of_isReserved hregistry hreserved) hreroll hop (fun _ => hguardable) hwhole
  · obtain ⟨k, hreads⟩ := parse_eq_ok_iff.1 hparse
    obtain ⟨head, tail, hhead, -⟩ := startsStage_of_reads hreads
    obtain ⟨inner, m, hinner, heval⟩ := exists_reads_level hreads false n
    have hcut := Cut.ofTokens_group registry (balanced_of_parse hparse) (by simp [hhead]) after
    rw [hsplit] at hcut
    refine ⟨_, inner, m, ?_, rfl, fun dice result => by rw [heval], fun whole k hwhole => .group hinner hwhole⟩
    rw [htokens, List.append_assoc, List.singleton_append, hcut]

include hregistry in
theorem Accepted.readable (h : b.Accepted ⟨registry, options⟩) : b.Readable ⟨registry, options⟩ where
  starts := h.starts
  passes := h.passes
  reads := fun n => by
    have hnoGuard : splitGuard [] = (none, []) := rfl
    obtain ⟨cut, op, m, hcut, hafter, hsame, hstage⟩ := h.stage hregistry hnoGuard (fun t ht => by cases ht) n
    rw [List.append_nil] at hcut
    exact ⟨_, _, .last hcut (hstage op m .unguarded) hafter,
      SameResults.trans (eval_wrapped_eq_ok_iff options false op m) hsame⟩

end Branch

namespace Link

variable {link : Link} {other : Option Branch}

theorem Accepted.passes {language : Language} (h : link.Accepted language)
    (hother : ∀ b ∈ other, b.Readable language) : Passes Guard.endsBranch (link.guarded other).tokens := by
  have hblock : Passes Guard.endsBranch ("if" :: link.tokens) :=
    (Passes.word (by decide) (by decide)).append (passes_condition h.condition).2
  have hlink := h.branch.passes.append hblock
  cases other with
  | none => exact hlink.append fun rest => rfl
  | some b => exact hlink.append ((Passes.word (by decide) (by decide)).append (hother b rfl).passes)

include hregistry in
/-- A link with its `else` branch is one stage. -/
theorem Accepted.stage (h : link.Accepted ⟨registry, options⟩)
    (hother : ∀ b ∈ other, b.Readable ⟨registry, options⟩) {after rest : List String}
    (hclose : Closes registry true after rest) (n : Nat) :
    ∃ cut op k, Cut.ofTokens registry ((link.guarded other).tokens ++ after) = .ok cut ∧ cut.after = rest ∧
      Reads ⟨registry, options⟩ (.stage cut) n op k ∧ op.SameResults (link.guarded other).op := by
  have hcondition := (passes_condition h.condition).1
  have hif : ∀ tokens, EndsParams registry ("if" :: tokens) := .of_isLogic (by decide) registry
  cases other with
  | none =>
    obtain ⟨cut, op, m, hcut, hafter, hsame, hstage⟩ :=
      h.branch.stage hregistry (hclose.splitGuard_if hcondition) (hif _) n
    refine ⟨cut, _, m, ?_, hafter, hstage _ m (.guarded h.condition), hsame.conditional _ (.refl _)⟩
    simpa [guarded] using hcut
  | some b =>
    obtain ⟨hstarts, hpasses, hreads⟩ := hother b rfl
    obtain ⟨cut, op, m, hcut, hafter, hsame, hstage⟩ :=
      h.branch.stage hregistry (hclose.splitGuard_else hcondition hpasses) (hif _) n
    obtain ⟨otherwise, k, hotherwise, hsameOther⟩ := hreads m
    obtain ⟨first, tail, htokens, hfirst⟩ := hstarts
    have hbranch : Reads ⟨registry, options⟩ (.branch b.tokens) m otherwise k := by
      rw [htokens] at hotherwise ⊢
      exact .branch hfirst hotherwise
    refine ⟨cut, _, k, ?_, hafter, hstage _ k (.branched h.condition hbranch), hsame.conditional _ hsameOther⟩
    simpa [guarded] using hcut

include hregistry in
theorem Accepted.readable (h : link.Accepted ⟨registry, options⟩)
    (hother : ∀ b ∈ other, b.Readable ⟨registry, options⟩) : (link.guarded other).Readable ⟨registry, options⟩ where
  starts := by
    obtain ⟨first, rest, htokens, hfirst⟩ := h.branch.starts
    exact ⟨first, _, by simp only [guarded, htokens, List.cons_append]; rfl, hfirst⟩
  passes := h.passes hother
  reads := fun n => by
    obtain ⟨cut, op, k, hcut, hafter, hstage, hsame⟩ := h.stage hregistry hother .nothing n
    rw [List.append_nil] at hcut
    exact ⟨_, _, .last hcut hstage hafter, SameResults.trans (eval_wrapped_eq_ok_iff options false op k) hsame⟩

end Link

namespace Chain

theorem Accepted.rest {language : Language} {link : Link} {rest : Chain} (h : (more link rest).Accepted language) :
    rest.Accepted language where
  links := fun l hl => h.links l (List.mem_cons_of_mem link hl)
  final := h.final

include hregistry in
theorem Accepted.readable {chain : Chain} (h : chain.Accepted ⟨registry, options⟩) :
    chain.branch.Readable ⟨registry, options⟩ := by
  induction chain with
  | last link final =>
    exact (h.links link List.mem_cons_self).readable hregistry fun b hb => (h.final b hb).readable hregistry
  | more link rest ih =>
    refine (h.links link List.mem_cons_self).readable hregistry fun b hb => ?_
    cases hb
    exact ih h.rest

include hregistry in
/-- A chain is one stage, which ends where its last branch ends. -/
theorem Accepted.stage {chain : Chain} (h : chain.Accepted ⟨registry, options⟩) {after rest : List String}
    (hclose : Closes registry true after rest) (n : Nat) :
    ∃ cut op k, Cut.ofTokens registry (chain.branch.tokens ++ after) = .ok cut ∧ cut.after = rest ∧
      Reads ⟨registry, options⟩ (.stage cut) n op k ∧ op.SameResults chain.branch.op := by
  cases chain with
  | last link final =>
    exact (h.links link List.mem_cons_self).stage hregistry (fun b hb => (h.final b hb).readable hregistry) hclose n
  | more link rest =>
    refine (h.links link List.mem_cons_self).stage hregistry (fun b hb => ?_) hclose n
    cases hb
    exact h.rest.readable hregistry

end Chain

end Reading

/-! ### Whole pipelines -/

section Answers

variable {registry : Registry} (hregistry : registry.Built) {options : ParseOptions} {chain : Chain}

include hregistry

/-- A chain that nothing follows is a pipeline of its own. -/
theorem Chain.Accepted.exists_parse (h : chain.Accepted ⟨registry, options⟩) {words : List String}
    (hwords : Token.normalize words = chain.branch.tokens) :
    ∃ read, parse ⟨registry, options⟩ words = .ok read ∧ read.SameResults chain.branch.op := by
  obtain ⟨cut, op, k, hcut, hafter, hstage, hsame⟩ := h.stage hregistry .nothing 0
  rw [List.append_nil, ← hwords] at hcut
  exact ⟨_, parse_eq_ok_iff.2 ⟨_, .last hcut hstage hafter⟩,
    SameResults.trans (eval_wrapped_eq_ok_iff options true op k) hsame⟩

/-- Behind `then` a pipeline goes on from the results of the chain; its failures are not located anew. -/
theorem Chain.Accepted.exists_parse_then (h : chain.Accepted ⟨registry, options⟩) {words words' : List String}
    {next : Operation} (hnext : parse ⟨registry, options⟩ words' = .ok next)
    (hwords : Token.normalize words = chain.branch.tokens ++ "then" :: Token.normalize words') :
    ∃ read, parse ⟨registry, options⟩ words = .ok read ∧ ∀ dice merged,
      chain.branch.op.eval dice = .ok merged → read.eval dice = next.eval merged := by
  obtain ⟨_, hreadsNext⟩ := parse_eq_ok_iff.1 hnext
  obtain ⟨head, tail, hhead, hstarts⟩ := startsStage_of_reads hreadsNext
  have hclose : Closes registry true ("then" :: Token.normalize words') (Token.normalize words') := by
    rw [hhead]
    exact .next hstarts
  obtain ⟨cut, op, k, hcut, hafter, hstage, hsame⟩ := h.stage hregistry hclose 0
  rw [← hwords] at hcut
  obtain ⟨next', l, hnext', heval⟩ := exists_reads_level hreadsNext false k
  rw [← hafter] at hnext'
  refine ⟨_, parse_eq_ok_iff.2 ⟨_, .andThen hcut hstage (by simp [hafter, hhead]) hnext'⟩, fun dice merged hmerged => ?_⟩
  have hboth : (Operation.andThen op next').eval dice = next.eval merged := by
    simp only [eval, (hsame dice merged).2 hmerged]
    exact congrFun heval merged
  obtain ⟨validate, memoize⟩ := options
  rw [eval_wrapped, hboth]
  cases validate with
  | false => rfl
  | true =>
    cases hresult : next.eval merged with
    | ok result => rfl
    | error e =>
      have hlocated := isStage_of_reads hreadsNext hresult
      simp [Except.mapError, EvalError.within, hlocated]

/-- Every chain of accepted branches and conditions is accepted, alone or in front of `then` and an accepted
pipeline.  Where all branches keep the number of dice and all conditions are decided, each position has the value of
the first branch whose condition holds there; this tuple is the answer, or is what the further pipeline is applied
to. -/
theorem chain_picks_first (h : chain.Accepted ⟨registry, options⟩) :
    (∀ words, Token.normalize words = chain.branch.tokens →
      ∃ read, parse ⟨registry, options⟩ words = .ok read ∧
        ∀ dice values, chain.ResultsOn dice values → ∃ merged, chain.Picks dice values merged ∧
          ∀ capacity earlier, read.answer capacity earlier dice = .ok merged) ∧
    ∀ words words' next, parse ⟨registry, options⟩ words' = .ok next →
      Token.normalize words = chain.branch.tokens ++ "then" :: Token.normalize words' →
      ∃ read, parse ⟨registry, options⟩ words = .ok read ∧
        ∀ dice values, chain.ResultsOn dice values → ∃ merged, chain.Picks dice values merged ∧
          ∀ capacity capacity' earlier earlier',
            read.answer capacity earlier dice = next.answer capacity' earlier' merged := by
  constructor
  · intro words hwords
    obtain ⟨read, hread, hsame⟩ := h.exists_parse hregistry hwords
    refine ⟨read, hread, fun dice values hresults => ?_⟩
    obtain ⟨merged, hmerged, hpicks⟩ := Chain.eval_op hresults
    refine ⟨merged, hpicks, fun capacity earlier => ?_⟩
    rw [answer_eq hregistry hread]
    exact (hsame dice merged).2 hmerged
  · intro words words' next hnext hwords
    obtain ⟨read, hread, heval⟩ := h.exists_parse_then hregistry hnext hwords
    refine ⟨read, hread, fun dice values hresults => ?_⟩
    obtain ⟨merged, hmerged, hpicks⟩ := Chain.eval_op hresults
    refine ⟨merged, hpicks, fun capacity capacity' earlier earlier' => ?_⟩
    rw [answer_eq hregistry hread, answer_eq hregistry hnext]
    exact heval dice merged hmerged

end Answers

/-- `add 1 if le 2 else [ turn set-to 9 ] if eq 3 else bound 0 4` -/
def threeWay : Chain :=
  .more ⟨⟨["add", "1"], .primitive (.add [1])⟩, ["le", "2"], .compare .le [2]⟩
    (.last ⟨⟨["[", "turn", "set-to", "9", "]"],
        .andThen (.native "turn" [] fun dice _ => .ok dice.reverse) (.memoized 0 (.primitive (.setTo [9])))⟩,
        ["eq", "3"], .compare .eq [3]⟩
      (some ⟨["bound", "0", "4"], .primitive (.bound [(0, 4)])⟩))

theorem chain_picks_first_threeWay :
    threeWay.Accepted ⟨sessionRegistry, ⟨false, true⟩⟩ ∧
    threeWay.ResultsOn [1, 3, 5] (fun b => (b.op.eval [1, 3, 5]).toOption.getD []) ∧
    ∃ read next, parse ⟨sessionRegistry, ⟨false, true⟩⟩ ["sum"] = .ok next ∧
      parse ⟨sessionRegistry, ⟨false, true⟩⟩
        ["add 1 if le 2 else [turn set-to 9] if eq 3", "else bound 0 4 then sum"] = .ok read ∧
      ∃ merged, threeWay.Picks [1, 3, 5] (fun b => (b.op.eval [1, 3, 5]).toOption.getD []) merged ∧
        ∀ capacity capacity' earlier earlier',
          read.answer capacity earlier [1, 3, 5] = next.answer capacity' earlier' merged := by
  have haccepted : threeWay.Accepted ⟨sessionRegistry, ⟨false, true⟩⟩ := by
    constructor
    · intro link hlink
      simp only [threeWay, Chain.links, List.mem_cons, List.not_mem_nil, or_false] at hlink
      rcases hlink with rfl | rfl
      · exact ⟨.inl ⟨"add", ["1"], rfl, by decide, by cbv⟩, by cbv⟩
      · exact ⟨.inr ⟨["turn set-to 9"], by cbv, by cbv⟩, by cbv⟩
    · intro b hb
      cases hb
      exact .inl ⟨"bound", ["0", "4"], rfl, by decide, by cbv⟩
  have hresults : threeWay.ResultsOn [1, 3, 5] (fun b => (b.op.eval [1, 3, 5]).toOption.getD []) := by
    constructor
    · intro link hlink
      simp only [threeWay, Chain.links, List.mem_cons, List.not_mem_nil, or_false] at hlink
      rcases hlink with rfl | rfl
      · exact ⟨by cbv, by cbv⟩
      · exact ⟨by cbv, by cbv⟩
    · intro b hb
      cases hb
      exact ⟨by cbv, by cbv⟩
    · intro link hlink i x _
      simp only [threeWay, Chain.links, List.mem_cons, List.not_mem_nil, or_false] at hlink
      rcases hlink with rfl | rfl
      · exact ⟨_, rfl⟩
      · exact ⟨_, rfl⟩
  have hnext : parse ⟨sessionRegistry, ⟨false, true⟩⟩ ["sum"] = .ok (.primitive (.reduce .sum)) := by cbv
  obtain ⟨read, hread, hanswers⟩ := (chain_picks_first built_sessionRegistry haccepted).2
    ["add 1 if le 2 else [turn set-to 9] if eq 3", "else bound 0 4 then sum"] ["sum"] _ hnext (by cbv)
  exact ⟨haccepted, hresults, read, _, hnext, hread, hanswers [1, 3, 5] _ hresults⟩

example : (parse ⟨sessionRegistry, ⟨false, true⟩⟩
    ["add 1 if le 2 else [turn set-to 9] if eq 3", "else bound 0 4 then sum"]).toOption.map
      (fun op => (op.apply [1, 3, 5] (.new op none)).1) = some (.ok [15]) := by cbv

end DiceTally
