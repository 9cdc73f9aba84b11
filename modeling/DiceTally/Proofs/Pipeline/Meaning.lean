import DiceTally.Operation.Eval
import DiceTally.Proofs.Operation.Words
import DiceTally.Proofs.Pipeline.Balance

/-!
# What tokens mean

Tokens mean an operation if they are read as one with the same results; nothing is wrapped here.  One lemma for
each form of a stage says what a stage means that is followed by the end or by the next stage (`Closes`), and the
meanings of stages are put together by `Means.last` and `Means.andThen`.
-/

namespace DiceTally

/-- The options under which nothing is wrapped. -/
def ParseOptions.plain : ParseOptions := ⟨false, false⟩

/-- The words that a stage can begin with. -/
def StartsStage (registry : Registry) (t : String) : Prop :=
  t = "[" ∨ Token.isOperation t = true ∨ registry.contains t = true

namespace Operation

variable {registry : Registry}

theorem isOperation_of_ofWords {name : String} {params : List String} {op : Operation}
    (h : ofWords name params = .ok op) : Token.isOperation name = true := by
  unfold ofWords at h
  split at h
  · rename_i step hstep
    unfold Primitive.plain? at hstep
    split at hstep
    · decide
    · decide
    · obtain ⟨reduction, hreduction, -⟩ := Option.map_eq_some_iff.1 hstep
      have hname := List.find?_some hreduction
      rw [← eq_of_beq hname]
      cases reduction <;> decide
  · split at h
    all_goals first
      | decide
      | cases h

/-- What is read as a pipeline begins with a word that begins a stage. -/
theorem startsStage_of_reads {language : Language} {top : Bool} {tokens : List String} {op : Operation} {n k : Nat}
    (h : Reads language (.pipeline top tokens) n op k) :
    ∃ head tail, tokens = head :: tail ∧ StartsStage language.registry head := by
  have hstage : ∃ cut current k, Cut.ofTokens language.registry tokens = .ok cut ∧
      Reads language (.stage cut) n current k := by
    cases h with
    | last hcut hcurrent => exact ⟨_, _, _, hcut, hcurrent⟩
    | andThen hcut hcurrent => exact ⟨_, _, _, hcut, hcurrent⟩
  obtain ⟨cut, current, k, hcut, hcurrent⟩ := hstage
  rcases Cut.ofTokens_cases hcut with ⟨body, after, rfl, -, -⟩ | ⟨head, params, after, rfl, -, -, hcases⟩
  · exact ⟨_, _, rfl, .inl rfl⟩
  · refine ⟨_, _, rfl, .inr ?_⟩
    rcases hcases with ⟨rfl, -⟩ | rfl
    · exact .inl (by decide)
    · generalize (splitGuard after).1 = guard at hcurrent
      cases hcurrent with
      | registered hget => exact .inr (Registry.contains_eq_true_iff.2 ⟨_, hget⟩)
      | reroll => exact .inl (by decide)
      | rerollIf => exact .inl (by decide)
      | builtIn _ _ hbuilt => exact .inl (isOperation_of_ofWords hbuilt)

end Operation

theorem StartsStage.stopsParams {registry : Registry} {t : String} (h : StartsStage registry t) :
    stopsParams registry t = true := by
  rcases h with rfl | h | h
  · have hbracket : Token.isBracket "[" = true := by decide
    simp [DiceTally.stopsParams, hbracket]
  · simp [DiceTally.stopsParams, h]
  · simp [DiceTally.stopsParams, h]

theorem StartsStage.ne_if {registry : Registry} (hregistry : registry.Built) {t : String}
    (h : StartsStage registry t) : t ≠ "if" := by
  rintro rfl
  rcases h with h | h | h
  · exact absurd h (by decide)
  · exact absurd h (by decide)
  · rw [contains_of_isReserved hregistry (by decide)] at h
    cases h

/-- What is written after a stage so that `rest` is read after it: nothing, or the next stage, with `then` in front
if the stage would go on otherwise. -/
inductive Closes (registry : Registry) (openEnded : Bool) : List String → List String → Prop where
  | nothing : Closes registry openEnded [] []
  | next {head : String} {tail : List String} (h : StartsStage registry head) :
    Closes registry openEnded ((if openEnded then ["then"] else []) ++ head :: tail) (head :: tail)

/-- The tokens begin with one that ends a list of parameters, or there are none. -/
def EndsParams (registry : Registry) (tokens : List String) : Prop :=
  ∀ t ∈ tokens.head?, stopsParams registry t = true

theorem EndsParams.of_isLogic {t : String} (h : Token.isLogic t = true) (registry : Registry) (ts : List String) :
    EndsParams registry (t :: ts) := by
  intro u hu
  cases hu
  simp [stopsParams, h]

theorem EndsParams.of_startsStage {registry : Registry} {t : String} (h : StartsStage registry t) (ts : List String) :
    EndsParams registry (t :: ts) := by
  intro u hu
  cases hu
  exact h.stopsParams

theorem Closes.endsParams {registry : Registry} {openEnded : Bool} {after rest : List String}
    (h : Closes registry openEnded after rest) : EndsParams registry after := by
  cases h with
  | nothing => exact fun t ht => by cases ht
  | next hhead =>
    cases openEnded with
    | true => exact .of_isLogic (by decide) registry _
    | false => exact .of_startsStage hhead _

/-! ### Cutting off a stage of a given form -/

namespace Cut

variable (registry : Registry)

theorem ofTokens_group {body : List String} (hbody : Balanced body) (hne : body ≠ []) (after : List String) :
    ofTokens registry ("[" :: body ++ "]" :: after) =
      .ok ⟨.group body (splitGuard after).1, (splitGuard after).2⟩ := by
  rw [List.cons_append, ofTokens, if_pos rfl, splitBracket_body hbody]
  simp [hne]

theorem ofTokens_word {head : String} (hbracket : Token.isBracket head = false) (hlogic : Token.isLogic head = false)
    (params : List String) {after : List String} (hparams : ∀ p ∈ params, stopsParams registry p = false)
    (hafter : EndsParams registry after) :
    ofTokens registry (head :: params ++ after) =
      if head = "slice-apply" then .ok ⟨.slices params (after.head? == some "if"), after⟩
      else .ok ⟨.call head params (splitGuard after).1, (splitGuard after).2⟩ := by
  simp only [Token.isBracket, Bool.or_eq_false_iff, beq_eq_false_iff_ne] at hbracket
  have hall : ∀ p ∈ params, (!stopsParams registry p) = true := fun p hp => by simp [hparams p hp]
  have htake : (params ++ after).takeWhile (fun t => !stopsParams registry t) = params := by
    rw [List.takeWhile_append_of_pos hall]
    cases after with
    | nil => simp
    | cons t ts => simp [hafter t rfl]
  have hdrop : (params ++ after).dropWhile (fun t => !stopsParams registry t) = after := by
    rw [List.dropWhile_append_of_pos hall]
    cases after with
    | nil => rfl
    | cons t ts => simp [hafter t rfl]
  rw [List.cons_append, ofTokens, if_neg hbracket.1, if_neg hbracket.2, if_neg (by simp [hlogic]), htake, hdrop]

end Cut

section Guards

variable {registry : Registry} (hregistry : registry.Built)

include hregistry in
/-- What is written after a stage that is not open-ended is no `if` block. -/
theorem Closes.splitGuard {after rest : List String} (h : Closes registry false after rest) :
    splitGuard after = (none, rest) := by
  cases h with
  | nothing => rfl
  | next hhead => exact splitGuard_of_ne (hhead.ne_if hregistry) _

theorem Closes.splitGuard_if {condition after rest : List String} (hcondition : Passes Guard.endsCondition condition)
    (h : Closes registry true after rest) :
    DiceTally.splitGuard ("if" :: condition ++ after) = (some ⟨condition, none⟩, rest) := by
  have hsplit := hcondition after
  rw [List.cons_append, DiceTally.splitGuard_if]
  cases h with
  | nothing =>
    have hend : splitTop Guard.endsCondition 0 (condition ++ []) = (condition, []) := by simpa [splitTop] using hsplit
    rw [Guard.split_of_end hend]
  | next hhead =>
    rw [if_pos rfl, List.singleton_append, splitTop_end (by decide) (by decide) (by decide), List.append_nil] at hsplit
    rw [if_pos rfl, List.singleton_append, Guard.split_of_then hsplit]

theorem Closes.splitGuard_else {condition branch after rest : List String}
    (hcondition : Passes Guard.endsCondition condition) (hbranch : Passes Guard.endsBranch branch)
    (h : Closes registry true after rest) :
    DiceTally.splitGuard ("if" :: condition ++ "else" :: branch ++ after) =
      (some ⟨condition, some branch⟩, rest) := by
  have hsplit := hcondition ("else" :: (branch ++ after))
  rw [splitTop_end (by decide) (by decide) (by decide), List.append_nil] at hsplit
  have hafter := hbranch after
  rw [List.append_assoc, List.cons_append, DiceTally.splitGuard_if, List.cons_append, Guard.split_of_else hsplit,
    hafter]
  cases h with
  | nothing => simp [splitTop, dropThen]
  | next hhead => simp [splitTop_end, dropThen]

end Guards

/-! ### Meanings -/

namespace Operation

/-- Tokens are read as an operation with the same results. -/
def Means (registry : Registry) (tokens : List String) (op : Operation) : Prop :=
  ∃ read : Operation, read.eval = op.eval ∧ ∀ top n, Reads ⟨registry, .plain⟩ (.pipeline top tokens) n read n

/-- The first stage of the tokens is read as an operation with the same results, and `rest` is what is left. -/
def StageMeans (registry : Registry) (tokens rest : List String) (op : Operation) : Prop :=
  ∃ cut, Cut.ofTokens registry tokens = .ok cut ∧ cut.after = rest ∧
    ∃ read : Operation, read.eval = op.eval ∧ ∀ n, Reads ⟨registry, .plain⟩ (.stage cut) n read n

variable {registry : Registry} {tokens rest : List String} {op next : Operation}

theorem Means.congr (h : Means registry tokens op) {op' : Operation} (heval : op.eval = op'.eval) :
    Means registry tokens op' := by
  obtain ⟨read, hread, hreads⟩ := h
  exact ⟨read, hread.trans heval, hreads⟩

theorem StageMeans.congr (h : StageMeans registry tokens rest op) {op' : Operation} (heval : op.eval = op'.eval) :
    StageMeans registry tokens rest op' := by
  obtain ⟨cut, hcut, hafter, read, hread, hreads⟩ := h
  exact ⟨cut, hcut, hafter, read, hread.trans heval, hreads⟩

theorem Means.startsStage (h : Means registry tokens op) :
    ∃ head tail, tokens = head :: tail ∧ StartsStage registry head := by
  obtain ⟨read, -, hreads⟩ := h
  exact startsStage_of_reads (hreads false 0)

theorem Means.balanced (h : Means registry tokens op) : Balanced tokens := by
  obtain ⟨read, -, hreads⟩ := h
  exact (hreads false 0).balanced

/-- The next stage follows directly, or after `then`. -/
theorem Means.closes (h : Means registry tokens op) (openEnded : Bool) :
    Closes registry openEnded ((if openEnded then ["then"] else []) ++ tokens) tokens := by
  obtain ⟨head, tail, rfl, hhead⟩ := h.startsStage
  exact .next hhead

/-- The last stage of a pipeline. -/
theorem StageMeans.last (h : StageMeans registry tokens [] op) : Means registry tokens op := by
  obtain ⟨cut, hcut, hafter, read, hread, hreads⟩ := h
  exact ⟨read, hread, fun top n => .last hcut (hreads n) hafter⟩

/-- A stage and what follows it. -/
theorem StageMeans.andThen (h : StageMeans registry tokens rest op) (hnext : Means registry rest next) :
    Means registry tokens (andThen op next) := by
  obtain ⟨cut, hcut, rfl, read, hread, hreads⟩ := h
  obtain ⟨head, tail, hrest, -⟩ := hnext.startsStage
  obtain ⟨readNext, hreadNext, hreadsNext⟩ := hnext
  refine ⟨.andThen read readNext, ?_, fun top n => .andThen hcut (hreads n) (by simp [hrest]) (hreadsNext false n)⟩
  funext dice
  simp only [eval, hread, hreadNext]

/-! ### Stages -/

/-- No word of a condition ends it. -/
theorem endsCondition_of_parse {ts : List String} {c : Condition} (h : Condition.parse ts = .ok c) :
    ∀ t ∈ ts, Guard.endsCondition t = false := by
  have hkeywords : ∀ k ∈ Condition.keywords, Guard.endsCondition k = false := by decide
  have hnumbers : Value.ofText? "else" = none ∧ Value.ofText? "then" = none := by decide
  cases Condition.sentence_of_parse h with
  | empty => simp
  | written h =>
    intro t ht
    rcases h.mem ht with hk | ⟨v, hv⟩
    · exact hkeywords t hk
    · refine Bool.eq_false_iff.2 fun hends => ?_
      simp only [Guard.endsCondition, Bool.or_eq_true, beq_iff_eq] at hends
      rcases hends with rfl | rfl
      · cases hnumbers.1.symm.trans hv
      · cases hnumbers.2.symm.trans hv

/-- A condition ends neither itself nor the branch that it stands in. -/
theorem passes_condition {ts : List String} {c : Condition} (h : Condition.parse ts = .ok c) :
    Passes Guard.endsCondition ts ∧ Passes Guard.endsBranch ts := by
  have hbalanced := Condition.balanced_of_parse h
  have hends := endsCondition_of_parse h
  refine ⟨.of_balanced hbalanced hends, .of_balanced hbalanced fun t ht => ?_⟩
  have hboth := hends t ht
  simp only [Guard.endsCondition, Bool.or_eq_false_iff] at hboth
  exact hboth.2

section Stages

variable (hregistry : registry.Built) {after condition : List String} {c : Condition}

include hregistry

theorem stageMeans_group (h : Means registry tokens op) (hclose : Closes registry false after rest) :
    StageMeans registry ("[" :: tokens ++ "]" :: after) rest op := by
  obtain ⟨head, tail, htokens, -⟩ := h.startsStage
  have hcut := Cut.ofTokens_group registry h.balanced (by simp [htokens]) after
  rw [hclose.splitGuard hregistry] at hcut
  obtain ⟨read, hread, hreads⟩ := h
  exact ⟨_, hcut, rfl, read, hread, fun n => .group (hreads false n) .unguarded⟩

omit hregistry in
theorem stageMeans_guarded (h : Means registry tokens op) (hcondition : Condition.parse condition = .ok c)
    (hclose : Closes registry true after rest) :
    StageMeans registry ("[" :: tokens ++ "]" :: ("if" :: condition ++ after)) rest
      (conditional c op (primitive .identity)) := by
  obtain ⟨head, tail, htokens, -⟩ := h.startsStage
  have hcut := Cut.ofTokens_group registry h.balanced (by simp [htokens]) ("if" :: condition ++ after)
  rw [hclose.splitGuard_if (passes_condition hcondition).1] at hcut
  obtain ⟨read, hread, hreads⟩ := h
  refine ⟨_, hcut, rfl, conditional c read (primitive .identity), ?_,
    fun n => .group (hreads false n) (.guarded hcondition)⟩
  funext dice
  simp only [eval, hread]

theorem stageMeans_branched (h : Means registry tokens op) (hcondition : Condition.parse condition = .ok c)
    {branch : List String} {other : Operation} (hother : Means registry branch other)
    (hclose : Closes registry true after rest) :
    StageMeans registry
      ("[" :: tokens ++ "]" :: ("if" :: condition ++ "else" :: ("[" :: branch ++ ["]"]) ++ after)) rest
      (conditional c op other) := by
  obtain ⟨head, tail, htokens, -⟩ := h.startsStage
  have hcut := Cut.ofTokens_group registry h.balanced (by simp [htokens])
    ("if" :: condition ++ "else" :: ("[" :: branch ++ ["]"]) ++ after)
  rw [hclose.splitGuard_else (passes_condition hcondition).1 (.brackets hother.balanced)] at hcut
  obtain ⟨read, hread, hreads⟩ := h
  obtain ⟨readOther, hreadOther, hreadsOther⟩ := (stageMeans_group hregistry hother .nothing).last
  refine ⟨_, hcut, rfl, conditional c read readOther, ?_, fun n => ?_⟩
  · funext dice
    simp only [eval, hread, hreadOther]
  · exact .group (hreads false n) (.branched hcondition (.branch (by decide) (hreadsOther false n)))

/-- A built-in operation. -/
theorem stageMeans_builtIn {name : String} (hname : name ∈ Token.operations) (hreroll : name ≠ "reroll")
    {params : List String} (hparams : ∀ p ∈ params, stopsParams registry p = false)
    (hop : ofWords name params = .ok op) (hclose : Closes registry false after rest) :
    StageMeans registry (name :: params ++ after) rest op := by
  have hwords : ∀ w ∈ Token.operations, Token.isBracket w = false ∧ Token.isLogic w = false ∧
      Token.isReserved w = true := by decide
  obtain ⟨hbracket, hlogic, hreserved⟩ := hwords name hname
  have hslices : name ≠ "slice-apply" := by
    rintro rfl
    cases hop
  have hcut := Cut.ofTokens_word registry hbracket hlogic params hparams hclose.endsParams
  rw [if_neg hslices, hclose.splitGuard hregistry] at hcut
  refine ⟨_, hcut, rfl, op, rfl, fun n => ?_⟩
  exact .builtIn (get?_of_isReserved hregistry hreserved) hreroll hop (by simp) .unguarded

theorem stageMeans_reroll (hclose : Closes registry false after rest) :
    StageMeans registry ("reroll" :: after) rest (primitive (.reroll .always)) := by
  have hcut := @Cut.ofTokens_word registry "reroll" (by decide) (by decide) [] after (by simp) hclose.endsParams
  rw [if_neg (by decide), hclose.splitGuard hregistry] at hcut
  exact ⟨_, hcut, rfl, _, rfl, fun n => .reroll (get?_of_isReserved hregistry (by decide))⟩

theorem stageMeans_rerollIf (hcondition : Condition.parse condition = .ok c)
    (hclose : Closes registry true after rest) :
    StageMeans registry ("reroll" :: ("if" :: condition ++ after)) rest (primitive (.reroll c)) := by
  have hif : EndsParams registry ("if" :: condition ++ after) := .of_isLogic (by decide) registry _
  have hcut := @Cut.ofTokens_word registry "reroll" (by decide) (by decide) [] _ (by simp) hif
  rw [if_neg (by decide), hclose.splitGuard_if (passes_condition hcondition).1] at hcut
  exact ⟨_, hcut, rfl, _, rfl, fun n => .rerollIf (get?_of_isReserved hregistry (by decide)) hcondition⟩

/-- A registered name neither is a bracket nor belongs to an `if` block, and it is not `slice-apply`. -/
theorem word_of_registered {name : String} {callable : Callable} (hget : registry.get? name = some callable) :
    Token.isBracket name = false ∧ Token.isLogic name = false ∧ name ≠ "slice-apply" := by
  have hreserved := (hregistry.entry hget).not_reserved
  have hslices : name ≠ "slice-apply" := by
    rintro rfl
    exact absurd hreserved (by decide)
  simp only [Token.isReserved, Bool.or_eq_false_iff] at hreserved
  simp [hreserved, hslices]

/-- A named operation. -/
theorem stageMeans_registered {name : String} {callable : Callable} (hget : registry.get? name = some callable)
    {params : List String} (hparams : ∀ p ∈ params, stopsParams registry p = false)
    (hclose : Closes registry false after rest) :
    StageMeans registry (name :: params ++ after) rest (callable.call name (params.map Param.ofToken)) := by
  obtain ⟨hbracket, hlogic, hslices⟩ := word_of_registered hregistry hget
  have hcut := Cut.ofTokens_word registry hbracket hlogic params hparams hclose.endsParams
  rw [if_neg hslices, hclose.splitGuard hregistry] at hcut
  exact ⟨_, hcut, rfl, _, rfl, fun n => .registered hget⟩

/-- `slice-apply` takes the next stage for its blocks and all stages after it for their results. -/
theorem stageMeans_slices {token : String} {size : Nat} (hsize : readBlockSize "slice-apply" token = .ok size)
    (htoken : stopsParams registry token = false) {inner : Operation} (hinner : StageMeans registry tokens rest inner)
    (hstarts : ∃ head tail, tokens = head :: tail ∧ StartsStage registry head) :
    (rest = [] → StageMeans registry ("slice-apply" :: token :: tokens) []
      (sliceApply size inner (primitive .identity))) ∧
    ∀ outer, Means registry rest outer → StageMeans registry ("slice-apply" :: token :: tokens) []
      (sliceApply size inner outer) := by
  obtain ⟨head, tail, rfl, hhead⟩ := hstarts
  have hends : EndsParams registry (head :: tail) := .of_startsStage hhead tail
  have hcut := @Cut.ofTokens_word registry "slice-apply" (by decide) (by decide) [token] _ (by simpa using htoken) hends
  have hif : ((head :: tail).head? == some "if") = false := by simpa using hhead.ne_if hregistry
  rw [if_pos rfl, hif] at hcut
  obtain ⟨first, hfirst, rfl, read, hread, hreads⟩ := hinner
  constructor
  · intro hafter
    refine ⟨_, hcut, rfl, sliceApply size read (primitive .identity), ?_, fun n => ?_⟩
    · funext dice
      simp only [eval, hread]
    · exact .slicesLast hsize (List.cons_ne_nil _ _) hfirst (hreads n) hafter
  · intro outer houter
    obtain ⟨h, t, hafter, -⟩ := houter.startsStage
    obtain ⟨readOuter, hreadOuter, hreadsOuter⟩ := houter
    refine ⟨_, hcut, rfl, sliceApply size read readOuter, ?_, fun n => ?_⟩
    · funext dice
      simp only [eval, hread, hreadOuter]
    · exact .slices hsize (List.cons_ne_nil _ _) hfirst (hreads n) (by simp [hafter]) (hreadsOuter false n)

end Stages

end Operation

end DiceTally
