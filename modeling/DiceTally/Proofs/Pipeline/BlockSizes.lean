import DiceTally.Proofs.Operation.Blocks
import DiceTally.Proofs.Pipeline.Grouping

/-!
# Block sizes after an operation

`sum 3` is short for `slice-apply 3 sum`, whatever comes next.  After the short text the next stage is read as that of
any other operation; `slice-apply` takes one stage for its blocks and all that is left for their results.  Tokens mean
what their first stage means and then what is left (`Means.exists_stageMeans`), and what `slice-apply` means comes from
the same two parts (`StageMeans.of_slices`).  So both texts have the same meanings (`means_sized_iff`,
`means_slices_iff`), and texts with the same meanings are read alike (`parse_alike`).
-/

namespace DiceTally

/-! ### Operations that take a block size -/

/-- The names of the steps that take no parameters of their own. -/
def Primitive.plainNames : List String := ["id", "sort"] ++ Reduction.all.map Reduction.keyword

theorem Primitive.mem_plainNames_iff {name : String} : name ∈ plainNames ↔ ∃ step, plain? name = some step := by
  constructor
  · intro h
    have hall : ∀ w ∈ plainNames, (plain? w).isSome = true := by decide
    exact Option.isSome_iff_exists.1 (hall name h)
  · rintro ⟨step, h⟩
    unfold plain? at h
    split at h
    · decide
    · decide
    · obtain ⟨reduction, hreduction, -⟩ := Option.map_eq_some_iff.1 h
      have hkeyword := List.find?_some hreduction
      rw [← eq_of_beq hkeyword]
      exact List.mem_append_right _ (List.mem_map_of_mem (List.mem_of_find?_eq_some hreduction))

/-- The operation shows in the message only. -/
theorem readBlockSize_eq_ok_iff (operation operation' : String) {token : String} {size : Nat} :
    readBlockSize operation token = .ok size ↔ readBlockSize operation' token = .ok size := by
  unfold readBlockSize
  cases Value.ofText? token with
  | none => simp
  | some v =>
    dsimp only
    split <;> simp

namespace Operation

theorem ofWords_of_plain? {name : String} {step : Primitive} (h : Primitive.plain? name = some step)
    (params : List String) : ofWords name params = blockWise name step params := by
  unfold ofWords
  rw [h]

variable {registry : Registry}

/-- Such an operation is a built-in one and takes no `if` block. -/
theorem ofWords_of_reads (hregistry : registry.Built) {options : ParseOptions} {name : String}
    (hname : name ∈ Primitive.plainNames) {params rest : List String} {guard : Option Guard} {n k : Nat}
    {op : Operation} (h : Reads ⟨registry, options⟩ (.stage ⟨.call name params guard, rest⟩) n op k) :
    guard = none ∧ ofWords name params = .ok op := by
  have hall : ∀ w ∈ Primitive.plainNames, Token.isReserved w = true ∧ w ≠ "reroll" ∧
      Token.guardable.contains w = false := by decide
  obtain ⟨hreserved, hreroll, hguardable⟩ := hall name hname
  cases h with
  | registered hget => cases (get?_of_isReserved hregistry hreserved).symm.trans hget
  | reroll => exact absurd rfl hreroll
  | rerollIf => exact absurd rfl hreroll
  | builtIn _ _ hbuilt hguard hop =>
    cases guard with
    | none =>
      cases hop with
      | unguarded => exact ⟨rfl, hbuilt⟩
    | some guard =>
      rw [hguard rfl] at hguardable
      cases hguardable

/-! ### What is left after a stage -/

/-- What is left after a stage: nothing, which is as good as `id`, or a pipeline. -/
inductive Continues (registry : Registry) : List String → Operation → Prop where
  | nothing : Continues registry [] (primitive .identity)
  | next {rest : List String} {op : Operation} (h : Means registry rest op) : Continues registry rest op

variable {tokens after rest : List String} {op first next : Operation}

theorem Continues.closes (h : Continues registry rest op) : Closes registry false rest rest := by
  cases h with
  | nothing => exact .nothing
  | next h => exact h.closes false

theorem eval_andThen_identity (op : Operation) : (andThen op (primitive .identity)).eval = op.eval := by
  funext dice
  simp only [eval]
  cases op.eval dice <;> rfl

theorem Continues.eq_identity (h : Continues registry [] op) : op = primitive .identity := by
  cases h with
  | nothing => rfl
  | next h =>
    obtain ⟨_, _, hnil, -⟩ := h.startsStage
    cases hnil

theorem StageMeans.continued (h : StageMeans registry tokens rest first) (hnext : Continues registry rest next) :
    Means registry tokens (.andThen first next) := by
  cases hnext with
  | nothing => exact h.last.congr (eval_andThen_identity first).symm
  | next hnext => exact h.andThen hnext

theorem means_of_reads {top : Bool} {n k : Nat} (h : Reads ⟨registry, .plain⟩ (.pipeline top tokens) n op k) :
    Means registry tokens op :=
  ⟨op, rfl, fun top n => reads_plain h top n⟩

theorem stageMeans_of_reads {cut : Cut} {n k : Nat} (hcut : Cut.ofTokens registry tokens = .ok cut)
    (h : Reads ⟨registry, .plain⟩ (.stage cut) n op k) : StageMeans registry tokens cut.after op :=
  ⟨cut, hcut, rfl, op, rfl, fun n => reads_plain h false n⟩

/-- Tokens mean what their first stage means, and then what is left. -/
theorem Means.exists_stageMeans (h : Means registry tokens op) :
    ∃ rest first next, StageMeans registry tokens rest first ∧ Continues registry rest next ∧
      (andThen first next).eval = op.eval := by
  obtain ⟨read, heval, hreads⟩ := h
  -- the rules count the caches, so the number of the next one is left open
  obtain ⟨k, hread⟩ : ∃ k, Reads ⟨registry, .plain⟩ (.pipeline false tokens) 0 read k := ⟨0, hreads false 0⟩
  cases hread with
  | last hcut hcurrent hafter =>
    have hstage := stageMeans_of_reads hcut hcurrent
    rw [hafter] at hstage
    exact ⟨_, _, _, hstage, .nothing, (eval_andThen_identity _).trans heval⟩
  | andThen hcut hcurrent _ hnext =>
    exact ⟨_, _, _, stageMeans_of_reads hcut hcurrent, .next (means_of_reads hnext), heval⟩

/-! ### Stages taken apart -/

section

variable (hregistry : registry.Built) {name : String} (hname : name ∈ Primitive.plainNames) {params : List String}
  (hparams : ∀ p ∈ params, stopsParams registry p = false) (hafter : EndsParams registry after)

include hregistry hname hparams hafter

/-- The stage ends with its parameters. -/
theorem StageMeans.of_plain (h : StageMeans registry (name :: params ++ after) rest op) :
    rest = after ∧ ∃ built, ofWords name params = .ok built ∧ built.eval = op.eval := by
  have hall : ∀ w ∈ Primitive.plainNames, Token.isBracket w = false ∧ Token.isLogic w = false ∧
      w ≠ "slice-apply" := by decide
  obtain ⟨hbracket, hlogic, hslices⟩ := hall name hname
  obtain ⟨cut, hcut, rfl, read, heval, hreads⟩ := h
  rw [Cut.ofTokens_word registry hbracket hlogic params hparams hafter, if_neg hslices] at hcut
  cases hcut
  obtain ⟨hguard, hbuilt⟩ := ofWords_of_reads hregistry hname (hreads 0)
  refine ⟨?_, read, hbuilt, heval⟩
  -- without an `if` block nothing of what comes next belongs to the stage
  rcases splitGuard_cases after with hsplit | ⟨ts, -, hsplit⟩
  · simp only [Cut.after, hsplit]
  · rw [hsplit] at hguard
    cases hguard

end

/-- `slice-apply` leaves nothing to the next stage. -/
theorem StageMeans.of_slices {token : String} (htoken : stopsParams registry token = false)
    (htokens : EndsParams registry tokens) (h : StageMeans registry ("slice-apply" :: token :: tokens) rest op) :
    rest = [] ∧ ∃ size after inner outer, readBlockSize "slice-apply" token = .ok size ∧
      StageMeans registry tokens after inner ∧ Continues registry after outer ∧
      (sliceApply size inner outer).eval = op.eval := by
  obtain ⟨cut, hcut, rfl, read, heval, hreads⟩ := h
  have hword := @Cut.ofTokens_word registry "slice-apply" (by decide) (by decide) [token] tokens (by simpa using htoken)
    htokens
  rw [if_pos rfl] at hword
  cases hword.symm.trans hcut
  refine ⟨rfl, ?_⟩
  obtain ⟨k, hread⟩ : ∃ k, Reads ⟨registry, .plain⟩
      (.stage ⟨.slices [token] (tokens.head? == some "if"), tokens⟩) 0 read k := ⟨0, hreads 0⟩
  generalize (tokens.head? == some "if") = guarded at hread
  cases hread with
  | slicesLast hsize _ hfirst hinner hafter =>
    have hstage := stageMeans_of_reads hfirst hinner
    rw [hafter] at hstage
    exact ⟨_, _, _, _, hsize, hstage, .nothing, heval⟩
  | slices hsize _ hfirst hinner _ houter =>
    exact ⟨_, _, _, _, hsize, stageMeans_of_reads hfirst hinner, .next (means_of_reads houter), heval⟩

/-! ### The two texts -/

section

variable (hregistry : registry.Built) {name : String} {step : Primitive} (hstep : Primitive.plain? name = some step)
  {token : String} (htoken : stopsParams registry token = false) (hrest : EndsParams registry rest)

include hregistry hstep htoken hrest

theorem means_sized_iff : Means registry (name :: token :: rest) op ↔
    ∃ size next, readBlockSize "slice-apply" token = .ok size ∧ Continues registry rest next ∧
      (sliceApply size (primitive step) next).eval = op.eval := by
  have hname := Primitive.mem_plainNames_iff.2 ⟨step, hstep⟩
  have hparams : ∀ p ∈ [token], stopsParams registry p = false := by simpa using htoken
  have hwords := ofWords_of_plain? hstep [token]
  constructor
  · intro h
    obtain ⟨rest', first, next, hfirst, hnext, heval⟩ := h.exists_stageMeans
    obtain ⟨rfl, built, hbuilt, hsized⟩ := hfirst.of_plain hregistry hname hparams hrest
    obtain ⟨size, hsize, rfl⟩ := map_eq_ok_iff.1 (hwords.symm.trans hbuilt)
    refine ⟨size, next, (readBlockSize_eq_ok_iff name _).1 hsize, hnext, ?_⟩
    rw [← heval]
    funext dice
    rw [eval_sliceApply_eq_andThen, eval, eval, ← hsized, onBlocks]
  · rintro ⟨size, next, hsize, hnext, heval⟩
    have hall : ∀ w ∈ Primitive.plainNames, w ∈ Token.operations ∧ w ≠ "reroll" := by decide
    obtain ⟨hoperation, hreroll⟩ := hall name hname
    have hop : ofWords name [token] = .ok (onBlocks size (primitive step)) :=
      hwords.trans (map_eq_ok_iff.2 ⟨size, (readBlockSize_eq_ok_iff _ _).1 hsize, rfl⟩)
    have hstage := stageMeans_builtIn hregistry hoperation hreroll hparams hop hnext.closes
    refine (hstage.continued hnext).congr ?_
    rw [← heval]
    funext dice
    exact (eval_sliceApply_eq_andThen size (primitive step) next dice).symm

theorem means_slices_iff : Means registry ("slice-apply" :: token :: name :: rest) op ↔
    ∃ size next, readBlockSize "slice-apply" token = .ok size ∧ Continues registry rest next ∧
      (sliceApply size (primitive step) next).eval = op.eval := by
  have hname := Primitive.mem_plainNames_iff.2 ⟨step, hstep⟩
  have hall : ∀ w ∈ Primitive.plainNames, w ∈ Token.operations ∧ w ≠ "reroll" ∧ Token.isOperation w = true := by decide
  obtain ⟨hoperation, hreroll, hstarts⟩ := hall name hname
  have hstarts : StartsStage registry name := .inr (.inl hstarts)
  have hnone : ∀ p ∈ ([] : List String), stopsParams registry p = false := by simp
  have hwords : ofWords name [] = .ok (primitive step) := ofWords_of_plain? hstep []
  constructor
  · intro h
    obtain ⟨rest', first, next, hfirst, hnext, heval⟩ := h.exists_stageMeans
    obtain ⟨rfl, size, after, inner, outer, hsize, hinner, houter, hslices⟩ :=
      hfirst.of_slices htoken (.of_startsStage hstarts rest)
    obtain ⟨rfl, built, hbuilt, hplain⟩ := StageMeans.of_plain hregistry hname hnone hrest hinner
    cases hwords.symm.trans hbuilt
    refine ⟨size, outer, hsize, houter, ?_⟩
    rw [hnext.eq_identity, eval_andThen_identity] at heval
    rw [← heval, ← hslices]
    funext dice
    rw [eval, eval, hplain]
  · rintro ⟨size, next, hsize, hnext, heval⟩
    have hstage := stageMeans_builtIn hregistry hoperation hreroll hnone hwords hnext.closes
    obtain ⟨hlast, hmore⟩ := stageMeans_slices hregistry hsize htoken hstage ⟨name, rest, rfl, hstarts⟩
    cases hnext with
    | nothing => exact (hlast rfl).last.congr heval
    | next hnext => exact (hmore next hnext).last.congr heval

end

/-! ### Texts with the same meanings -/

theorem exists_parse_iff {options : ParseOptions} {words : List String} :
    (∃ op, parse ⟨registry, options⟩ words = .ok op) ↔ ∃ op, Means registry (Token.normalize words) op := by
  constructor
  · rintro ⟨op, h⟩
    obtain ⟨read, hmeans, -⟩ := means_of_parse h
    exact ⟨read, hmeans⟩
  · rintro ⟨op, h⟩
    obtain ⟨read, hread, -⟩ := parse_of_means h options
    exact ⟨read, hread⟩

/-- Texts with the same meanings are read alike, and any evaluators of what is read give the same results and fail for the
same reasons. -/
theorem parse_alike (hregistry : registry.Built) {words words' : List String}
    (h : ∀ op, Means registry (Token.normalize words) op ↔ Means registry (Token.normalize words') op)
    (options options' : ParseOptions) :
    ((∃ op, parse ⟨registry, options⟩ words = .ok op) ↔ ∃ op, parse ⟨registry, options'⟩ words' = .ok op) ∧
      ∀ op op', parse ⟨registry, options⟩ words = .ok op → parse ⟨registry, options'⟩ words' = .ok op' →
        ∀ (evaluator : op.Evaluator) (evaluator' : op'.Evaluator) dice,
          rooted (evaluator.answer dice) = rooted (evaluator'.answer dice) := by
  constructor
  · rw [exists_parse_iff, exists_parse_iff]
    exact exists_congr h
  · intro op op' hop hop' evaluator evaluator' dice
    obtain ⟨meant, hmeans, hsame⟩ := means_of_parse hop
    obtain ⟨read, hread, hsame'⟩ := parse_of_means ((h meant).1 hmeans) options'
    cases hread.symm.trans hop'
    rw [evaluator.answer_eq hregistry hop, evaluator'.answer_eq hregistry hop', hsame, hsame']

/-- A block size after `id`, `sort` or a reduction is that of `slice-apply`: for any token that can be a parameter, and
whatever comes next, `name token rest` is read if and only if `slice-apply token name rest` is, and then both give the
same results and fail for the same reasons, under any options and with any caches. -/
theorem blockSize_eq_sliceApply (hregistry : registry.Built) {name token : String}
    (hname : name ∈ Primitive.plainNames) (htoken : stopsParams registry token = false)
    (hrest : EndsParams registry rest) {words words' : List String}
    (hwords : Token.normalize words = name :: token :: rest)
    (hwords' : Token.normalize words' = "slice-apply" :: token :: name :: rest) (options options' : ParseOptions) :
    ((∃ op, parse ⟨registry, options⟩ words = .ok op) ↔ ∃ op, parse ⟨registry, options'⟩ words' = .ok op) ∧
      ∀ op op', parse ⟨registry, options⟩ words = .ok op → parse ⟨registry, options'⟩ words' = .ok op' →
        ∀ (evaluator : op.Evaluator) (evaluator' : op'.Evaluator) dice,
          rooted (evaluator.answer dice) = rooted (evaluator'.answer dice) := by
  obtain ⟨step, hstep⟩ := Primitive.mem_plainNames_iff.1 hname
  refine parse_alike hregistry (fun op => ?_) options options'
  rw [hwords, hwords', means_sized_iff hregistry hstep htoken hrest, means_slices_iff hregistry hstep htoken hrest]

/-- The results of the blocks go to a named pipeline; one of the two evaluators keeps results and has been used. -/
theorem blockSize_eq_sliceApply_low :
    "sum" ∈ Primitive.plainNames ∧ stopsParams sessionRegistry "2" = false ∧ EndsParams sessionRegistry ["low"] ∧
      Token.normalize ["sum 2 low"] = ["sum", "2", "low"] ∧
      Token.normalize ["slice-apply 2", "sum low"] = ["slice-apply", "2", "sum", "low"] ∧
      ∃ op op', parse ⟨sessionRegistry, ⟨true, false⟩⟩ ["sum 2 low"] = .ok op ∧
        parse ⟨sessionRegistry, ⟨false, true⟩⟩ ["slice-apply 2", "sum low"] = .ok op' ∧
        ∀ dice, rooted ((⟨none, []⟩ : op.Evaluator).answer dice) =
          rooted ((⟨some 1, [.apply [4, 2, 1]]⟩ : op'.Evaluator).answer dice) := by
  have htoken : stopsParams sessionRegistry "2" = false := by decide
  have hrest : EndsParams sessionRegistry ["low"] := by
    intro t ht
    cases ht
    decide
  have hread : (parse ⟨sessionRegistry, ⟨true, false⟩⟩ ["sum 2 low"]).isOk = true := by cbv
  obtain ⟨op, hop⟩ := exists_eq_ok_of_isOk hread
  obtain ⟨haccepted, hanswers⟩ := blockSize_eq_sliceApply built_sessionRegistry (by decide : "sum" ∈ Primitive.plainNames)
    htoken hrest (by decide : Token.normalize ["sum 2 low"] = _)
    (by decide : Token.normalize ["slice-apply 2", "sum low"] = _) ⟨true, false⟩ ⟨false, true⟩
  obtain ⟨op', hop'⟩ := haccepted.1 ⟨op, hop⟩
  exact ⟨by decide, htoken, hrest, by decide, by decide, op, op', hop, hop', fun dice => hanswers op op' hop hop' _ _ dice⟩

end Operation

end DiceTally
