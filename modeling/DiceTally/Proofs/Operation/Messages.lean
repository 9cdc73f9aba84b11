import DiceTally.Operation.Eval
import DiceTally.Proofs.Operation.Tokens
import DiceTally.Proofs.Pipeline.Unwrapping

/-!
# Messages without stages

A message tells the stages that a failure passed on lines of their own behind its first line.  What is left of it
without these lines is what the failure of the operation without wrapping says: validated levels add such lines only,
and a named pipeline puts its first words in front of the whole message (`told_eval_of_parse`).
-/

namespace DiceTally

/-! ### Lines -/

def textLines (s : String) : List (List Char) := s.toList.splitOn '\n'

/-- Whether a line tells the stage or the input of a failure. -/
def tellsStage (line : List Char) : Bool :=
  "  in stage: ".toList.isPrefixOf line || "  input: ".toList.isPrefixOf line

/-- The lines of a message that do not tell the stage or the input. -/
def plainLines (message : String) : List (List Char) := (textLines message).filter fun line => !tellsStage line

/-- The first line of a message, and the plain ones behind it. -/
def gist (message : String) : List (List Char) :=
  match textLines message with
  | [] => []
  | first :: rest => first :: rest.filter fun line => !tellsStage line

theorem plainLines_eq_filter_gist (message : String) :
    plainLines message = (gist message).filter fun line => !tellsStage line := by
  unfold plainLines gist
  cases textLines message with
  | nil => rfl
  | cons first rest => simp [List.filter_cons, List.filter_filter]

theorem splitOn_append_of_not_mem {a : Char} {front : List Char} (hfront : a ∉ front) (cs : List Char) :
    (front ++ cs).splitOn a = (cs.splitOn a).modifyHead (front ++ ·) := by
  induction front with
  | nil =>
    rw [List.nil_append]
    cases cs.splitOn a <;> rfl
  | cons c front ih =>
    obtain ⟨hc, hfront⟩ := List.ne_and_not_mem_of_not_mem_cons hfront
    rw [List.cons_append, List.splitOn_cons_eq_if_modifyHead, if_neg (by simpa using Ne.symm hc), ih hfront]
    cases cs.splitOn a <;> rfl

/-- Words in front of a message stand on its first line. -/
theorem gist_append {front : String} (hfront : '\n' ∉ front.toList) (message : String) :
    gist (front ++ message) = (gist message).modifyHead (front.toList ++ ·) := by
  unfold gist textLines
  rw [String.toList_append, splitOn_append_of_not_mem hfront]
  cases message.toList.splitOn '\n' <;> rfl

/-- A stage and an input behind a message are no part of its gist. -/
theorem gist_located {label shown : String} (hlabel : '\n' ∉ label.toList) (hshown : '\n' ∉ shown.toList)
    (message : String) : gist (message ++ "\n  in stage: " ++ label ++ "\n  input: " ++ shown) = gist message := by
  have hstage : '\n' ∉ "  in stage: ".toList ++ label.toList := by
    simpa using hlabel
  have hinput : '\n' ∉ "  input: ".toList ++ shown.toList := by
    simpa using hshown
  have hlines : textLines (message ++ "\n  in stage: " ++ label ++ "\n  input: " ++ shown) =
      textLines message ++ ["  in stage: ".toList ++ label.toList, "  input: ".toList ++ shown.toList] := by
    have hchars : (message ++ "\n  in stage: " ++ label ++ "\n  input: " ++ shown).toList =
        message.toList ++ '\n' :: (("  in stage: ".toList ++ label.toList) ++
          '\n' :: ("  input: ".toList ++ shown.toList)) := by
      simp
    rw [textLines, hchars, List.splitOn_append_cons_self, List.splitOn_append_cons_self,
      List.splitOn_eq_singleton hstage, List.splitOn_eq_singleton hinput]
    rfl
  have htells : tellsStage ("  in stage: ".toList ++ label.toList) = true ∧
      tellsStage ("  input: ".toList ++ shown.toList) = true := by
    constructor
    · rw [tellsStage, List.isPrefixOf_iff_prefix.2 (List.prefix_append _ _), Bool.true_or]
    · rw [tellsStage, List.isPrefixOf_iff_prefix.2 (List.prefix_append _ _), Bool.or_true]
  generalize "  in stage: ".toList ++ label.toList = stageLine at hlines htells
  generalize "  input: ".toList ++ shown.toList = inputLine at hlines htells
  unfold gist
  rw [hlines]
  cases hmessage : textLines message with
  | nil => exact absurd hmessage (by simp [textLines])
  | cons first rest => simp [htells]

example : plainLines "numeric overflow in 'add'\n  in stage: add 1\n  input: [3]" =
    textLines "numeric overflow in 'add'" := by decide

/-! ### Labels and inputs -/

theorem mem_intercalate {sep : String} {words : List String} {c : Char} (h : c ∈ (sep.intercalate words).toList) :
    c ∈ sep.toList ∨ ∃ w ∈ words, c ∈ w.toList := by
  induction words with
  | nil => simp at h
  | cons w words ih =>
    cases words with
    | nil => exact .inr ⟨w, List.mem_cons_self, by simpa using h⟩
    | cons u words =>
      rw [String.intercalate_cons_cons] at h
      simp only [String.toList_append, List.mem_append] at h
      rcases h with (h | h) | h
      · exact .inr ⟨w, List.mem_cons_self, h⟩
      · exact .inl h
      · refine (ih h).imp_right ?_
        rintro ⟨v, hv, hc⟩
        exact ⟨v, List.mem_cons_of_mem w hv, hc⟩

theorem newline_not_mem_of_isToken {t : String} (h : Token.IsToken t) : '\n' ∉ t.toList := by
  rcases h with rfl | rfl | ⟨-, hplain⟩
  · decide
  · decide
  · intro hc
    have hblank := List.any_eq_false.1 hplain _ hc
    exact hblank (by decide)

theorem newline_not_mem_unwords {ts : List String} (h : ∀ t ∈ ts, Token.IsToken t) : '\n' ∉ (unwords ts).toList := by
  intro hc
  rcases mem_intercalate hc with hspace | ⟨t, ht, hc⟩
  · exact absurd hspace (by decide)
  · exact newline_not_mem_of_isToken (h t ht) hc

theorem newline_not_mem_tupleText (dice : Tuple) : '\n' ∉ dice.text.toList := by
  unfold Tuple.text
  simp only [String.toList_append, List.mem_append, not_or]
  refine ⟨⟨by decide, fun hc => ?_⟩, by decide⟩
  rcases mem_intercalate hc with hsep | ⟨t, ht, hc⟩
  · exact absurd hsep (by decide)
  · obtain ⟨v, -, rfl⟩ := List.mem_map.1 ht
    exact newline_not_mem_of_isToken (isToken_text v) hc

/-! ### Results and what their failures tell -/

/-- A result, or the gist of the message of a failure. -/
def told {α : Type} (x : Except EvalError α) : Except (List (List Char)) α := x.mapError fun e => gist e.message

section

variable {α β : Type}

theorem told_bind (x : Except EvalError α) (f : α → Except EvalError β) :
    told (x >>= f) = told x >>= fun a => told (f a) := mapError_bind _ x f

theorem told_map (x : Except EvalError α) (f : α → β) : told (x.map f) = (told x).map f := by
  cases x <;> rfl

theorem told_mapM (f : α → Except EvalError β) (as : List α) : told (as.mapM f) = as.mapM fun a => told (f a) :=
  mapError_mapM _ f as

theorem told_mapError {x y : Except EvalError α} {f g : EvalError → EvalError} (h : told x = told y)
    (hfg : ∀ e e', gist e.message = gist e'.message → gist (f e).message = gist (g e').message) :
    told (x.mapError f) = told (y.mapError g) := by
  rcases cases_of_mapError_eq_mapError h with ⟨a, rfl, rfl⟩ | ⟨e, e', rfl, rfl, hgist⟩
  · rfl
  · exact congrArg Except.error (hfg e e' hgist)

/-- Locating a failure leaves its gist. -/
theorem told_within {label : String} (hlabel : '\n' ∉ label.toList) (input : Tuple) (x : Except EvalError α) :
    told (x.mapError (.within label input)) = told x := by
  cases x with
  | ok a => rfl
  | error e =>
    refine congrArg Except.error ?_
    unfold EvalError.within
    split
    · rfl
    · exact gist_located hlabel (newline_not_mem_tupleText input) e.message

end

theorem gist_custom {name : String} (hname : '\n' ∉ name.toList) {message message' : String}
    (h : gist message = gist message') :
    gist (EvalError.custom name message).message = gist (EvalError.custom name message').message := by
  have hfront : '\n' ∉ ("custom operation '" ++ name ++ "' failed: ").toList := by
    simpa using hname
  exact (gist_append hfront message).trans ((congrArg _ h).trans (gist_append hfront message').symm)

namespace Operation

/-- Wrapping changes no result, and of the messages no more than the lines that tell stages, if this holds of the
named pipelines. -/
theorem told_eval {registry : Registry} (hregistry : registry.Built)
    (hdefined : ∀ name pipeline, registry.get? name = some (.defined pipeline) →
      ∀ dice, told (pipeline.eval dice) = told (pipeline.unwrapped.eval dice))
    {all : List String} (hall : ∀ t ∈ all, Token.IsToken t) {op : Operation} (hop : op.WellFormed registry all)
    (dice : Tuple) : told (op.eval dice) = told (op.unwrapped.eval dice) := by
  induction op generalizing dice with
  | primitive step => rfl
  | sliceApply size inner outer ihinner ihouter =>
    obtain ⟨-, -, hinner, houter⟩ := hop
    simp only [eval, unwrapped, told_bind, told_mapM, ihinner hinner, ihouter houter]
  | conditional condition taken otherwise ihtaken ihotherwise =>
    obtain ⟨-, htaken, hotherwise⟩ := hop
    simp only [eval, unwrapped, told_bind, ihtaken htaken, ihotherwise hotherwise]
  | native name params function => rfl
  | defined name params pipeline =>
    have hentry := hregistry.entry hop.1
    have hname : '\n' ∉ name.toList := newline_not_mem_of_isToken (.inr (.inr ⟨hentry.name_ne, hentry.not_splitsApart⟩))
    simp only [eval, unwrapped]
    split
    · exact told_mapError (hdefined name pipeline hop.1 dice) fun e e' h => gist_custom hname h
    · rfl
  | andThen first next ihfirst ihnext => simp only [eval, unwrapped, told_bind, ihfirst hop.1, ihnext hop.2]
  | validated inner ih =>
    have hlabel : '\n' ∉ inner.render.toList :=
      newline_not_mem_unwords fun t ht => isToken_of_mem_tokens hregistry hall hop ht
    rw [eval, told_within hlabel, ih hop]
    rfl
  | memoized slot inner ih => exact ih hop dice

/-- The options under which a pipeline and its named pipelines were read change no result, and of the messages no
more than the lines that tell stages. -/
theorem told_eval_of_parse {registry : Registry} (hregistry : registry.Built) {options : ParseOptions}
    {words : List String} {op : Operation} (h : parse ⟨registry, options⟩ words = .ok op) (dice : Tuple) :
    told (op.eval dice) = told (op.unwrapped.eval dice) := by
  have htokens (words : List String) : ∀ t ∈ Token.normalize words, Token.IsToken t :=
    fun t ht => Token.isToken_of_mem_normalize ht
  refine told_eval hregistry (fun name pipeline hget dice => ?_) (htokens words) (wellFormed_of_parse h) dice
  obtain ⟨options', words', hparse⟩ := hregistry.parsed name pipeline hget
  -- a named pipeline calls no other one
  exact told_eval .empty (fun _ _ hget => by cases hget) (htokens words') (wellFormed_of_parse hparse) dice

end Operation

end DiceTally
