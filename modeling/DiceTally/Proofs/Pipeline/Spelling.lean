import DiceTally.Pipeline.Parser
import DiceTally.Proofs.Token
import Mathlib.Logic.Relation

/-!
# Spellings of a pipeline

The same tokens may be split into words in many ways.  A word may be cut at white space and beside a bracket, and an
empty word may be left out (`Token.Cut`); two lists of words are spellings of each other when such steps, made or taken
back, lead from one to the other (`Token.Respelled`).  Spellings of each other are exactly the lists of words with the
same tokens (`Token.normalize_eq_iff_respelled`), so that a pipeline is read alike in all of its spellings.
-/

namespace DiceTally

namespace Token

/-- A text of white space only. -/
def IsGap (gap : String) : Prop := ∀ c ∈ gap.toList, isBlank c = true

/-- One word is cut in two at white space or in three at a bracket, or left out because it is empty. -/
inductive Cut : List String → List String → Prop where
  | gap (before after : List String) (front back : String) {gap : String} (hgap : IsGap gap) (hne : gap ≠ "") :
    Cut (before ++ (front ++ gap ++ back) :: after) (before ++ front :: back :: after)
  | bracket (before after : List String) (front back : String) {bracket : String}
    (hbracket : isBracket bracket = true) :
    Cut (before ++ (front ++ bracket ++ back) :: after) (before ++ front :: bracket :: back :: after)
  | empty (before after : List String) : Cut (before ++ "" :: after) (before ++ after)

/-- Lists of words that are made of each other by cutting words and by joining what has been cut. -/
def Respelled : List String → List String → Prop := Relation.EqvGen Cut

/-- White space is put on the sides of a bracket. -/
inductive Spaced : List String → List String → Prop where
  | bracket (before after : List String) (front back : String) {gap bracket gap' : String}
    (hbracket : isBracket bracket = true) (hgap : IsGap gap) (hgap' : IsGap gap') :
    Spaced (before ++ (front ++ bracket ++ back) :: after)
      (before ++ (front ++ gap ++ bracket ++ gap' ++ back) :: after)

/-- A text without its white space. -/
def withoutBlanks (s : String) : String := String.ofList (s.toList.filter fun c => !isBlank c)

/-! ### Where a text is cut -/

theorem close_eq_append (word : List Char) (rest : List (List Char)) : close word rest = close word [] ++ rest := by
  unfold close
  split <;> rfl

/-- What comes after the end of a word is cut as if it stood alone. -/
theorem scan_append_cons {c : Char} (tokens : List (List Char))
    (hends : ∀ word back, scan word (c :: back) = close word (tokens ++ scan [] back)) (word front back : List Char) :
    scan word (front ++ c :: back) = scan word front ++ (tokens ++ scan [] back) := by
  induction front generalizing word with
  | nil =>
    rw [List.nil_append, hends]
    exact close_eq_append ..
  | cons d front ih =>
    rw [List.cons_append, scan, scan, ih, ih]
    split
    · rw [close_eq_append, close_eq_append word (scan [] front), List.append_assoc]
    · split
      · rw [close_eq_append, close_eq_append word ([d] :: _), List.append_assoc, List.cons_append]
      · rfl

/-- The tokens before and after white space do not touch. -/
theorem scan_append_blank {c : Char} (h : isBlank c = true) (word front back : List Char) :
    scan word (front ++ c :: back) = scan word front ++ scan [] back :=
  scan_append_cons [] (fun word back => by rw [scan, if_pos h, List.nil_append]) word front back

/-- A bracket stands between the tokens before and after it. -/
theorem scan_append_bracket {c : Char} (h : isBracketChar c = true) (word front back : List Char) :
    scan word (front ++ c :: back) = scan word front ++ [c] :: scan [] back := by
  have hblank : ¬isBlank c = true := by
    simp only [isBracketChar, Bool.or_eq_true, beq_iff_eq] at h
    rcases h with rfl | rfl <;> decide
  exact scan_append_cons [[c]] (fun word back => by rw [scan, if_neg hblank, if_pos h]; rfl) word front back

theorem scan_append_gap {gap : List Char} (h : ∀ c ∈ gap, isBlank c = true) (hne : gap ≠ [])
    (word front back : List Char) : scan word (front ++ (gap ++ back)) = scan word front ++ scan [] back := by
  induction gap generalizing word front with
  | nil => exact absurd rfl hne
  | cons c gap ih =>
    obtain ⟨hc, hgap⟩ := List.forall_mem_cons.1 h
    rw [List.cons_append, scan_append_blank hc]
    by_cases hlast : gap = []
    · rw [hlast, List.nil_append]
    · have hrest := ih hgap hlast [] []
      rw [List.nil_append] at hrest
      rw [hrest]
      rfl

theorem flatten_scan (word text : List Char) :
    (scan word text).flatten = word.reverse ++ text.filter fun c => !isBlank c := by
  have hclose (word : List Char) (rest : List (List Char)) :
      (close word rest).flatten = word.reverse ++ rest.flatten := by
    unfold close
    split
    · rename_i hword
      rw [List.isEmpty_iff.1 hword]
      rfl
    · rfl
  induction text generalizing word with
  | nil => exact hclose word []
  | cons c text ih =>
    unfold scan
    split
    · rename_i hblank
      rw [hclose, ih]
      simp [hblank]
    · rename_i hblank
      split
      · rw [hclose, List.flatten_cons, ih]
        simp [hblank]
      · rw [ih]
        simp [hblank]

section Texts

variable {gap bracket : String}

theorem ofText_empty : ofText "" = [] := rfl

theorem ofText_gap (front back : String) (hgap : IsGap gap) (hne : gap ≠ "") :
    ofText (front ++ gap ++ back) = ofText front ++ ofText back := by
  have hletters : gap.toList ≠ [] := by simpa using hne
  rw [ofText, String.toList_append, String.toList_append, List.append_assoc, scan_append_gap hgap hletters,
    List.map_append]
  rfl

theorem ofText_bracket (front back : String) (hbracket : isBracket bracket = true) :
    ofText (front ++ bracket ++ back) = ofText front ++ bracket :: ofText back := by
  obtain ⟨c, hc, rfl⟩ : ∃ c, isBracketChar c = true ∧ bracket = String.ofList [c] := by
    simp only [isBracket, Bool.or_eq_true, beq_iff_eq] at hbracket
    rcases hbracket with rfl | rfl
    · exact ⟨'[', by decide, by decide⟩
    · exact ⟨']', by decide, by decide⟩
  rw [ofText, String.toList_append, String.toList_append, String.toList_ofList, List.append_assoc,
    List.singleton_append, scan_append_bracket hc, List.map_append, List.map_cons]
  rfl

end Texts

/-! ### Spellings have the same tokens -/

variable {words words' : List String}

theorem normalize_cons_eq (word : String) (words : List String) :
    normalize (word :: words) = ofText word ++ normalize words := rfl

theorem normalize_eq_of_cut (h : Cut words words') : normalize words' = normalize words := by
  cases h with
  | gap before after front back hgap hne =>
    rw [normalize_append, normalize_append, normalize_cons_eq, normalize_cons_eq, normalize_cons_eq,
      ofText_gap front back hgap hne, List.append_assoc]
  | bracket before after front back hbracket =>
    have hself := ofText_bracket "" "" hbracket
    rw [String.empty_append, String.append_empty, ofText_empty, List.nil_append] at hself
    rw [normalize_append, normalize_append, normalize_cons_eq, normalize_cons_eq, normalize_cons_eq, normalize_cons_eq,
      ofText_bracket front back hbracket, hself, List.append_assoc]
    rfl
  | empty => rw [normalize_append, normalize_append, normalize_cons_eq, ofText_empty, List.nil_append]

theorem Respelled.normalize_eq (h : Respelled words words') : normalize words' = normalize words := by
  induction h with
  | rel _ _ h => exact normalize_eq_of_cut h
  | refl _ => rfl
  | symm _ _ _ ih => exact ih.symm
  | trans _ _ _ _ _ ih ih' => exact ih'.trans ih

/-! ### Lists of words with the same tokens are spellings of each other -/

theorem Respelled.refl (words : List String) : Respelled words words := Relation.EqvGen.refl words

theorem Respelled.symm (h : Respelled words words') : Respelled words' words := Relation.EqvGen.symm _ _ h

theorem Respelled.trans {words'' : List String} (h : Respelled words words') (h' : Respelled words' words'') :
    Respelled words words'' := Relation.EqvGen.trans _ _ _ h h'

theorem Respelled.of_cut (h : Cut words words') : Respelled words words' := Relation.EqvGen.rel _ _ h

theorem Cut.between (h : Cut words words') (front back : List String) :
    Cut (front ++ words ++ back) (front ++ words' ++ back) := by
  cases h with
  | gap before after start rest hgap hne => simpa using Cut.gap (front ++ before) (after ++ back) start rest hgap hne
  | bracket before after start rest hbracket =>
    simpa using Cut.bracket (front ++ before) (after ++ back) start rest hbracket
  | empty before after => simpa using Cut.empty (front ++ before) (after ++ back)

/-- A part of the words may be spelled in another way. -/
theorem Respelled.between (h : Respelled words words') (front back : List String) :
    Respelled (front ++ words ++ back) (front ++ words' ++ back) := by
  induction h with
  | rel _ _ h => exact .of_cut (h.between front back)
  | refl _ => exact .refl _
  | symm _ _ _ ih => exact ih.symm
  | trans _ _ _ _ _ ih ih' => exact ih.trans ih'

theorem Respelled.append {more more' : List String} (h : Respelled words words') (h' : Respelled more more') :
    Respelled (words ++ more) (words' ++ more') := by
  have hfront := h.between [] more
  have hback := h'.between words' []
  simp only [List.nil_append, List.append_nil] at hfront hback
  exact hfront.trans hback

/-- A text is cut step by step into its tokens; the word being read is still joined with the rest of the text. -/
theorem respelled_scan (word text : List Char) :
    Respelled [String.ofList (word.reverse ++ text)] ((scan word text).map String.ofList) := by
  have hclose (word : List Char) {rest : List String} {tokens : List (List Char)}
      (h : Respelled rest (tokens.map String.ofList)) :
      Respelled (String.ofList word.reverse :: rest) ((close word tokens).map String.ofList) := by
    unfold close
    split
    · rename_i hword
      rw [List.isEmpty_iff.1 hword]
      exact (Respelled.of_cut (Cut.empty [] _)).trans h
    · exact (Respelled.refl [_]).append h
  induction text generalizing word with
  | nil =>
    rw [List.append_nil]
    exact hclose word (.refl [])
  | cons c text ih =>
    have hrest := ih []
    rw [List.reverse_nil, List.nil_append] at hrest
    have hjoined : String.ofList (word.reverse ++ c :: text) =
        String.ofList word.reverse ++ String.ofList [c] ++ String.ofList text := by
      rw [← String.ofList_append, ← String.ofList_append, List.append_assoc, List.singleton_append]
    unfold scan
    split
    · rename_i hblank
      have hgap : IsGap (String.ofList [c]) := by simpa [IsGap] using hblank
      have hcut := Cut.gap [] [] (.ofList word.reverse) (.ofList text) hgap (by simp)
      rw [hjoined]
      exact (Respelled.of_cut hcut).trans (hclose word hrest)
    · split
      · rename_i hbracket
        have hsingle : isBracket (String.ofList [c]) = true := by
          simp only [isBracketChar, Bool.or_eq_true, beq_iff_eq] at hbracket
          rcases hbracket with rfl | rfl <;> decide
        have hcut := Cut.bracket [] [] (.ofList word.reverse) (.ofList text) hsingle
        rw [hjoined]
        exact (Respelled.of_cut hcut).trans (hclose word ((Respelled.refl [_]).append hrest))
      · have hword := ih (c :: word)
        rwa [List.reverse_cons, List.append_assoc, List.singleton_append] at hword

theorem respelled_normalize (words : List String) : Respelled words (normalize words) := by
  induction words with
  | nil => exact .refl []
  | cons word words ih =>
    have hword := respelled_scan [] word.toList
    rw [List.reverse_nil, List.nil_append, String.ofList_toList] at hword
    exact hword.append ih

/-- The spellings of a pipeline are the lists of words with its tokens. -/
theorem normalize_eq_iff_respelled : normalize words' = normalize words ↔ Respelled words words' := by
  constructor
  · intro h
    have hback := (respelled_normalize words').symm
    rw [h] at hback
    exact (respelled_normalize words).trans hback
  · exact Respelled.normalize_eq

/-! ### Words joined, and white space at brackets -/

/-- Words may be joined with spaces. -/
theorem respelled_unwords (words : List String) : Respelled words [unwords words] := by
  induction words with
  | nil => exact (Respelled.of_cut (Cut.empty [] [])).symm
  | cons word words ih =>
    cases words with
    | nil => exact .refl [word]
    | cons next words =>
      have hspace : IsGap " " := by simp [IsGap, isBlank]
      have hjoined : unwords (word :: next :: words) = word ++ " " ++ unwords (next :: words) :=
        String.intercalate_cons_cons
      have hcut := Cut.gap [] [] word (unwords (next :: words)) hspace (by decide)
      rw [hjoined]
      exact ((Respelled.refl [word]).append ih).trans (Respelled.of_cut hcut).symm

theorem Spaced.normalize_eq (h : Spaced words words') : normalize words' = normalize words := by
  obtain ⟨before, after, front, back, hbracket, hgap, hgap'⟩ := h
  rename_i gap bracket gap'
  have hfront : ofText (front ++ gap) = ofText front := by
    by_cases hne : gap = ""
    · rw [hne, String.append_empty]
    · have hcut := ofText_gap front "" hgap hne
      rwa [String.append_empty, ofText_empty, List.append_nil] at hcut
  have hback : ofText (gap' ++ back) = ofText back := by
    by_cases hne : gap' = ""
    · rw [hne, String.empty_append]
    · have hcut := ofText_gap "" back hgap' hne
      rwa [String.empty_append, ofText_empty, List.nil_append] at hcut
  have hword : ofText (front ++ gap ++ bracket ++ gap' ++ back) = ofText (front ++ bracket ++ back) := by
    have hsides : front ++ gap ++ bracket ++ gap' ++ back = (front ++ gap) ++ bracket ++ (gap' ++ back) :=
      String.append_assoc
    rw [hsides, ofText_bracket _ _ hbracket, ofText_bracket _ _ hbracket, hfront, hback]
  rw [normalize_append, normalize_append, normalize_cons_eq, normalize_cons_eq, hword]

/-! ### The laws of tokens -/

/-- The tokens are the words without their white space. -/
theorem join_normalize (words : List String) : String.join (normalize words) = withoutBlanks (String.join words) := by
  have htext (word : String) : String.join (ofText word) = withoutBlanks word := by
    have hletters := flatten_scan [] word.toList
    rw [List.reverse_nil, List.nil_append] at hletters
    rw [← String.toList_inj, withoutBlanks, String.toList_ofList, ← hletters, String.toList_join, ofText,
      List.flatMap_map]
    simp [List.flatMap_def]
  induction words with
  | nil => rfl
  | cons word words ih =>
    rw [normalize_cons_eq, String.join_append, htext, ih, String.join_cons, withoutBlanks, withoutBlanks,
      withoutBlanks, String.toList_append, List.filter_append, String.ofList_append]

theorem letters_of_mem_normalize {t : String} (h : t ∈ normalize words) :
    t ≠ "" ∧ (∀ c ∈ t.toList, isBlank c = false) ∧
      (t = "[" ∨ t = "]" ∨ ∀ c ∈ t.toList, isBracketChar c = false) := by
  rcases isToken_of_mem_normalize h with rfl | rfl | ⟨hne, hplain⟩
  · simp [isBlank]
  · simp [isBlank]
  · have hletters : ∀ c ∈ t.toList, isBlank c = false ∧ isBracketChar c = false := by
      simpa [splitsApart, List.any_eq_false] using hplain
    exact ⟨hne, fun c hc => (hletters c hc).1, .inr (.inr fun c hc => (hletters c hc).2)⟩

/-- The tokens of words are brackets, and words without white space and brackets; together they are the text without
its white space.  They do not depend on how the text was split into words: they are cut no further, they are also the
tokens of the words joined with spaces, and white space on the sides of a bracket does not count.  Exactly the spellings
of a list of words have its tokens, and a pipeline is read alike in all of them. -/
theorem normalize_laws (words : List String) :
    (∀ t ∈ normalize words, t ≠ "" ∧ (∀ c ∈ t.toList, isBlank c = false) ∧
        (t = "[" ∨ t = "]" ∨ ∀ c ∈ t.toList, isBracketChar c = false)) ∧
      String.join (normalize words) = withoutBlanks (String.join words) ∧
      normalize (normalize words) = normalize words ∧ normalize [unwords words] = normalize words ∧
      (∀ words', Spaced words words' ∨ Spaced words' words → normalize words' = normalize words) ∧
      (∀ words', normalize words' = normalize words ↔ Respelled words words') ∧
      ∀ words', Respelled words words' → ∀ language,
        Operation.parse language words' = Operation.parse language words := by
  refine ⟨fun _ => letters_of_mem_normalize, join_normalize words, normalize_eq_self fun _ => isToken_of_mem_normalize,
    (respelled_unwords words).normalize_eq, ?spaced, fun _ => normalize_eq_iff_respelled, ?parse⟩
  case spaced =>
    rintro words' (h | h)
    · exact h.normalize_eq
    · exact h.normalize_eq.symm
  case parse =>
    intro words' h language
    rw [Operation.parse, Operation.parse, h.normalize_eq]

/-- Brackets glued to the words, and the same pipeline with white space at one of them, a tabulator and a line
separator among it. -/
theorem normalize_laws_glued :
    "]" ∈ normalize ["[add", "2]if eq 1"] ∧
      Spaced ["[add", "2]if eq 1"] ["[add", "2\t]\u2028 if eq 1"] ∧
      normalize ["[add", "2\t]\u2028 if eq 1"] = normalize ["[add", "2]if eq 1"] ∧
      Respelled ["[add", "2]if eq 1"] ["[ add 2 ]", "", "if", "eq 1"] ∧
      Operation.parse ⟨.empty, ⟨true, true⟩⟩ ["[ add 2 ]", "", "if", "eq 1"] =
        Operation.parse ⟨.empty, ⟨true, true⟩⟩ ["[add", "2]if eq 1"] := by
  have hspaced : Spaced ["[add", "2]if eq 1"] ["[add", "2\t]\u2028 if eq 1"] := by
    have hbefore : IsGap "\t" := by simp [IsGap, isBlank]
    have hafter : IsGap "\u2028 " := by simp [IsGap, isBlank]
    have hbracket : isBracket "]" = true := by decide
    exact Spaced.bracket ["[add"] [] "2" "if eq 1" hbracket hbefore hafter
  obtain ⟨-, -, -, -, hgaps, hspellings, hparse⟩ := normalize_laws ["[add", "2]if eq 1"]
  have hrespelled : Respelled ["[add", "2]if eq 1"] ["[ add 2 ]", "", "if", "eq 1"] :=
    (hspellings _).1 (by decide)
  exact ⟨by decide, hspaced, hgaps _ (.inl hspaced), hrespelled, hparse _ hrespelled _⟩

end Token

end DiceTally
