import DiceTally.Registry

/-!
# Tokens read back

`Token.normalize` gives tokens only (`isToken_of_mem_normalize`), and tokens written with spaces between them are
read back as they were (`normalize_unwords`).
-/

namespace DiceTally

namespace Token

/-- A bracket, or a word without white space and brackets. -/
def IsToken (t : String) : Prop := t = "[" ∨ t = "]" ∨ (t ≠ "" ∧ splitsApart t = false)

/-- The letters of a word, or a bracket alone. -/
def TokenChars (cs : List Char) : Prop :=
  cs = ['['] ∨ cs = [']'] ∨ (cs ≠ [] ∧ ∀ c ∈ cs, isBlank c = false ∧ isBracketChar c = false)

theorem tokenChars_toList {t : String} (h : IsToken t) : TokenChars t.toList := by
  rcases h with rfl | rfl | ⟨hne, hplain⟩
  · exact .inl (by decide)
  · exact .inr (.inl (by decide))
  · refine .inr (.inr ⟨by simpa using hne, fun c hc => ?_⟩)
    have hplain := List.any_eq_false.1 hplain c hc
    simpa [not_or] using hplain

theorem isToken_ofList {cs : List Char} (h : TokenChars cs) : IsToken (String.ofList cs) := by
  rcases h with rfl | rfl | ⟨hne, hplain⟩
  · exact .inl (by decide)
  · exact .inr (.inl (by decide))
  · refine .inr (.inr ⟨by simpa using hne, ?_⟩)
    unfold splitsApart
    rw [String.toList_ofList]
    refine List.any_eq_false.2 fun c hc => ?_
    simp [hplain c hc]

theorem isBlank_of_isDigit {c : Char} (h : c.isDigit = true) : isBlank c = false ∧ isBracketChar c = false := by
  simp only [Char.isDigit, Bool.and_eq_true, decide_eq_true_eq, UInt32.le_iff_toNat_le] at h
  have hcode : 48 ≤ c.toNat ∧ c.toNat ≤ 57 := h
  constructor
  · simp [isBlank]
    omega
  · simp only [isBracketChar, Bool.or_eq_false_iff, beq_eq_false_iff_ne]
    constructor
    · rintro rfl
      exact absurd hcode (by decide)
    · rintro rfl
      exact absurd hcode (by decide)

/-- A number is one token. -/
theorem isToken_of_number {s : String} (hne : s ≠ "")
    (h : ∀ c ∈ s.toList, c.isDigit = true ∨ c ∈ ['-', '+', '.']) : IsToken s := by
  have hsigns : ∀ c ∈ ['-', '+', '.'], (isBlank c || isBracketChar c) = false := by
    simp [isBlank, isBracketChar]
  refine .inr (.inr ⟨hne, ?_⟩)
  unfold splitsApart
  refine List.any_eq_false.2 fun c hc => ?_
  rcases h c hc with hdigit | hsign
  · simp [isBlank_of_isDigit hdigit]
  · simp [hsigns c hsign]

/-! ### What is cut -/

theorem tokenChars_of_mem_close {word cs : List Char} {rest : List (List Char)}
    (hword : ∀ c ∈ word, isBlank c = false ∧ isBracketChar c = false) (hrest : ∀ t ∈ rest, TokenChars t)
    (h : cs ∈ close word rest) : TokenChars cs := by
  unfold close at h
  split at h
  · exact hrest cs h
  · rename_i hne
    rcases List.mem_cons.1 h with rfl | h
    · exact .inr (.inr ⟨by simpa using hne, fun c hc => hword c (List.mem_reverse.1 hc)⟩)
    · exact hrest cs h

theorem tokenChars_of_mem_scan {word text cs : List Char}
    (hword : ∀ c ∈ word, isBlank c = false ∧ isBracketChar c = false) (h : cs ∈ scan word text) : TokenChars cs := by
  induction text generalizing word cs with
  | nil => exact tokenChars_of_mem_close hword (by simp) h
  | cons c text ih =>
    have hnone : ∀ d ∈ ([] : List Char), isBlank d = false ∧ isBracketChar d = false := by simp
    unfold scan at h
    split at h
    · exact tokenChars_of_mem_close hword (fun t ht => ih hnone ht) h
    · rename_i hblank
      split at h
      · rename_i hbracket
        refine tokenChars_of_mem_close hword (fun t ht => ?_) h
        rcases List.mem_cons.1 ht with rfl | ht
        · simp only [isBracketChar, Bool.or_eq_true, beq_iff_eq] at hbracket
          rcases hbracket with rfl | rfl
          · exact .inl rfl
          · exact .inr (.inl rfl)
        · exact ih hnone ht
      · rename_i hbracket
        refine ih (fun d hd => ?_) h
        rcases List.mem_cons.1 hd with rfl | hd
        · exact ⟨by simpa using hblank, by simpa using hbracket⟩
        · exact hword d hd

theorem isToken_of_mem_normalize {words : List String} {t : String} (h : t ∈ normalize words) : IsToken t := by
  obtain ⟨word, -, ht⟩ := List.mem_flatMap.1 h
  obtain ⟨cs, hcs, rfl⟩ := List.mem_map.1 ht
  exact isToken_ofList (tokenChars_of_mem_scan (by simp) hcs)

/-! ### Reading back -/

theorem scan_append {letters : List Char} (h : ∀ c ∈ letters, isBlank c = false ∧ isBracketChar c = false)
    (word text : List Char) : scan word (letters ++ text) = scan (letters.reverse ++ word) text := by
  induction letters generalizing word with
  | nil => rfl
  | cons c letters ih =>
    obtain ⟨hblank, hbracket⟩ := h c List.mem_cons_self
    rw [List.cons_append, scan, if_neg (by simp [hblank]), if_neg (by simp [hbracket]),
      ih fun d hd => h d (List.mem_cons_of_mem c hd)]
    simp

/-- A token is cut off where white space or nothing follows. -/
theorem scan_token {cs : List Char} (h : TokenChars cs) {text : List Char} {rest : List (List Char)}
    (hrest : ∀ word, scan word text = close word rest) : scan [] (cs ++ text) = cs :: rest := by
  rcases h with rfl | rfl | ⟨hne, hplain⟩
  · exact congrArg (['['] :: ·) (hrest [])
  · exact congrArg ([']'] :: ·) (hrest [])
  · rw [scan_append hplain, List.append_nil, hrest]
    simp [close, hne]

theorem ofText_unwords {ts : List String} (h : ∀ t ∈ ts, IsToken t) : ofText (unwords ts) = ts := by
  have hscan : scan [] (unwords ts).toList = ts.map String.toList := by
    induction ts with
    | nil => rfl
    | cons t ts ih =>
      have ht := tokenChars_toList (h t List.mem_cons_self)
      cases ts with
      | nil =>
        have hend := @scan_token t.toList ht [] [] fun word => by simp [scan]
        simpa [unwords] using hend
      | cons u us =>
        have ih := ih fun t ht => h t (List.mem_cons_of_mem _ ht)
        have hspace : ∀ word, scan word (' ' :: (unwords (u :: us)).toList) =
            close word ((u :: us).map String.toList) := fun word => by
          rw [scan, if_pos (by decide), ih]
        have hwords : (unwords (t :: u :: us)).toList = t.toList ++ ' ' :: (unwords (u :: us)).toList := by
          simp [unwords, String.intercalate_cons_cons]
        rw [hwords, scan_token ht hspace]
        rfl
  rw [ofText, hscan, List.map_map]
  simp [Function.comp_def]

/-- Tokens written with spaces between them are read back. -/
theorem normalize_unwords {ts : List String} (h : ∀ t ∈ ts, IsToken t) : normalize [unwords ts] = ts := by
  rw [normalize, List.flatMap_cons, List.flatMap_nil, List.append_nil, ofText_unwords h]

theorem ofText_eq_self {t : String} (h : IsToken t) : ofText t = [t] := by
  have hwords := ofText_unwords (List.forall_mem_singleton.2 h)
  rwa [unwords, String.intercalate_singleton] at hwords

theorem normalize_cons {t : String} (h : IsToken t) (words : List String) :
    normalize (t :: words) = t :: normalize words := by
  rw [normalize, List.flatMap_cons, ofText_eq_self h]
  rfl

/-- Tokens are not cut any further. -/
theorem normalize_eq_self {ts : List String} (h : ∀ t ∈ ts, IsToken t) : normalize ts = ts := by
  induction ts with
  | nil => rfl
  | cons t ts ih =>
    obtain ⟨ht, hts⟩ := List.forall_mem_cons.1 h
    rw [normalize_cons ht, ih hts]

theorem normalize_append (words more : List String) : normalize (words ++ more) = normalize words ++ normalize more :=
  List.flatMap_append

end Token

end DiceTally
