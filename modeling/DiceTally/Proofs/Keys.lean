import DiceTally.Proofs.Document
import DiceTally.Proofs.Json.Integers

/-!
# Keys as texts

What a key may be written like: an array of integer literals with blanks around them, or one such literal
(`Document.Denotes`).  A text is read as a key exactly when it is written like this, and as the result that it denotes;
any other text is refused (`Document.decodeKey_cases`).
-/

namespace DiceTally

open Json (parse? readValue)

namespace Document

/-! ### Texts that denote a result -/

/-- The literal of a value with blanks around it. -/
def IsItem (cs : List Char) (v : Value) : Prop :=
  ∃ front literal back, IsBlank front ∧ IsLiteral literal v.toInt ∧ IsBlank back ∧ front ++ (literal ++ back) = cs

/-- Literals separated by commas, at least one. -/
inductive Lists : List Char → Tuple → Prop where
  | last {item : List Char} {v : Value} (h : IsItem item v) : Lists item [v]
  | more {item items : List Char} {v : Value} {key : Tuple} (h : IsItem item v) (hrest : Lists items key) :
    Lists (item ++ ',' :: items) (v :: key)

/-- A text that stands for a result. -/
inductive Denotes : List Char → Tuple → Prop where
  | value {cs : List Char} {v : Value} (h : IsItem cs v) : Denotes cs [v]
  | empty {front gap back : List Char} (hfront : IsBlank front) (hgap : IsBlank gap) (hback : IsBlank back) :
    Denotes (front ++ '[' :: (gap ++ ']' :: back)) []
  | array {front items back : List Char} {key : Tuple} (hfront : IsBlank front) (h : Lists items key)
    (hback : IsBlank back) : Denotes (front ++ '[' :: (items ++ ']' :: back)) key

variable {cs items rest : List Char} {key : Tuple} {v : Value} {depth fuel : Nat}

/-! ### What denotes a result is read as this result -/

theorem endsNumber_blank {blanks : List Char} (h : IsBlank blanks) : EndsNumber blanks := by
  intro c hc
  have hblank : isJsonBlank c = true := h c (List.mem_of_mem_head? hc)
  simp only [isJsonBlank, Bool.or_eq_true, beq_iff_eq] at hblank
  rcases hblank with ((rfl | rfl) | rfl) | rfl <;> decide

theorem endsNumber_append {blanks : List Char} (h : IsBlank blanks) {c : Char} (hc : c = ',' ∨ c = ']')
    (rest : List Char) : EndsNumber (blanks ++ c :: rest) := by
  cases blanks with
  | nil =>
    intro d hd
    obtain rfl := Option.some.inj hd
    rcases hc with rfl | rfl <;> decide
  | cons b bs => exact fun d hd => endsNumber_blank h d hd

/-- The literal of a value is never out of range. -/
theorem readValue_valueLiteral {literal blanks : List Char} (h : IsLiteral literal v.toInt) (hblanks : IsBlank blanks)
    (hrest : EndsNumber rest) (depth : Nat) :
    readValue depth (blanks ++ (literal ++ rest)) = some (.number (.int v.toInt), rest) := by
  have hbound : (Value.bound : Int) ≤ bound64 := by decide
  exact readValue_literal h v.le_toInt (Int.lt_of_lt_of_le v.toInt_lt hbound) hblanks hrest depth

/-- An item is read as the integer that it writes, and the comma or bracket behind it comes next. -/
theorem readValue_item (h : IsItem cs v) {c : Char} (hc : c = ',' ∨ c = ']') (depth : Nat) (rest : List Char) :
    ∃ back, readValue depth (cs ++ c :: rest) = some (.number (.int v.toInt), back ++ c :: rest) ∧
      skipJsonBlank (back ++ c :: rest) = c :: rest := by
  obtain ⟨front, literal, back, hfront, hliteral, hback, rfl⟩ := h
  have hread := readValue_valueLiteral hliteral hfront (endsNumber_append hback hc rest) depth
  refine ⟨back, by rw [List.append_assoc, List.append_assoc, hread], ?_⟩
  rw [skipJsonBlank_append hback, skipJsonBlank_cons (by rcases hc with rfl | rfl <;> decide)]

theorem readSeparated_lists (h : Lists items key) (hfuel : key.length ≤ fuel) (depth : Nat) (rest : List Char) :
    readSeparated (readValue depth) ']' fuel (items ++ ']' :: rest) = some (keyItems key, rest) := by
  induction h generalizing fuel with
  | last hitem =>
    obtain ⟨fuel, rfl⟩ : ∃ k, fuel = k + 1 := Nat.exists_eq_succ_of_ne_zero (Nat.ne_of_gt hfuel)
    obtain ⟨back, hread, hskip⟩ := readValue_item hitem (.inr rfl) depth rest
    rw [readSeparated, hread]
    simp [hskip, keyItems]
  | @more item items v key hitem _ ih =>
    obtain ⟨fuel, rfl⟩ : ∃ k, fuel = k + 1 := Nat.exists_eq_succ_of_ne_zero (Nat.ne_of_gt (Nat.zero_lt_of_lt hfuel))
    obtain ⟨back, hread, hskip⟩ := readValue_item hitem (.inl rfl) depth (items ++ ']' :: rest)
    have hmore := ih (Nat.le_of_succ_le_succ hfuel)
    rw [List.append_assoc, List.cons_append, readSeparated, hread]
    simp [hskip, hmore, keyItems]

/-- The first character of the items that is no blank is not the closing bracket. -/
theorem IsItem.exists_cons (h : IsItem cs v) :
    ∃ front c more, cs = front ++ c :: more ∧ IsBlank front ∧ isJsonBlank c = false ∧ c ≠ ']' := by
  obtain ⟨front, literal, back, hfront, hliteral, -, rfl⟩ := h
  obtain ⟨c, more, rfl, hc⟩ := hliteral.exists_cons
  have hother : ∀ d ∈ [' ', '\t', '\n', '\r', ']'], c ≠ d := ne_of_startsNumber hc (by decide)
  exact ⟨front, c, more ++ back, rfl, hfront, by simp [isJsonBlank, hother], hother ']' (by decide)⟩

theorem Lists.exists_cons (h : Lists items key) :
    ∃ front c more, items = front ++ c :: more ∧ IsBlank front ∧ isJsonBlank c = false ∧ c ≠ ']' := by
  cases h with
  | last h => exact h.exists_cons
  | more h _ =>
    obtain ⟨front, c, more, rfl, hfront, hc⟩ := h.exists_cons
    exact ⟨front, c, _, by rw [List.append_assoc, List.cons_append], hfront, hc⟩

theorem Lists.length_le (h : Lists items key) : key.length ≤ items.length := by
  induction h with
  | last h =>
    obtain ⟨front, c, more, rfl, -⟩ := h.exists_cons
    rw [List.length_append, List.length_cons, List.length_cons, List.length_nil]
    omega
  | more _ _ ih =>
    simp only [List.length_append, List.length_cons]
    omega

theorem readItems_lists (h : Lists items key) (depth : Nat) (rest : List Char) :
    readItems (readValue depth) ']' (items ++ ']' :: rest) = some (keyItems key, rest) := by
  have hfuel : key.length ≤ (items ++ ']' :: rest).length := by
    rw [List.length_append]
    exact Nat.le_add_right_of_le h.length_le
  have hread := readSeparated_lists h hfuel depth rest
  obtain ⟨front, c, more, hitems, hfront, hblank, hc⟩ := h.exists_cons
  have hskip : skipJsonBlank (items ++ ']' :: rest) = c :: (more ++ ']' :: rest) := by
    rw [hitems, List.append_assoc, skipJsonBlank_append hfront, List.cons_append, skipJsonBlank_cons hblank]
  rw [readItems, hskip]
  simpa [hc] using hread

theorem readItems_blank {gap : List Char} (h : IsBlank gap) (depth : Nat) (rest : List Char) :
    readItems (readValue depth) ']' (gap ++ ']' :: rest) = some ([], rest) := by
  have hskip : skipJsonBlank (gap ++ ']' :: rest) = ']' :: rest := by
    rw [skipJsonBlank_append h, skipJsonBlank_cons (by decide)]
  simp [readItems, hskip]

theorem decodeKey_of_readItems {text : String} {front inner back : List Char}
    (htext : text.toList = front ++ '[' :: (inner ++ ']' :: back)) (hfront : IsBlank front) (hback : IsBlank back)
    (h : readItems (readValue 126) ']' (inner ++ ']' :: back) = some (keyItems key, back)) :
    decodeKey text = .ok key := by
  refine decodeKey_of_parse? ?_
  rw [parse?, Json.maxDepth, htext, readValue_blanks hfront, readValue_array, h]
  simp [skipJsonBlank_eq_nil_iff.2 hback]

theorem decodeKey_of_denotes {text : String} (h : Denotes text.toList key) : decodeKey text = .ok key := by
  generalize hcs : text.toList = cs at h
  cases h with
  | @value _ v h =>
    obtain ⟨front, literal, back, hfront, hliteral, hback, rfl⟩ := h
    have hread := readValue_valueLiteral hliteral hfront (endsNumber_blank hback) 127
    have hparse : parse? text = some (.number (.int v.toInt)) := by
      rw [parse?, Json.maxDepth, hcs, hread]
      simp [skipJsonBlank_eq_nil_iff.2 hback]
    rw [decodeKey, hparse]
    simp [valueOfJson?, Value.ofInt?_toInt]
  | empty hfront hgap hback => exact decodeKey_of_readItems hcs hfront hback (readItems_blank hgap 126 _)
  | array hfront h hback => exact decodeKey_of_readItems hcs hfront hback (readItems_lists h 126 _)

/-! ### What is read as a result denotes this result -/

theorem valueOfJson?_eq_some {value : Json} (h : valueOfJson? value = some v) : value = .number (.int v.toInt) := by
  unfold valueOfJson? at h
  split at h
  · rw [Value.toInt_of_ofInt? h]
  · cases h

theorem item_of_readValue {value : Json} (h : readValue depth cs = some (value, rest)) (hv : valueOfJson? value = some v)
    {back after : List Char} (hback : IsBlank back) (hrest : back ++ after = rest) :
    ∃ item, IsItem item v ∧ item ++ after = cs := by
  obtain rfl := valueOfJson?_eq_some hv
  obtain ⟨front, literal, hfront, hliteral, hcs⟩ := literal_of_readValue h
  refine ⟨front ++ (literal ++ back), ⟨front, literal, back, hfront, hliteral, hback, rfl⟩, ?_⟩
  rw [← hcs, ← hrest]
  simp

theorem lists_of_readSeparated {values : List Json}
    (h : readSeparated (readValue depth) ']' fuel cs = some (values, rest))
    (hkey : values.mapM valueOfJson? = some key) : ∃ items, Lists items key ∧ items ++ ']' :: rest = cs := by
  induction fuel generalizing cs values key with
  | zero => cases h
  | succ fuel ih =>
    rw [readSeparated] at h
    obtain ⟨⟨first, cs'⟩, hfirst, h⟩ := Option.bind_eq_some_iff.1 h
    obtain ⟨back, hback, hskip⟩ := exists_skipped cs'
    dsimp only at h
    split at h
    · cases h
    rename_i c after hafter
    rw [hafter] at hskip
    split at h
    · rename_i hc
      obtain rfl : c = ']' := by simpa using hc
      cases h
      obtain ⟨v, _, hv, hnil, rfl⟩ := List.forall₂_cons_left_iff.1 (mapM_eq_some_iff.1 hkey)
      cases hnil
      obtain ⟨item, hitem, hcs⟩ := item_of_readValue hfirst hv hback hskip
      exact ⟨item, .last hitem, hcs⟩
    · split at h
      · rename_i hc
        obtain rfl : c = ',' := by simpa using hc
        obtain ⟨⟨others, cs''⟩, hothers, h⟩ := Option.bind_eq_some_iff.1 h
        cases h
        obtain ⟨v, key', hv, hkey', rfl⟩ := List.forall₂_cons_left_iff.1 (mapM_eq_some_iff.1 hkey)
        obtain ⟨item, hitem, hcs⟩ := item_of_readValue hfirst hv hback hskip
        obtain ⟨items, hitems, hrest⟩ := ih hothers (mapM_eq_some_iff.2 hkey')
        exact ⟨item ++ ',' :: items, .more hitem hitems, by rw [← hcs, ← hrest, List.append_assoc, List.cons_append]⟩
      · cases h

theorem denotes_of_readItems {values : List Json} {front back : List Char}
    (h : readItems (readValue depth) ']' cs = some (values, back)) (hkey : values.mapM valueOfJson? = some key)
    (hfront : IsBlank front) (hback : IsBlank back) : Denotes (front ++ '[' :: cs) key := by
  obtain ⟨gap, hgap, hskip⟩ := exists_skipped cs
  unfold readItems at h
  split at h
  · cases h
  rename_i c after hafter
  rw [hafter] at hskip
  split at h
  · rename_i hc
    obtain rfl : c = ']' := by simpa using hc
    cases h
    obtain rfl : [] = key := by simpa using hkey
    exact hskip ▸ .empty hfront hgap hback
  · obtain ⟨items, hitems, hcs⟩ := lists_of_readSeparated h hkey
    exact hcs ▸ .array hfront hitems hback

theorem parse?_eq_some {text : String} {value : Json} (h : parse? text = some value) :
    ∃ back, readValue Json.maxDepth text.toList = some (value, back) ∧ IsBlank back := by
  unfold parse? at h
  split at h
  · rename_i value' back hread
    split at h
    · rename_i hback
      cases h
      exact ⟨back, hread, skipJsonBlank_eq_nil_iff.1 (List.isEmpty_iff.1 hback)⟩
    · cases h
  · cases h

theorem denotes_of_decodeKey {text : String} (h : decodeKey text = .ok key) : Denotes text.toList key := by
  unfold decodeKey at h
  dsimp only at h
  split at h
  · rename_i key' hkey
    cases h
    split at hkey
    · rename_i values hparse
      obtain ⟨back, hread, hback⟩ := parse?_eq_some hparse
      obtain ⟨front, cs, depth, hfront, htext, hitems⟩ := array_of_readValue hread
      exact htext ▸ denotes_of_readItems hitems hkey hfront hback
    · rename_i value hparse
      obtain ⟨back, hread, hback⟩ := parse?_eq_some hparse
      obtain ⟨v, hv, rfl⟩ := Option.map_eq_some_iff.1 hkey
      obtain ⟨item, hitem, htext⟩ := item_of_readValue hread hv hback (List.append_nil back)
      rw [List.append_nil] at htext
      exact .value (htext ▸ hitem)
    · cases hkey
  · cases h

theorem decodeKey_eq_ok_iff {text : String} : decodeKey text = .ok key ↔ Denotes text.toList key :=
  ⟨denotes_of_decodeKey, decodeKey_of_denotes⟩

/-- Keys are read back as they were written, so that no two results share one.  A text is read as a result exactly when
it denotes this result, as an array of integer literals or as a single one, and every other text is refused as an
invalid key. -/
theorem decodeKey_cases :
    (∀ key : Tuple, decodeKey (encodeKey key) = .ok key) ∧ Function.Injective encodeKey ∧
      (∀ (text : String) (key : Tuple), decodeKey text = .ok key ↔ Denotes text.toList key) ∧
      ∀ (text : String) (e : DocumentError), decodeKey text = .error e ↔
        e = .invalidKey text ∧ ¬∃ key, Denotes text.toList key := by
  refine ⟨decodeKey_encodeKey, encodeKey_injective, fun text key => decodeKey_eq_ok_iff, fun text e => ?_⟩
  simp only [← decodeKey_eq_ok_iff]
  have hfails : (∃ key, decodeKey text = .ok key) ∨ decodeKey text = .error (.invalidKey text) := by
    unfold decodeKey
    dsimp only
    split
    · exact .inl ⟨_, rfl⟩
    · exact .inr rfl
  rcases hfails with ⟨key, h⟩ | h
  · simp [h]
  · simp [h, eq_comm]

end Document

end DiceTally
