import DiceTally.Json.Parser
import DiceTally.Proofs.Value

/-!
# Reading back what is written as JSON

Numbers in their parts (`NumberText.readNumberText_chars`), integers in range (`readValue_int`), strings without
special characters (`readStringChars_plain`) and items with commas between them (`readItems_intercalate`) are read
from the front of a text, whatever follows as long as it ends them.
-/

namespace DiceTally

/-! ### Blanks -/

/-- White space of JSON. -/
def isJsonBlank (c : Char) : Bool := c == ' ' || c == '\t' || c == '\n' || c == '\r'

theorem skipJsonBlank_append {blanks : List Char} (h : ∀ c ∈ blanks, isJsonBlank c = true) (cs : List Char) :
    skipJsonBlank (blanks ++ cs) = skipJsonBlank cs :=
  List.dropWhile_append_of_pos h

theorem skipJsonBlank_cons {c : Char} (h : isJsonBlank c = false) (cs : List Char) :
    skipJsonBlank (c :: cs) = c :: cs :=
  List.dropWhile_cons_of_neg (by rw [← isJsonBlank, h]; decide)

/-! ### Integers -/

theorem head?_toDigits {n : Nat} (h : 0 < n) : (Nat.toDigits 10 n).head? ≠ some '0' := by
  induction n using Nat.strongRecOn with
  | ind n ih =>
    by_cases hsmall : n < 10
    · have hdigits : ∀ k < 10, 0 < k → (Nat.toDigits 10 k).head? ≠ some '0' := by decide
      exact hdigits n hsmall h
    · have hlead := ih (n / 10) (by omega) (by omega)
      rw [Nat.toDigits_of_base_le (by decide) (by omega), List.head?_append]
      cases hhead : (Nat.toDigits 10 (n / 10)).head? with
      | none => exact absurd (List.head?_eq_none_iff.1 hhead) Nat.toDigits_ne_nil
      | some c => rwa [hhead] at hlead

/-- What may follow a number. -/
def EndsNumber (rest : List Char) : Prop :=
  ∀ c ∈ rest.head?, c.isDigit = false ∧ c ≠ '.' ∧ c ≠ 'e' ∧ c ≠ 'E'

/-- One or more digits. -/
def IsDigits (cs : List Char) : Prop := cs ≠ [] ∧ ∀ c ∈ cs, c.isDigit = true

theorem isDigits_toDigits (n : Nat) : IsDigits (Nat.toDigits 10 n) :=
  ⟨Nat.toDigits_ne_nil, fun _ hc => Nat.isDigit_of_mem_toDigits (by decide) (by decide) hc⟩

theorem readDigitRun_append {digits rest : List Char} (hdigits : IsDigits digits)
    (hrest : ∀ c ∈ rest.head?, c.isDigit = false) : readDigitRun (digits ++ rest) = some (digits, rest) := by
  have htake : rest.takeWhile Char.isDigit = [] := by
    cases rest with
    | nil => rfl
    | cons c cs => simp [hrest c rfl]
  have hdrop : rest.dropWhile Char.isDigit = rest := by
    cases rest with
    | nil => rfl
    | cons c cs => simp [hrest c rfl]
  unfold readDigitRun
  rw [List.takeWhile_append_of_pos hdigits.2, List.dropWhile_append_of_pos hdigits.2, htake, hdrop, List.append_nil]
  simp [hdigits.1]

theorem readExponent_of_endsNumber {rest : List Char} (h : EndsNumber rest) :
    readExponent rest = some (none, rest) := by
  cases rest with
  | nil => rfl
  | cons c cs =>
    have hmark : (c == 'e' || c == 'E') = false := by simp [(h c rfl).2.2]
    show (if (c == 'e' || c == 'E') = true then _ else _) = _
    rw [hmark]
    rfl

namespace NumberText

def signChars (t : NumberText) : List Char := if t.negative then ['-'] else []

def fractionChars (t : NumberText) : List Char :=
  match t.fraction with
  | none => []
  | some digits => '.' :: digits

def exponentChars (t : NumberText) : List Char :=
  match t.exponent with
  | none => []
  | some n => 'e' :: (if n < 0 then '-' else '+') :: Nat.toDigits 10 n.natAbs

/-- The number as it is written, the exponent with its sign. -/
def chars (t : NumberText) : List Char :=
  t.signChars ++ (t.whole ++ (t.fractionChars ++ t.exponentChars))

/-- Digits before the point, and behind it if there is one. -/
structure InDigits (t : NumberText) : Prop where
  whole : IsDigits t.whole
  fraction : ∀ digits ∈ t.fraction, IsDigits digits

variable {t : NumberText} {rest : List Char}

theorem readExponent_exponentChars (t : NumberText) (hrest : EndsNumber rest) :
    readExponent (t.exponentChars ++ rest) = some (t.exponent, rest) := by
  unfold exponentChars
  cases t.exponent with
  | none => exact readExponent_of_endsNumber hrest
  | some n =>
    have hrun : readDigitRun (Nat.toDigits 10 n.natAbs ++ rest) = some (Nat.toDigits 10 n.natAbs, rest) :=
      readDigitRun_append (isDigits_toDigits _) fun c hc => (hrest c hc).1
    have hdigits : Nat.ofDigitChars 10 (Nat.toDigits 10 n.natAbs) 0 = n.natAbs := Nat.ofDigitChars_ten_toDigits
    dsimp only
    by_cases hn : n < 0
    · have habs : -((Nat.ofDigitChars 10 (Nat.toDigits 10 n.natAbs) 0 : Nat) : Int) = n := by omega
      rw [if_pos hn]
      show (readDigitRun (Nat.toDigits 10 n.natAbs ++ rest)).map _ = _
      rw [hrun]
      exact congrArg (fun k => some (some k, rest)) habs
    · have habs : ((Nat.ofDigitChars 10 (Nat.toDigits 10 n.natAbs) 0 : Nat) : Int) = n := by omega
      rw [if_neg hn]
      show (readDigitRun (Nat.toDigits 10 n.natAbs ++ rest)).map _ = _
      rw [hrun]
      exact congrArg (fun k => some (some k, rest)) habs

theorem head?_exponentChars (t : NumberText) (hrest : EndsNumber rest) :
    ∀ c ∈ (t.exponentChars ++ rest).head?, c.isDigit = false ∧ c ≠ '.' := by
  unfold exponentChars
  cases t.exponent with
  | none => exact fun c hc => ⟨(hrest c hc).1, (hrest c hc).2.1⟩
  | some n =>
    rintro c hc
    obtain rfl : 'e' = c := Option.some.inj hc
    decide

theorem readFraction_fractionChars (h : t.InDigits) (hrest : EndsNumber rest) :
    readFraction (t.fractionChars ++ (t.exponentChars ++ rest)) = some (t.fraction, t.exponentChars ++ rest) := by
  have hhead := t.head?_exponentChars hrest
  unfold fractionChars
  cases hfraction : t.fraction with
  | none =>
    rw [List.nil_append]
    unfold readFraction
    split
    · rename_i heq
      exact absurd rfl (hhead '.' (by rw [heq]; rfl)).2
    · rfl
  | some digits =>
    have hrun := readDigitRun_append (h.fraction digits hfraction) fun c hc => (hhead c hc).1
    rw [List.cons_append, readFraction, hrun]
    rfl

theorem head?_fractionChars (t : NumberText) (hrest : EndsNumber rest) :
    ∀ c ∈ (t.fractionChars ++ (t.exponentChars ++ rest)).head?, c.isDigit = false := by
  unfold fractionChars
  cases t.fraction with
  | none => exact fun c hc => (t.head?_exponentChars hrest c hc).1
  | some digits =>
    rintro c hc
    obtain rfl : '.' = c := Option.some.inj hc
    decide

/-- A number is cut off a text as it was written, unless it begins with a zero in front of other digits. -/
theorem readNumberText_chars (h : t.InDigits) (hrest : EndsNumber rest) :
    readNumberText (t.chars ++ rest) =
      if 1 < t.whole.length && t.whole.head? == some '0' then none else some (t, rest) := by
  have hrun := readDigitRun_append h.whole (t.head?_fractionChars hrest)
  have hfraction := readFraction_fractionChars h hrest
  have hexponent := readExponent_exponentChars t hrest
  have hchars : t.chars ++ rest = t.signChars ++ (t.whole ++ (t.fractionChars ++ (t.exponentChars ++ rest))) := by
    simp [chars]
  have hresult : (⟨t.negative, t.whole, t.fraction, t.exponent⟩ : NumberText) = t := rfl
  rw [hchars]
  unfold readNumberText signChars
  cases hnegative : t.negative with
  | true =>
    rw [hnegative] at hresult
    simp [hrun, hfraction, hexponent, hresult]
  | false =>
    rw [hnegative] at hresult
    -- a digit is not taken for the sign
    obtain ⟨d, ds, hdigits⟩ := List.exists_cons_of_ne_nil h.whole.1
    have hsign : d ≠ '-' := by
      rintro rfl
      exact absurd (h.whole.2 '-' (by rw [hdigits]; exact List.mem_cons_self)) (by decide)
    rw [hdigits] at hrun hresult ⊢
    simp only [Bool.false_eq_true, if_false, List.nil_append, List.cons_append] at hrun ⊢
    split
    · rename_i hcut
      exact absurd (List.cons.inj hcut).1 hsign
    · simp [hrun, hfraction, hexponent, hresult]

theorem exists_cons_of_chars (h : t.InDigits) : ∃ c cs, t.chars = c :: cs ∧ (c.isDigit = true ∨ c = '-') := by
  unfold chars signChars
  cases t.negative with
  | true => exact ⟨'-', _, rfl, .inr rfl⟩
  | false =>
    obtain ⟨d, ds, hdigits⟩ := List.exists_cons_of_ne_nil h.whole.1
    have hd : d.isDigit = true := h.whole.2 d (by rw [hdigits]; exact List.mem_cons_self)
    exact ⟨d, _, by rw [hdigits]; rfl, .inl hd⟩

end NumberText

theorem readNumberText_signedDigits (n : Int) {rest : List Char} (hrest : EndsNumber rest) :
    readNumberText (signedDigits n ++ rest) = some (⟨decide (n < 0), Nat.toDigits 10 n.natAbs, none, none⟩, rest) := by
  have hdigits : NumberText.InDigits ⟨decide (n < 0), Nat.toDigits 10 n.natAbs, none, none⟩ :=
    ⟨isDigits_toDigits _, by simp⟩
  have hchars : signedDigits n = NumberText.chars ⟨decide (n < 0), Nat.toDigits 10 n.natAbs, none, none⟩ := by
    simp [signedDigits, NumberText.chars, NumberText.signChars, NumberText.fractionChars, NumberText.exponentChars]
  have hzero : 1 < (Nat.toDigits 10 n.natAbs).length → ¬(Nat.toDigits 10 n.natAbs).head? = some '0' := by
    intro hlength
    rcases Nat.eq_zero_or_pos n.natAbs with h | h
    · rw [h] at hlength
      exact absurd hlength (by decide)
    · exact head?_toDigits h
  rw [hchars, NumberText.readNumberText_chars hdigits hrest, if_neg (by simpa using hzero)]

theorem toNumber?_int {n : Int} (hlow : -Value.bound ≤ n) (hhigh : n < bound64) :
    NumberText.toNumber? ⟨decide (n < 0), Nat.toDigits 10 n.natAbs, none, none⟩ = some (.int n) := by
  unfold NumberText.toNumber?
  simp only [Nat.ofDigitChars_ten_toDigits]
  by_cases hn : n < 0
  · have hrange : 0 < n.natAbs ∧ (n.natAbs : Int) ≤ Value.bound := ⟨by omega, by omega⟩
    have habs : -(n.natAbs : Int) = n := by omega
    rw [decide_eq_true hn, if_pos (by simpa using hrange), if_pos rfl, habs]
  · have hrange : n.natAbs < bound64 := by omega
    have habs : (n.natAbs : Int) = n := by omega
    rw [decide_eq_false hn, if_pos (by simpa using hrange), if_neg Bool.false_ne_true, habs]

/-- A number can only begin with a digit or a minus sign, so with none of the others. -/
theorem ne_of_startsNumber {c : Char} (h : c.isDigit = true ∨ c = '-') {others : List Char}
    (hothers : (others.any fun d => d.isDigit || d == '-') = false) : ∀ d ∈ others, c ≠ d := by
  rintro _ hd rfl
  have hstart : (c.isDigit || c == '-') = true := by simpa using h
  exact List.any_eq_false.1 hothers c hd hstart

theorem readScalar_number {c : Char} (hc : c.isDigit = true ∨ c = '-') (cs : List Char) :
    Json.readScalar (c :: cs) = do
      let (text, rest) ← readNumberText (c :: cs)
      return (.number (← text.toNumber?), rest) := by
  have hno : ∀ d ∈ ['n', 't', 'f', '"'], c ≠ d := ne_of_startsNumber hc (by decide)
  unfold Json.readScalar
  split
  · rename_i heq
    exact absurd (List.cons.inj heq).1 (hno _ (by decide))
  · rename_i heq
    exact absurd (List.cons.inj heq).1 (hno _ (by decide))
  · rename_i heq
    exact absurd (List.cons.inj heq).1 (hno _ (by decide))
  · rename_i heq
    exact absurd (List.cons.inj heq).1 (hno _ (by decide))
  · rfl

/-- A value that begins with no bracket is read as one without parts, behind any blanks. -/
theorem readValue_scalar {c : Char} (hblank : isJsonBlank c = false) (hbracket : c ≠ '[' ∧ c ≠ '\x7b') (cs : List Char)
    {blanks : List Char} (hblanks : ∀ b ∈ blanks, isJsonBlank b = true) (depth : Nat) :
    Json.readValue depth (blanks ++ c :: cs) = Json.readScalar (c :: cs) := by
  have hskip : skipJsonBlank (blanks ++ c :: cs) = c :: cs := by
    rw [skipJsonBlank_append hblanks, skipJsonBlank_cons hblank]
  cases depth with
  | zero =>
    rw [Json.readValue, hskip]
    split
    · rename_i heq
      exact absurd (List.cons.inj heq).1 hbracket.1
    · rename_i heq
      exact absurd (List.cons.inj heq).1 hbracket.2
    · rfl
  | succ depth =>
    rw [Json.readValue, hskip]
    split
    · rename_i heq
      exact absurd (List.cons.inj heq).1 hbracket.1
    · rename_i heq
      exact absurd (List.cons.inj heq).1 hbracket.2
    · rfl

theorem readValue_number {c : Char} (hc : c.isDigit = true ∨ c = '-') (cs : List Char) {blanks : List Char}
    (hblanks : ∀ b ∈ blanks, isJsonBlank b = true) (depth : Nat) :
    Json.readValue depth (blanks ++ c :: cs) = do
      let (text, rest) ← readNumberText (c :: cs)
      return (.number (← text.toNumber?), rest) := by
  have hno : ∀ d ∈ [' ', '\t', '\n', '\r', '[', '\x7b'], c ≠ d := ne_of_startsNumber hc (by decide)
  have hblank : isJsonBlank c = false := by simp [isJsonBlank, hno]
  rw [readValue_scalar hblank (by simp [hno]) cs hblanks, readScalar_number hc]

/-- An integer in range is read back behind any blanks. -/
theorem readValue_int {n : Int} (hlow : -Value.bound ≤ n) (hhigh : n < bound64) {blanks rest : List Char}
    (hblanks : ∀ b ∈ blanks, isJsonBlank b = true) (hrest : EndsNumber rest) (depth : Nat) :
    Json.readValue depth (blanks ++ (signedDigits n ++ rest)) = some (.number (.int n), rest) := by
  obtain ⟨c, cs, hdigits⟩ := List.exists_cons_of_ne_nil (signedDigits_ne_nil n)
  have hc : c.isDigit = true ∨ c = '-' := mem_signedDigits (by rw [hdigits]; exact List.mem_cons_self)
  have hread := readNumberText_signedDigits n hrest
  rw [hdigits, List.cons_append] at hread ⊢
  rw [readValue_number hc _ hblanks, hread]
  simp [toNumber?_int hlow hhigh]

/-! ### Strings -/

/-- Whether a character stands for itself in a string. -/
def isPlain (c : Char) : Bool := c != '"' && c != '\\' && 32 ≤ c.toNat

theorem escapeChar_of_isPlain {c : Char} (h : isPlain c = true) : escapeChar c = [c] := by
  simp only [isPlain, Bool.and_eq_true, bne_iff_ne, decide_eq_true_eq] at h
  obtain ⟨⟨hquote, hslash⟩, hcode⟩ := h
  have hcontrol : ∀ d : Char, d.toNat < 32 → c ≠ d := by
    rintro d hd rfl
    omega
  unfold escapeChar
  rw [if_neg (by simp [hquote, hslash]), if_neg (by simpa using hcontrol '\n' (by decide)),
    if_neg (by simpa using hcontrol '\r' (by decide)), if_neg (by simpa using hcontrol '\t' (by decide)),
    if_neg (by omega), if_neg (by omega), if_neg (by omega)]

theorem quoteJson_plain {s : String} (h : ∀ c ∈ s.toList, isPlain c = true) :
    (quoteJson s).toList = '"' :: (s.toList ++ ['"']) := by
  have hflat : ∀ cs : List Char, (∀ c ∈ cs, isPlain c = true) → cs.flatMap escapeChar = cs := by
    intro cs hcs
    induction cs with
    | nil => rfl
    | cons c cs ih =>
      obtain ⟨hc, hrest⟩ := List.forall_mem_cons.1 hcs
      rw [List.flatMap_cons, escapeChar_of_isPlain hc, ih hrest, List.singleton_append]
  rw [quoteJson, hflat _ h, String.toList_ofList, List.cons_append]

theorem readStringChars_plain {cs : List Char} (h : ∀ c ∈ cs, isPlain c = true) (rest : List Char) :
    readStringChars (cs ++ '"' :: rest) = some (cs, rest) := by
  induction cs with
  | nil => rw [List.nil_append, readStringChars]
  | cons c cs ih =>
    obtain ⟨hc, hrest⟩ := List.forall_mem_cons.1 h
    simp only [isPlain, Bool.and_eq_true, bne_iff_ne, decide_eq_true_eq] at hc
    obtain ⟨⟨hquote, hslash⟩, hcode⟩ := hc
    rw [List.cons_append, readStringChars]
    · simp [ih hrest, hslash]
      omega
    all_goals
      intros
      simp_all

/-! ### Items -/

/-- What may follow an item. -/
def EndsItem (closing : Char) (rest : List Char) : Prop :=
  ∀ c ∈ rest.head?, c = ',' ∨ c = closing ∨ isJsonBlank c = true

theorem endsItem_append {closing : Char} {blanks : List Char} (h : ∀ b ∈ blanks, isJsonBlank b = true)
    (rest : List Char) : EndsItem closing (blanks ++ closing :: rest) := by
  intro c hc
  cases blanks with
  | nil => exact .inr (.inl (Option.some.inj hc).symm)
  | cons b bs => exact .inr (.inr (Option.some.inj hc ▸ h b List.mem_cons_self))

theorem EndsItem.endsNumber {closing : Char} (hclosing : closing ∈ [']', '\x7d']) {rest : List Char}
    (h : EndsItem closing rest) : EndsNumber rest := by
  intro c hc
  rcases h c hc with rfl | rfl | hblank
  · decide
  · simp only [List.mem_cons, List.not_mem_nil, or_false] at hclosing
    rcases hclosing with rfl | rfl <;> decide
  · simp only [isJsonBlank, Bool.or_eq_true, beq_iff_eq] at hblank
    rcases hblank with ((rfl | rfl) | rfl) | rfl <;> decide

section Items

variable {α β : Type} {item : TextReader β} {closing : Char} {text : α → List Char} {value : α → Option β}

/-- Items are read one after the other, up to the first one that has no value; blanks may stand around each of
them. -/
theorem readSeparated_intercalate {items : List α} (hne : items ≠ [])
    (hitem : ∀ x ∈ items, ∀ blanks rest, (∀ b ∈ blanks, isJsonBlank b = true) → EndsItem closing rest →
      item (blanks ++ (text x ++ rest)) = (value x).map fun v => (v, rest))
    (hclosing : isJsonBlank closing = false ∧ closing ≠ ',') {gap tail : List Char}
    (hgap : ∀ b ∈ gap, isJsonBlank b = true) (htail : ∀ b ∈ tail, isJsonBlank b = true) {fuel : Nat}
    (hfuel : items.length ≤ fuel) {front : List Char} (hfront : ∀ b ∈ front, isJsonBlank b = true)
    (rest : List Char) :
    readSeparated item closing fuel
      (front ++ ((',' :: gap).intercalate (items.map text) ++ (tail ++ closing :: rest))) =
        (items.mapM value).map fun vs => (vs, rest) := by
  induction items generalizing fuel front with
  | nil => exact absurd rfl hne
  | cons x items ih =>
    obtain ⟨fuel, rfl⟩ : ∃ k, fuel = k + 1 := ⟨fuel - 1, by simp only [List.length_cons] at hfuel; omega⟩
    have hfirst := hitem x List.mem_cons_self
    cases items with
    | nil =>
      have hlast := hfirst front (tail ++ closing :: rest) hfront (endsItem_append htail rest)
      have hend : skipJsonBlank (tail ++ closing :: rest) = closing :: rest := by
        rw [skipJsonBlank_append htail, skipJsonBlank_cons hclosing.1]
      rw [List.map_singleton, List.intercalate_singleton, readSeparated, hlast, List.mapM_cons, List.mapM_nil]
      cases value x <;> simp [hend]
    | cons y items =>
      have hlength : (y :: items).length ≤ fuel := Nat.le_of_succ_le_succ hfuel
      have hmore := ih (List.cons_ne_nil y items) (fun x hx => hitem x (List.mem_cons_of_mem _ hx)) hlength hgap
      have hcomma (cs : List Char) : EndsItem closing (',' :: cs) := fun c hc => .inl (Option.some.inj hc).symm
      have hskip (cs : List Char) : skipJsonBlank (',' :: cs) = ',' :: cs := skipJsonBlank_cons (by decide) cs
      rw [List.map_cons, List.map_cons, List.intercalate_cons_cons, ← List.map_cons, List.append_assoc,
        List.append_assoc, List.cons_append, readSeparated, hfirst front _ hfront (hcomma _), List.mapM_cons]
      rw [List.map_cons] at hmore
      cases value x with
      | none => rfl
      | some v =>
        cases hrest : (y :: items).mapM value <;> rw [hrest] at hmore <;> simp [hskip, hclosing.2.symm, hmore]

theorem length_le_length_intercalate (sep : Char) (gap : List Char) (texts : List (List Char)) :
    texts.length ≤ ((sep :: gap).intercalate texts).length + 1 := by
  induction texts with
  | nil => exact Nat.zero_le _
  | cons t texts ih =>
    cases texts with
    | nil => exact Nat.le_add_left 1 _
    | cons u texts =>
      rw [List.intercalate_cons_cons]
      simp only [List.length_cons, List.length_append] at ih ⊢
      omega

/-- All items between the brackets are read. -/
theorem readItems_intercalate {items : List α}
    (hitem : ∀ x ∈ items, ∀ blanks rest, (∀ b ∈ blanks, isJsonBlank b = true) → EndsItem closing rest →
      item (blanks ++ (text x ++ rest)) = (value x).map fun v => (v, rest))
    (hstart : ∀ x ∈ items, ∃ blanks c cs, text x = blanks ++ c :: cs ∧ (∀ b ∈ blanks, isJsonBlank b = true) ∧
      isJsonBlank c = false ∧ c ≠ closing)
    (hclosing : isJsonBlank closing = false ∧ closing ≠ ',') {gap tail : List Char}
    (hgap : ∀ b ∈ gap, isJsonBlank b = true) (htail : ∀ b ∈ tail, isJsonBlank b = true) {front : List Char}
    (hfront : ∀ b ∈ front, isJsonBlank b = true) (rest : List Char) :
    readItems item closing
      (front ++ ((',' :: gap).intercalate (items.map text) ++ (tail ++ closing :: rest))) =
        (items.mapM value).map fun vs => (vs, rest) := by
  cases items with
  | nil =>
    have hskip : skipJsonBlank (front ++ (tail ++ closing :: rest)) = closing :: rest := by
      rw [skipJsonBlank_append hfront, skipJsonBlank_append htail, skipJsonBlank_cons hclosing.1]
    simp [readItems, hskip]
  | cons x items =>
    generalize hcs : front ++ ((',' :: gap).intercalate ((x :: items).map text) ++ (tail ++ closing :: rest)) = cs
    -- every item has at least one character, so the fuel is enough
    have hfuel : (x :: items).length ≤ cs.length := by
      have hlength := length_le_length_intercalate ',' gap ((x :: items).map text)
      rw [List.length_map] at hlength
      rw [← hcs]
      simp only [List.length_append, List.length_cons] at hlength ⊢
      omega
    have hread := readSeparated_intercalate (List.cons_ne_nil x items) hitem hclosing hgap htail hfuel hfront rest
    -- the first character that is no blank belongs to the first item
    obtain ⟨more, hmore⟩ : ∃ more, (',' :: gap).intercalate ((x :: items).map text) = text x ++ more := by
      cases items with
      | nil => exact ⟨[], by simp⟩
      | cons y items => exact ⟨_, by rw [List.map_cons, List.map_cons, List.intercalate_cons_cons, List.append_assoc]⟩
    obtain ⟨blanks, c, text', htext, hblanks, hc, hne⟩ := hstart x List.mem_cons_self
    have hskip : skipJsonBlank cs = c :: (text' ++ (more ++ (tail ++ closing :: rest))) := by
      rw [← hcs, hmore, htext, skipJsonBlank_append hfront, List.append_assoc, List.append_assoc,
        skipJsonBlank_append hblanks, List.cons_append, skipJsonBlank_cons hc]
    rw [hcs] at hread
    simp [readItems, hskip, hne, hread]

end Items

theorem readValue_array (depth : Nat) (cs : List Char) :
    Json.readValue (depth + 1) ('[' :: cs) =
      (readItems (Json.readValue depth) ']' cs).map fun r => (.array r.1, r.2) := by
  rw [Json.readValue, skipJsonBlank_cons (by decide)]
  rfl

theorem readValue_object (depth : Nat) (cs : List Char) :
    Json.readValue (depth + 1) ('\x7b' :: cs) =
      (readItems (readMember (Json.readValue depth)) '\x7d' cs).map fun r => (.ofMembers r.1, r.2) := by
  rw [Json.readValue, skipJsonBlank_cons (by decide)]
  rfl

end DiceTally
