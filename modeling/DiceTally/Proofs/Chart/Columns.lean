import DiceTally.Proofs.Chart.Lines
import DiceTally.Proofs.Decimal.Fixed
import DiceTally.Proofs.Distribution
import DiceTally.Proofs.Document
import DiceTally.Proofs.Text.Blank
import DiceTally.Proofs.Token

/-!
# The columns of a chart

There is one line for each entry, in strictly increasing order (`entries_pairwise`, `byWeight_pairwise`).  The field of
the result is as wide on each line (`length_keyField`), and the result is read back from it (`readKey?_keyField`); the
field of the number is as wide on each line as well (`length_numberField`).  Since both end in a character that is not
blank, trimming a line shortens its bar only.
-/

namespace DiceTally

namespace Distribution

/-- The entries are in the order of their results. -/
theorem entries_pairwise (d : Distribution) : d.entries.Pairwise fun a b => compare a.1 b.1 = .lt :=
  Std.TreeMap.ordered_keys_toList

/-- The order of weights and, for the same weight, of results. -/
def entryOrder : Tuple × Decimal → Tuple × Decimal → Ordering :=
  compareLex (compareOn fun entry => entry.2.units) (compareOn fun entry => entry.1)

instance : Std.TransCmp entryOrder := by
  unfold entryOrder
  infer_instance

theorem weightOrder_eq (a b : Tuple × Decimal) : weightOrder a b = (entryOrder a b).isLE := rfl

/-- The entries by weight are in the order of their weights, those of the same weight in the order of their results. -/
theorem byWeight_pairwise (d : Distribution) : d.byWeight.Pairwise fun a b =>
    a.2.toRat < b.2.toRat ∨ a.2.toRat = b.2.toRat ∧ compare a.1 b.1 = .lt := by
  have htrans : ∀ a b c, weightOrder a b = true → weightOrder b c = true → weightOrder a c = true := by
    intro a b c hab hbc
    exact (inferInstance : Std.TransCmp entryOrder).isLE_trans hab hbc
  have htotal : ∀ a b, (weightOrder a b || weightOrder b a) = true := by
    intro a b
    rw [Bool.or_eq_true, weightOrder_eq, weightOrder_eq]
    by_cases hab : (entryOrder a b).isLE = true
    · exact .inl hab
    · right
      rw [Std.OrientedCmp.lt_of_not_isLE hab]
      rfl
  have hsorted := List.pairwise_mergeSort htrans htotal d.entries
  have hdistinct : d.byWeight.Pairwise fun a b => a.1 ≠ b.1 := by
    have hperm := (List.mergeSort_perm d.entries weightOrder).map Prod.fst
    exact List.pairwise_map.1 (hperm.nodup_iff.2 d.nodup_keys)
  refine (hsorted.and hdistinct).imp ?_
  rintro a b ⟨hle, hne⟩
  rcases Ordering.isLE_then_iff_or.1 hle with hlt | ⟨heq, hle⟩
  · exact .inl (Decimal.toRat_lt_iff.2 (compare_lt_iff_lt.1 hlt))
  · right
    have hunits : a.2.units = b.2.units := compare_eq_iff_eq.1 heq
    refine ⟨by rw [Decimal.toRat_eq_units, Decimal.toRat_eq_units, hunits], ?_⟩
    cases hkeys : compare a.1 b.1 with
    | lt => rfl
    | eq => exact absurd (Std.LawfulEqCmp.compare_eq_iff_eq.1 hkeys) hne
    | gt =>
      rw [hkeys] at hle
      cases hle

end Distribution

namespace Chart

variable {options : ChartOptions} {d : Distribution}

theorem le_foldl_max (ns : List Nat) (a : Nat) : a ≤ ns.foldl Nat.max a ∧ ∀ n ∈ ns, n ≤ ns.foldl Nat.max a := by
  induction ns generalizing a with
  | nil => simp
  | cons n ns ih =>
    obtain ⟨hstart, hrest⟩ := ih (Nat.max a n)
    rw [List.foldl_cons, List.forall_mem_cons]
    exact ⟨(Nat.le_max_left a n).trans hstart, (Nat.le_max_right a n).trans hstart, hrest⟩

/-- A character of the visible part of the ASCII alphabet, or a space. -/
def Printable (c : Char) : Prop := 0x20 ≤ c.toNat ∧ c.toNat ≤ 0x7E

instance : DecidablePred Printable := fun c => inferInstanceAs (Decidable (0x20 ≤ c.toNat ∧ c.toNat ≤ 0x7E))

theorem Printable.utf8Size_eq {c : Char} (h : Printable c) : c.utf8Size = 1 := by
  rw [Char.utf8Size_eq_one_iff]
  exact UInt32.le_iff_toNat_le.2 (h.2.trans (by decide))

theorem printable_of_isDigit {c : Char} (h : c.isDigit = true) : Printable c := by
  have hrange : 48 ≤ c.toNat ∧ c.toNat ≤ 57 := Char.isDigit_iff_toNat.1 h
  unfold Printable
  omega

theorem printable_of_mem {s : String} (h : IsNumberText s) {c : Char} (hc : c ∈ s.toList) : Printable c := by
  rcases h.chars c hc with hdigit | rfl | rfl
  · exact printable_of_isDigit hdigit
  · decide
  · decide

theorem isBlank_of_mem {s : String} (h : IsNumberText s) {c : Char} (hc : c ∈ s.toList) : isBlank c = false := by
  rcases h.chars c hc with hdigit | rfl | rfl
  · exact (Token.isBlank_of_isDigit hdigit).1
  · decide
  · decide

theorem endsInk_of_isNumberText {s : String} (h : IsNumberText s) : EndsInk s :=
  endsInk_of_forall h.ne_nil fun _ => isBlank_of_mem h

/-- Only spaces are added to a number. -/
theorem printable_of_mem_padLeft {s : String} (h : IsNumberText s) {width : Nat} {c : Char}
    (hc : c ∈ (padLeft width s).toList) : Printable c := by
  rcases mem_padLeft hc with rfl | hc
  · decide
  · exact printable_of_mem h hc

/-! ### Results -/

section

variable {entries : List (Tuple × Decimal)} {entry : Tuple × Decimal}

theorem toList_keyText (width : Nat) (key : Tuple) :
    (keyText width key).toList = [','].intercalate (key.map fun v => (padLeft width v.text).toList) := by
  rw [keyText, String.toList_intercalate, List.map_map]
  rfl

theorem length_text_le (h : entry ∈ entries) {v : Value} (hv : v ∈ entry.1) : v.text.length ≤ valueWidth entries :=
  (le_foldl_max _ 0).2 _ (List.mem_flatMap.2 ⟨entry, h, List.mem_map_of_mem hv⟩)

theorem length_le_arity (h : entry ∈ entries) : entry.1.length ≤ arity entries :=
  (le_foldl_max _ 0).2 _ (List.mem_map.2 ⟨entry, h, rfl⟩)

theorem length_intercalate_comma {cells : List (List Char)} {width : Nat} (h : ∀ cell ∈ cells, cell.length = width) :
    ([','].intercalate cells).length = cells.length * width + (cells.length - 1) := by
  induction cells with
  | nil => simp
  | cons cell cells ih =>
    obtain ⟨hcell, hcells⟩ := List.forall_mem_cons.1 h
    cases cells with
    | nil => simp [hcell]
    | cons next cells =>
      rw [List.intercalate_cons_cons, List.length_append, List.length_append, ih hcells, hcell]
      simp only [List.length_cons, List.length_nil, Nat.add_mul]
      omega

/-- The field of a result is as wide as planned. -/
theorem length_keyField (h : entry ∈ entries) : (keyField entries entry.1).length = keyWidth entries := by
  apply length_padLeft
  have hcells : ∀ cell ∈ entry.1.map fun v => (padLeft (valueWidth entries) v.text).toList,
      cell.length = valueWidth entries := by
    intro cell hcell
    obtain ⟨v, hv, rfl⟩ := List.mem_map.1 hcell
    rw [String.length_toList, length_padLeft (length_text_le h hv)]
  have harity := length_le_arity h
  rw [← String.length_toList, toList_keyText, length_intercalate_comma hcells, List.length_map, keyWidth]
  exact Nat.add_le_add (Nat.mul_le_mul_right _ harity) (Nat.sub_le_sub_right harity 1)

theorem printable_of_mem_keyField {key : Tuple} {c : Char} (h : c ∈ (keyField entries key).toList) : Printable c := by
  rcases mem_padLeft h with rfl | h
  · decide
  rw [toList_keyText] at h
  rcases Document.mem_intercalate h with hcomma | ⟨cell, hcell, hc⟩
  · rw [List.mem_singleton.1 hcomma]
    decide
  · obtain ⟨v, -, rfl⟩ := List.mem_map.1 hcell
    exact printable_of_mem_padLeft v.isNumberText_text hc

/-- The result in a field: the values between the commas, without the blanks around them.  A field of blanks holds the
result without values. -/
def readKey? (field : String) : Option Tuple :=
  if field.toList.all isBlank then some []
  else (field.toList.splitOn ',').mapM fun cell =>
    Value.ofText? (trimEnd (String.ofList (cell.dropWhile isBlank)))

/-- A value is read back, whatever the number of spaces in front of it. -/
theorem ofText?_cell (n : Nat) (v : Value) :
    Value.ofText? (trimEnd (String.ofList ((List.replicate n ' ' ++ v.text.toList).dropWhile isBlank))) = some v := by
  have hspaces : ∀ c ∈ List.replicate n ' ', isBlank c = true := by
    intro c hc
    rw [(List.mem_replicate.1 hc).2]
    exact isBlank_space
  obtain ⟨c, cs, hcs⟩ := List.exists_cons_of_ne_nil v.isNumberText_text.ne_nil
  have hfirst : ¬isBlank c = true := by
    rw [isBlank_of_mem v.isNumberText_text (hcs ▸ List.mem_cons_self)]
    exact Bool.false_ne_true
  rw [List.dropWhile_append_of_pos hspaces, hcs, List.dropWhile_cons_of_neg hfirst, ← hcs, String.ofList_toList,
    (endsInk_of_isNumberText v.isNumberText_text).trimEnd_eq, Value.ofText?_text]

/-- What stands in front of the first text stands in front of all. -/
theorem exists_intercalate_cons (sep text : List Char) (texts : List (List Char)) :
    ∃ rest, ∀ front, sep.intercalate ((front ++ text) :: texts) = front ++ (text ++ rest) := by
  cases texts with
  | nil => exact ⟨[], fun front => by simp⟩
  | cons next texts =>
    refine ⟨sep ++ sep.intercalate (next :: texts), fun front => ?_⟩
    rw [List.intercalate_cons_cons, List.append_assoc, List.append_assoc]

/-- The result is read back from its field. -/
theorem readKey?_keyField (entries : List (Tuple × Decimal)) (key : Tuple) :
    readKey? (keyField entries key) = some key := by
  unfold readKey? keyField
  rw [toList_padLeft, toList_keyText]
  cases key with
  | nil => simp [isBlank_space]
  | cons v vs =>
    obtain ⟨rest, hrest⟩ := exists_intercalate_cons [','] v.text.toList
      (vs.map fun v => (padLeft (valueWidth entries) v.text).toList)
    -- the spaces in front of the field are those of its first value
    rw [List.map_cons, toList_padLeft, hrest, ← List.append_assoc, List.replicate_append_replicate]
    generalize keyWidth entries - _ + _ = n
    have hblank : ¬(List.replicate n ' ' ++ (v.text.toList ++ rest)).all isBlank = true := by
      intro hall
      obtain ⟨c, hc⟩ := List.exists_mem_of_ne_nil _ v.isNumberText_text.ne_nil
      have hblank := List.all_eq_true.1 hall c (List.mem_append_right _ (List.mem_append_left _ hc))
      rw [isBlank_of_mem v.isNumberText_text hc] at hblank
      cases hblank
    have hcell {m : Nat} {v : Value} : ',' ∉ List.replicate m ' ' ++ v.text.toList := by
      intro hmem
      rcases List.mem_append.1 hmem with h | h
      · exact absurd (List.mem_replicate.1 h).2 (by decide)
      · exact absurd (v.isNumberText_text.chars ',' h) (by decide)
    have hcomma : ∀ cell ∈ (List.replicate n ' ' ++ v.text.toList) ::
        vs.map fun v => (padLeft (valueWidth entries) v.text).toList, ',' ∉ cell := by
      rw [List.forall_mem_cons]
      refine ⟨hcell, fun cell hmem => ?_⟩
      obtain ⟨v', -, rfl⟩ := List.mem_map.1 hmem
      rw [toList_padLeft]
      exact hcell
    rw [if_neg hblank, ← hrest, List.splitOn_intercalate ',' hcomma (List.cons_ne_nil _ _), mapM_eq_some_iff]
    refine .cons (ofText?_cell _ v) ?_
    rw [List.forall₂_map_left_iff, List.forall₂_same]
    intro v' _
    rw [toList_padLeft]
    exact ofText?_cell _ v'

end

/-! ### Numbers -/

variable {entry : Tuple × Decimal}

theorem isNumberText_countText (options : ChartOptions) (whole : Bool) (count : Decimal) :
    IsNumberText (countText options whole count) := by
  unfold countText
  split
  · exact Decimal.isNumberText_text _
  · exact Decimal.isNumberText_fixed _ _

/-- The width of the field of the number. -/
def numberWidth (options : ChartOptions) (d : Distribution) : Nat :=
  if options.showCounts then countWidth options d.isWhole (ordered options d) else 4 + options.decimalPlaces + 2

/-- The field of the number is as wide as planned. -/
theorem length_numberField (h : d.NonnegCounts) (hentry : entry ∈ ordered options d) :
    (numberField options d entry.2).length = numberWidth options d := by
  unfold numberField numberWidth
  split
  · exact length_padLeft ((le_foldl_max _ 0).2 _ (List.mem_map.2 ⟨entry, hentry, rfl⟩))
  · obtain ⟨hnonneg, hle⟩ := le_total h ((ordered_perm options d).mem_iff.1 hentry)
    obtain ⟨hsign, hshare⟩ := percent_le hnonneg hle
    rw [String.length_append, length_padLeft (Decimal.length_fixed_le _ hsign hshare)]
    rfl

theorem endsInk_numberField (options : ChartOptions) (d : Distribution) (count : Decimal) :
    EndsInk (numberField options d count) := by
  unfold numberField
  split
  · exact (endsInk_of_isNumberText (isNumberText_countText _ _ _)).append _
  · have hpercent : EndsInk " %" := ⟨'%', [' '], rfl, by decide⟩
    exact hpercent.append _

theorem printable_of_mem_numberField {count : Decimal} {c : Char} (h : c ∈ (numberField options d count).toList) :
    Printable c := by
  unfold numberField at h
  split at h
  · exact printable_of_mem_padLeft (isNumberText_countText _ _ _) h
  · rw [String.toList_append] at h
    rcases List.mem_append.1 h with h | h
    · exact printable_of_mem_padLeft (Decimal.isNumberText_fixed _ _) h
    · have hchars : c ∈ [' ', '%'] := h
      rcases List.mem_pair.1 hchars with rfl | rfl <;> decide

/-! ### Lines -/

/-- The characters that end a line. -/
def isLineBreak (c : Char) : Bool :=
  let n := c.toNat
  (0xA ≤ n && n ≤ 0xD) || n == 0x85 || n == 0x2028 || n == 0x2029

theorem Printable.isLineBreak_eq {c : Char} (h : Printable c) : isLineBreak c = false := by
  unfold Printable at h
  simp only [isLineBreak, Bool.or_eq_false_iff, Bool.and_eq_false_iff, decide_eq_false_iff_not, beq_eq_false_iff_ne]
  omega

/-- The characters of a bar are those of what leads it and of what it is made of. -/
theorem mem_bar {share : Decimal} {c : Char} (h : c ∈ (bar options share).toList) :
    c ∈ options.barLead.toList ++ options.barChar.toList := by
  have hjoin (n : Nat) (h : c ∈ (String.join (List.replicate n options.barChar)).toList) :
      c ∈ options.barChar.toList := by
    induction n with
    | zero => cases h
    | succ n ih =>
      rw [List.replicate_succ, String.join_cons, String.toList_append] at h
      exact (List.mem_append.1 h).elim id ih
  unfold bar at h
  split at h
  · cases h
  · rw [String.toList_append] at h
    rw [List.mem_append]
    exact (List.mem_append.1 h).imp_right (hjoin _)

theorem printable_of_mem_fields {c : Char} (h : c ∈ (fields options d entry).toList) : Printable c := by
  rw [fields, String.toList_append, String.toList_append] at h
  rcases List.mem_append.1 h with h | h
  · rcases List.mem_append.1 h with h | h
    · exact printable_of_mem_keyField h
    · have hchars : c ∈ [':', ' '] := h
      rcases List.mem_pair.1 hchars with rfl | rfl <;> decide
  · exact printable_of_mem_numberField h

/-- Results of different lengths, two of them with the same weight. -/
def mixed : Distribution :=
  ((Distribution.empty.add [2] (.ofNat 7)).add [-10, 3] (.ofNat 7)).add [] (.hundredths 50 (by decide))

def byWeights : ChartOptions := { ChartOptions.default with sort := .value, barSize := 1, decimalPlaces := 1 }

example : lines { byWeights with sort := .key } mixed =
    ["       :   3.4 % |===",
      "-10,  3:  48.3 % |================================================",
      "      2:  48.3 % |================================================"] := by
  decide +kernel

end Chart

end DiceTally
