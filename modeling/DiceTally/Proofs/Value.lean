import DiceTally.Operation.Primitive

/-!
# Values

The digits that are written for a value are read back as this value (`ofText?_text`).  The result of an operation on
integers is a value if it is in range, and an overflow otherwise (`checked_cases`).
-/

namespace DiceTally

theorem natOfChars?_toDigits (n : Nat) : natOfChars? (Nat.toDigits 10 n) = some n := by
  have hall : (Nat.toDigits 10 n).all Char.isDigit = true :=
    List.all_eq_true.2 fun c hc => Nat.isDigit_of_mem_toDigits (by decide) (by decide) hc
  have hne : (Nat.toDigits 10 n).isEmpty = false := by simp
  simp [natOfChars?, hall, hne, Nat.ofDigitChars_ten_toDigits]

theorem all_isDigit_of_natOfChars? {cs : List Char} {n : Nat} (h : natOfChars? cs = some n) :
    cs ≠ [] ∧ ∀ c ∈ cs, c.isDigit = true := by
  unfold natOfChars? at h
  split at h
  · cases h
  · rename_i hcs
    simpa using hcs

/-- Digits need no sign. -/
theorem intOfChars?_of_natOfChars? {cs : List Char} {n : Nat} (h : natOfChars? cs = some n) :
    intOfChars? cs = some (n : Int) := by
  obtain ⟨hne, hall⟩ := all_isDigit_of_natOfChars? h
  unfold intOfChars?
  split
  · exact absurd (hall '-' List.mem_cons_self) (by decide)
  · exact absurd (hall '+' List.mem_cons_self) (by decide)
  · rw [h]
    rfl

/-- The digits of an integer, with a minus sign in front of a negative one. -/
def signedDigits (n : Int) : List Char :=
  (if n < 0 then ['-'] else []) ++ Nat.toDigits 10 n.natAbs

theorem toList_toString_int (n : Int) : (toString n).toList = signedDigits n := by
  rw [Int.toString_eq_repr, Int.repr_eq_if, signedDigits]
  by_cases h : n < 0
  · rw [if_neg (by omega), if_pos h, String.toList_append, Nat.toList_repr, show (-n).toNat = n.natAbs by omega]
    rfl
  · rw [if_pos (by omega), if_neg h, Nat.toList_repr, show n.toNat = n.natAbs by omega]
    rfl

theorem intOfChars?_signedDigits (n : Int) : intOfChars? (signedDigits n) = some n := by
  unfold signedDigits
  by_cases h : n < 0
  · have habs : -(n.natAbs : Int) = n := by omega
    rw [if_pos h, List.singleton_append, intOfChars?, natOfChars?_toDigits]
    exact congrArg some habs
  · rw [if_neg h, List.nil_append, intOfChars?_of_natOfChars? (natOfChars?_toDigits _),
      show (n.natAbs : Int) = n by omega]

theorem signedDigits_ne_nil (n : Int) : signedDigits n ≠ [] := by
  simp [signedDigits, Nat.toDigits_ne_nil]

theorem mem_signedDigits {n : Int} {c : Char} (h : c ∈ signedDigits n) : c.isDigit = true ∨ c = '-' := by
  rcases List.mem_append.1 h with h | h
  · split at h
    · exact .inr (List.mem_singleton.1 h)
    · cases h
  · exact .inl (Nat.isDigit_of_mem_toDigits (by decide) (by decide) h)

namespace Value

theorem toInt_ne_zero {v : Value} (h : v ≠ 0) : v.toInt ≠ 0 := fun hv => h (Int64.toInt_inj.1 hv)

theorem ofInt?_of_range {n : Int} (hlow : -bound ≤ n) (hhigh : n < bound) : ofInt? n = some (Int64.ofInt n) := by
  unfold ofInt?
  exact if_pos ⟨hlow, hhigh⟩

theorem toList_text (v : Value) : v.text.toList = signedDigits v.toInt := toList_toString_int v.toInt

/-- The text of a value is read back. -/
theorem ofText?_text (v : Value) : ofText? v.text = some v := by
  rw [ofText?, toList_text, intOfChars?_signedDigits]
  exact ofInt?_toInt v

end Value

theorem checked_cases (operation : String) (n : Int) :
    ((-Value.bound ≤ n ∧ n < Value.bound) ∧ ∃ v, checked operation n = .ok v ∧ v.toInt = n) ∨
      ¬(-Value.bound ≤ n ∧ n < Value.bound) ∧ checked operation n = .error (.overflow operation) := by
  unfold checked
  cases hv : Value.ofInt? n with
  | some v =>
    have hn : v.toInt = n := Value.toInt_of_ofInt? hv
    exact .inl ⟨hn ▸ ⟨v.le_toInt, v.toInt_lt⟩, v, rfl, hn⟩
  | none =>
    refine .inr ⟨?_, rfl⟩
    rintro ⟨hlow, hhigh⟩
    rw [Value.ofInt?_of_range hlow hhigh] at hv
    cases hv

end DiceTally
