import DiceTally.Proofs.Decimal.Double
import DiceTally.Proofs.Document
import DiceTally.Proofs.Json.Double

/-!
# Whole counts in documents

A distribution of whole counts below `bound64` is read back from its document with the same results, numerically the
same counts and the same total (`exists_same_of_lt`).  From `bound64` on a count is written as a double and keeps 53
binary digits at most (`bits_of_same`), and the largest numbers are not read back at all.
-/

namespace DiceTally

namespace Document

/-- Whole counts below `bound64` are kept. -/
theorem exists_same_of_lt {d : Distribution} (hwhole : d.WholeCounts)
    (hrange : ∀ entry ∈ d.entries, entry.2.toInt < bound64) :
    ∃ loaded, ofText (toText d) = .ok loaded ∧ loaded.Same d := by
  have hstorable : ∀ entry ∈ d.entries, Storable entry.2 := by
    intro entry hentry
    refine ⟨(hwhole entry hentry).1, ?_, hrange entry hentry⟩
    rw [(hwhole.isNat hentry).toInt_eq]
    exact Int.natCast_nonneg _
  obtain ⟨loaded, hloaded, hget⟩ := ofText_toText hstorable
  refine ⟨loaded, hloaded, .of_isNat hget fun entry hentry => ?_⟩
  have hnat := hwhole.isNat hentry
  refine ⟨_, hnat, ?_⟩
  rw [hnat.toInt_eq, Int.toNat_natCast]
  exact Decimal.isNat_ofNat hnat.lt

/-! ### Large counts -/

/-- What may be read where a count is written. -/
def CountRead (value : Json) : Prop :=
  value = .null ∨ (∃ n : Int, value = .number (.int n) ∧ n < bound64) ∨ ∃ f, value = .number (.float f)

/-- A count is written as an integer in range, or as a double, and something of its kind is read. -/
theorem exists_readsAs_encodeCount (weight : Decimal) :
    ∃ read : Option Json, ReadsAs (encodeCount weight) read ∧ ∀ value ∈ read, CountRead value := by
  unfold encodeCount
  dsimp only
  split
  · rename_i hrange
    simp only [Bool.and_eq_true, decide_eq_true_eq] at hrange
    refine ⟨some _, readsAs_of_isInt ⟨_, rfl, hrange.1.2, hrange.2⟩, ?_⟩
    rintro _ ⟨⟩
    exact .inr (.inl ⟨_, rfl, hrange.2⟩)
  · obtain ⟨read, hvalues, hread⟩ := readValue_double weight.toFloat
    refine ⟨read, fun depth blanks rest hblanks hrest => ?_, fun value hvalue => ?_⟩
    · rw [Json.compact]
      exact hread hblanks (hrest.endsNumber (by decide)) depth
    · exact (hvalues value hvalue).imp_right .inr

theorem decimalOfNumber?_of_decodeCount {key : String} {number : JsonNumber} {count : Decimal}
    (h : decodeCount key (.number number) = .ok count) : decimalOfNumber? number = some count := by
  unfold decodeCount at h
  dsimp only at h
  split at h
  · rename_i hcount
    cases h
    exact (Option.filter_eq_some_iff.1 hcount).1
  · cases h

/-- A natural number that stands for what was read is below `bound64`, or it comes from a double. -/
theorem bits_of_decodeCount {key : String} {value : Json} {count : Decimal} (hvalue : CountRead value)
    (h : decodeCount key value = .ok count) {n : Nat} (hn : count.IsNat n) :
    n < bound64 ∨ ∃ m e : Nat, m < 2 ^ 53 ∧ n = m * 2 ^ e := by
  rcases hvalue with rfl | ⟨k, rfl, hk⟩ | ⟨f, rfl⟩
  · cases h
  · obtain ⟨hscale, hsigned⟩ := Decimal.signed_of_ofInt? (decimalOfNumber?_of_decodeCount h)
    have hnat : k = (n : Int) := by
      rw [← hsigned, Decimal.isNat_iff.1 hn, hscale]
      simp [tenTo]
    exact .inl (by omega)
  · exact .inr (Decimal.exists_bits_of_ofFloat? (decimalOfNumber?_of_decodeCount h) hn)

/-- A whole count that is kept is below `bound64`, or it has at most 53 binary digits, apart from zeros at the
end. -/
theorem bits_of_same {d loaded : Distribution} (hwhole : d.WholeCounts) (hload : ofText (toText d) = .ok loaded)
    (hsame : loaded.Same d) {entry : Tuple × Decimal} (hentry : entry ∈ d.entries) :
    entry.2.toInt < bound64 ∨ ∃ m e : Nat, m < 2 ^ 53 ∧ entry.2.toInt = (m * 2 ^ e : Nat) := by
  -- for each text of a count what is read of it
  have hreads : ∀ value, (∃ weight, encodeCount weight = value) →
      ∃ read : Option Json, ReadsAs value read ∧ ∀ v ∈ read, CountRead v := by
    rintro _ ⟨weight, rfl⟩
    exact exists_readsAs_encodeCount weight
  choose! read hread hvalues using hreads
  obtain ⟨key, weight⟩ := entry
  have hget := Distribution.mem_entries.1 hentry
  obtain ⟨value, count, hvalue, hcount, hloaded⟩ :=
    (get?_of_ofText_toText (fun _ weight _ => hread _ ⟨weight, rfl⟩) hload key).2 weight hget
  have hnat := hwhole.isNat hentry
  have hunits := hsame.units_get? key
  rw [hloaded, hget] at hunits
  have hcountNat : count.IsNat (weight.mantissa / tenTo weight.scale) := (Option.some.inj hunits).trans hnat
  rw [hnat.toInt_eq]
  rcases bits_of_decodeCount (hvalues _ ⟨weight, rfl⟩ value hvalue) hcount hcountNat with hlt | ⟨m, e, hm, heq⟩
  · exact .inl (by exact_mod_cast hlt)
  · exact .inr ⟨m, e, hm, congrArg Nat.cast heq⟩

/-- Whole counts below `bound64` are kept by a document, and of the others only such as have at most 53 binary digits,
apart from zeros at the end. -/
theorem wholeCounts_ofText_toText {d : Distribution} (hwhole : d.WholeCounts) :
    ((∀ entry ∈ d.entries, entry.2.toInt < bound64) → ∃ loaded, ofText (toText d) = .ok loaded ∧ loaded.Same d) ∧
      ∀ loaded, ofText (toText d) = .ok loaded → loaded.Same d → ∀ entry ∈ d.entries,
        entry.2.toInt < bound64 ∨ ∃ m e : Nat, m < 2 ^ 53 ∧ entry.2.toInt = (m * 2 ^ e : Nat) := by
  constructor
  · intro hrange
    exact exists_same_of_lt hwhole hrange
  · intro loaded hload hsame entry hentry
    exact bits_of_same hwhole hload hsame hentry

/-- The distribution of one result with a count. -/
def counted (n : Nat) : Distribution := Distribution.empty.add [1] (.ofNat n)

/-- A count that is whole with two digits after the point, and the largest one that is written as an integer. -/
def largestStored : Distribution :=
  (Distribution.empty.add [7] (.hundredths 600 (by decide))).add [12] (.ofNat (bound64 - 1))

theorem wholeCounts_ofText_toText_largest :
    (largestStored.WholeCounts ∧ (∀ entry ∈ largestStored.entries, entry.2.toInt < bound64) ∧
      ∃ loaded, ofText (toText largestStored) = .ok loaded ∧ loaded.Same largestStored) ∧
    ∃ loaded, ofText (toText (counted bound64)) = .ok loaded ∧ loaded.Same (counted bound64) ∧
      ∀ entry ∈ (counted bound64).entries,
        entry.2.toInt < bound64 ∨ ∃ m e : Nat, m < 2 ^ 53 ∧ entry.2.toInt = (m * 2 ^ e : Nat) := by
  have hwhole : largestStored.WholeCounts ∧ (counted bound64).WholeCounts := by
    unfold Distribution.WholeCounts
    decide +kernel
  have hrange : ∀ entry ∈ largestStored.entries, entry.2.toInt < bound64 := by decide +kernel
  refine ⟨⟨hwhole.1, hrange, (wholeCounts_ofText_toText hwhole.1).1 hrange⟩, ?_⟩
  have hentries : (ofText (toText (counted bound64))).toOption.map (·.entries) = some (counted bound64).entries := by
    decide +kernel
  cases hload : ofText (toText (counted bound64)) with
  | error e =>
    rw [hload] at hentries
    cases hentries
  | ok loaded =>
    rw [hload] at hentries
    have hsame : loaded.Same (counted bound64) := .of_entries (Option.some.inj hentries)
    exact ⟨loaded, rfl, hsame, (wholeCounts_ofText_toText hwhole.2).2 loaded hload hsame⟩

/-- The least count that is lost, and the largest number, which is not read back at all. -/
theorem not_same_of_largeCounts :
    ((counted (bound64 + 1)).WholeCounts ∧
      ¬∃ loaded, ofText (toText (counted (bound64 + 1))) = .ok loaded ∧ loaded.Same (counted (bound64 + 1))) ∧
    (counted (mantissaBound - 1)).WholeCounts ∧
      ¬∃ loaded, ofText (toText (counted (mantissaBound - 1))) = .ok loaded := by
  have hwhole : (counted (bound64 + 1)).WholeCounts ∧ (counted (mantissaBound - 1)).WholeCounts := by
    unfold Distribution.WholeCounts
    decide +kernel
  have hlost : (ofText (toText (counted (bound64 + 1)))).toOption.map (fun loaded => (loaded.get? [1]).map (·.units)) =
      some (some ((bound64 * tenTo 28 : Nat) : Int)) := by decide +kernel
  have hcount : ((counted (bound64 + 1)).get? [1]).map (·.units) = some (((bound64 + 1) * tenTo 28 : Nat) : Int) := by
    decide +kernel
  have hrefused : (ofText (toText (counted (mantissaBound - 1)))).isOk = false := by decide +kernel
  refine ⟨⟨hwhole.1, ?_⟩, hwhole.2, ?_⟩
  · rintro ⟨loaded, hloaded, hsame⟩
    rw [hloaded] at hlost
    have hread : (loaded.get? [1]).map (·.units) = some ((bound64 * tenTo 28 : Nat) : Int) := Option.some.inj hlost
    have hunits := hread.symm.trans ((hsame.units_get? [1]).trans hcount)
    exact absurd (Option.some.inj hunits) (by decide)
  · rintro ⟨loaded, hloaded⟩
    rw [hloaded] at hrefused
    cases hrefused

end Document

end DiceTally
