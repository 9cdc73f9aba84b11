import DiceTally.Chart
import DiceTally.Proofs.Decimal.Quotient

/-!
# The lines of a chart

A line consists of the field of the result, the field of the number and the bar (`lines_eq`).  Of weights that are not
negative none is larger than the total (`le_total`), and so a share lies between 0 and 100 percent (`percent_le`): it is
the rounded quotient of a hundred times the weight and the total, or a hundred times their rounded quotient where the
former is out of range (`percent_cases`).
-/

namespace DiceTally

/-- No weight is below zero. -/
def Distribution.NonnegCounts (d : Distribution) : Prop := ∀ entry ∈ d.entries, entry.2.isBelowZero = false

namespace Chart

variable {options : ChartOptions} {d : Distribution} {count total : Decimal}

/-- The field of a result, as wide as that of the longest result. -/
def keyField (entries : List (Tuple × Decimal)) (key : Tuple) : String :=
  padLeft (keyWidth entries) (keyText (valueWidth entries) key)

/-- The field of the number, which is the weight or the share. -/
def numberField (options : ChartOptions) (d : Distribution) (count : Decimal) : String :=
  if options.showCounts then
    padLeft (countWidth options d.isWhole (ordered options d)) (countText options d.isWhole count)
  else padLeft (4 + options.decimalPlaces) ((percent count d.total).fixed options.decimalPlaces) ++ " %"

/-- The part of a line in front of its bar. -/
def fields (options : ChartOptions) (d : Distribution) (entry : Tuple × Decimal) : String :=
  keyField (ordered options d) entry.1 ++ ": " ++ numberField options d entry.2

theorem lines_eq (options : ChartOptions) (d : Distribution) :
    lines options d = (ordered options d).map fun entry =>
      trimEnd (fields options d entry ++ " " ++ bar options (percent entry.2 d.total)) := rfl

/-- The lines show the entries of the distribution. -/
theorem ordered_perm (options : ChartOptions) (d : Distribution) : (ordered options d).Perm d.entries := by
  unfold ordered
  split
  · exact List.Perm.refl _
  · exact List.mergeSort_perm _ _

/-! ### Shares -/

/-- No weight is larger than the total. -/
theorem le_total (h : d.NonnegCounts) {entry : Tuple × Decimal} (hentry : entry ∈ d.entries) :
    0 ≤ entry.2.toRat ∧ entry.2.toRat ≤ d.total.toRat := by
  have hnonneg : ∀ weight ∈ d.entries.map Prod.snd, 0 ≤ weight.toRat := by
    intro weight hweight
    obtain ⟨entry, hentry, rfl⟩ := List.mem_map.1 hweight
    exact Decimal.isBelowZero_eq_false_iff.1 (h entry hentry)
  have hmem := List.mem_map_of_mem (f := Prod.snd) hentry
  have hle := (Decimal.le_foldl_addSaturating (a := .zero) (Decimal.isZero_iff_toRat.1 rfl).ge hnonneg).2 _ hmem
  rw [List.foldl_map] at hle
  exact ⟨hnonneg _ hmem, hle⟩

/-- A share is the rounded quotient of a hundred times the weight and the total, as long as the former is in range. -/
theorem percent_cases (hcount : 0 ≤ count.toRat) (hle : count.toRat ≤ total.toRat) (hpos : 0 < total.toRat) :
    (percent count total).IsQuotient (100 * count.toRat / total.toRat) ∨
      mantissaBound - 1 / 2 ≤ 100 * count.toRat ∧ ∃ ratio : Decimal, ratio.IsQuotient (count.toRat / total.toRat) ∧
        ratio.toRat ≤ 1 ∧ (percent count total).Unsigned ∧ (percent count total).toRat = 100 * ratio.toRat := by
  have hbound : (100 : ℚ) < mantissaBound - 1 / 2 := by norm_num [mantissaBound]
  have hzero : ¬total.isZero = true := fun h => hpos.ne' (Decimal.isZero_iff_toRat.1 h)
  have hratio : count.toRat / total.toRat ≤ 1 := (div_le_one hpos).2 hle
  unfold percent
  rw [if_neg hzero]
  dsimp only
  rcases Decimal.mul?_hundred_cases hcount with ⟨hnone, hlarge⟩ | ⟨scaled, hscaled, -, hrat⟩
  · right
    refine ⟨hlarge, ?_⟩
    rcases Decimal.div?_cases hcount hpos with ⟨-, hout⟩ | ⟨ratio, hdiv, hquotient⟩
    · exact absurd (hout.trans hratio) (by linarith)
    have hsmall : ratio.toRat ≤ 1 := by
      exact_mod_cast (Decimal.le_natCast_of_near hquotient.near 1).2 (by exact_mod_cast hratio)
    rcases Decimal.mul?_hundred_cases hquotient.unsigned.toRat_nonneg with ⟨-, hout⟩ | ⟨share, hmul, hsign, hshare⟩
    · exact absurd hout (by linarith)
    · refine ⟨ratio, hquotient, hsmall, ?_⟩
      rw [hnone, hdiv, Option.bind_none, Option.none_or, Option.bind_some, hmul, Option.getD_some]
      exact ⟨hsign, hshare⟩
  · left
    have hscaled0 : 0 ≤ scaled.toRat := by
      rw [hrat]
      positivity
    rcases Decimal.div?_cases hscaled0 hpos with ⟨-, hout⟩ | ⟨share, hdiv, hquotient⟩
    · rw [hrat, mul_div_assoc] at hout
      exact absurd hout (by linarith)
    · rw [hscaled, Option.bind_some, hdiv, Option.some_or, Option.getD_some, ← hrat]
      exact hquotient

/-- A share has no sign and is not more than a hundred percent. -/
theorem percent_le (hcount : 0 ≤ count.toRat) (hle : count.toRat ≤ total.toRat) :
    (percent count total).Unsigned ∧ (percent count total).toRat ≤ 100 := by
  rcases (hcount.trans hle).eq_or_lt with hzero | hpos
  · unfold percent
    rw [if_pos (Decimal.isZero_iff_toRat.2 hzero.symm), Decimal.isZero_iff_toRat.1 rfl]
    exact ⟨Decimal.unsigned_zero, by norm_num⟩
  rcases percent_cases hcount hle hpos with h | ⟨-, ratio, -, hsmall, hsign, hrat⟩
  · have hhundred : 100 * count.toRat / total.toRat ≤ (100 : ℕ) :=
      (div_le_iff₀ hpos).2 (mul_le_mul_of_nonneg_left hle (by norm_num))
    exact ⟨h.unsigned, by exact_mod_cast (Decimal.le_natCast_of_near h.near 100).2 hhundred⟩
  · exact ⟨hsign, by linarith⟩

end Chart

end DiceTally
