import DiceTally.Proofs.Chart.Lines
import DiceTally.Proofs.Distribution

/-!
# The length of bars

The bar of a result is as long as its share times the size of the bars, brought to an integer from above.  The share
and the product are rounded before.  For whole weights with a total of at most `bound64` this matters in one case only:
the exact length is an integer, the share was rounded down, and its product with the size does not come up to the
integer again; then one character is missing (`FallsShort`, `barLength_eq`).  A result with one twelfth of the weight
is such a case for bars of three characters per percent.
-/

namespace DiceTally

namespace Decimal

variable {a d : Decimal} {n : Nat}

theorem IsNat.toRat_eq (h : d.IsNat n) : d.toRat = n := by
  have hpos := tenTo_cast_pos 28
  rw [toRat_eq_units, h]
  push_cast
  exact mul_div_cancel_right₀ _ hpos.ne'

theorem toRat_ofNat (h : n < mantissaBound) : (ofNat n).toRat = n := (isNat_ofNat h).toRat_eq

/-- A sum of natural numbers is exact as long as it is in range. -/
theorem toRat_foldl_addSaturating {weights : List Decimal} (ha : a.IsNat n) (h : ∀ w ∈ weights, ∃ m, w.IsNat m)
    (hrange : a.toRat + (weights.map toRat).sum < mantissaBound) :
    (weights.foldl addSaturating a).toRat = a.toRat + (weights.map toRat).sum := by
  induction weights generalizing a n with
  | nil => simp
  | cons w weights ih =>
    obtain ⟨⟨m, hw⟩, hweights⟩ := List.forall_mem_cons.1 h
    have hnonneg : 0 ≤ (weights.map toRat).sum := by
      refine List.sum_nonneg fun q hq => ?_
      obtain ⟨w', hw', rfl⟩ := List.mem_map.1 hq
      obtain ⟨m', hm'⟩ := hweights w' hw'
      rw [hm'.toRat_eq]
      exact Nat.cast_nonneg m'
    rw [List.map_cons, List.sum_cons, ← add_assoc] at hrange ⊢
    have hsmall : n + m < mantissaBound := by
      have hlt : a.toRat + w.toRat < mantissaBound := (le_add_of_nonneg_right hnonneg).trans_lt hrange
      rw [ha.toRat_eq, hw.toRat_eq] at hlt
      exact_mod_cast hlt
    have hsum := ha.addSaturating hw
    rw [Nat.min_eq_left (Nat.le_sub_one_of_lt hsmall)] at hsum
    have hrat : (a.addSaturating w).toRat = a.toRat + w.toRat := by
      rw [hsum.toRat_eq, ha.toRat_eq, hw.toRat_eq, Nat.cast_add]
    rw [← hrat] at hrange ⊢
    exact ih hsum hweights hrange

end Decimal

namespace Distribution

variable {d : Distribution}

/-- The sum of the weights, not rounded. -/
def weightSum (d : Distribution) : ℚ := (d.entries.map fun entry => entry.2.toRat).sum

/-- The total is the sum of the weights as long as it is in range. -/
theorem WholeCounts.toRat_total (h : d.WholeCounts) (hrange : d.weightSum < mantissaBound) :
    d.total.toRat = d.weightSum := by
  have hzero : Decimal.zero.IsNat 0 := Decimal.isNat_iff.2 rfl
  have hnat : ∀ w ∈ d.entries.map Prod.snd, ∃ m, w.IsNat m := by
    intro w hw
    obtain ⟨entry, hentry, rfl⟩ := List.mem_map.1 hw
    exact ⟨_, h.isNat hentry⟩
  have hsum : ((d.entries.map Prod.snd).map Decimal.toRat).sum = d.weightSum := by
    rw [List.map_map]
    rfl
  have htotal := Decimal.toRat_foldl_addSaturating hzero hnat
  rw [hzero.toRat_eq, hsum, Nat.cast_zero, zero_add, List.foldl_map] at htotal
  exact htotal hrange

theorem WholeCounts.nonnegCounts (h : d.WholeCounts) : d.NonnegCounts := fun entry hentry => (h entry hentry).2

/-- The sum of whole weights is a natural number. -/
theorem WholeCounts.exists_weightSum_eq (h : d.WholeCounts) : ∃ n : ℕ, d.weightSum = n := by
  refine ⟨(d.entries.map fun entry => entry.2.mantissa / tenTo entry.2.scale).sum, ?_⟩
  have hcounts : (d.entries.map fun entry => entry.2.toRat) =
      d.entries.map fun entry => ((entry.2.mantissa / tenTo entry.2.scale : ℕ) : ℚ) :=
    List.map_congr_left fun entry hentry => (h.isNat hentry).toRat_eq
  rw [weightSum, hcounts, Nat.cast_list_sum, List.map_map]
  rfl

end Distribution

namespace Chart

variable {options : ChartOptions} {d : Distribution}

/-- The share of a weight in percent, not rounded. -/
def exactShare (d : Distribution) (count : Decimal) : ℚ := 100 * count.toRat / d.weightSum

/-- The length that the bar of a weight has before it is brought to an integer. -/
def exactLength (options : ChartOptions) (d : Distribution) (count : Decimal) : ℚ :=
  exactShare d count * options.barSize

/-- The exact length is an integer, but the rounded product of the rounded share and the size is below it. -/
def FallsShort (options : ChartOptions) (d : Distribution) (count : Decimal) : Prop :=
  (∃ n : ℕ, exactLength options d count = n) ∧
    ∃ product, (percent count d.total).mul? (.ofNat options.barSize) = some product ∧
      product.toRat < exactLength options d count

theorem fallsShort_iff {count product : Decimal}
    (h : (percent count d.total).mul? (.ofNat options.barSize) = some product) : FallsShort options d count ↔
      (∃ n : ℕ, exactLength options d count = n) ∧ product.toRat < exactLength options d count := by
  simp only [FallsShort, h, Option.some.injEq, exists_eq_left']

/-- Whole weights have a quotient of natural numbers as exact length. -/
theorem exists_exactLength_eq (options : ChartOptions) (h : d.WholeCounts) {entry : Tuple × Decimal}
    (hentry : entry ∈ d.entries) :
    ∃ m n : ℕ, d.weightSum = n ∧ exactLength options d entry.2 = m / n := by
  obtain ⟨total, htotal⟩ := h.exists_weightSum_eq
  refine ⟨100 * (entry.2.mantissa / tenTo entry.2.scale) * options.barSize, total, htotal, ?_⟩
  rw [exactLength, exactShare, (h.isNat hentry).toRat_eq, htotal]
  push_cast
  ring

/-- A product below an exact length that is an integer comes from a share that was rounded down. -/
theorem lt_exactShare_of_below {count share product : Decimal} {n : ℕ}
    (hnearest : product.IsNearest (share.toRat * options.barSize)) (hn : exactLength options d count = n)
    (hbelow : product.toRat < n) : share.toRat < exactShare d count := by
  by_contra hup
  have hreached : exactShare d count * options.barSize ≤ share.toRat * options.barSize :=
    mul_le_mul_of_nonneg_right (not_lt.1 hup) (Nat.cast_nonneg _)
  rw [← exactLength, hn] at hreached
  exact absurd ((Decimal.le_natCast_of_near hnearest.near n).1 hreached) (not_le.2 hbelow)

/-- The floor of a quotient is kept when the quotient is moved by less than one part of its divisor, unless it is an
integer and moved down. -/
theorem floor_of_near {m n : ℕ} {p : ℚ} (hn : 0 < n) (hnear : |(m / n : ℚ) - p| < 1 / n) :
    ((∃ k : ℕ, (m / n : ℚ) = k) ∧ p < m / n → (⌊p⌋ : ℚ) + 1 = m / n) ∧
      (¬((∃ k : ℕ, (m / n : ℚ) = k) ∧ p < m / n) → ⌊p⌋ = ⌊(m / n : ℚ)⌋) := by
  have hnpos : (0 : ℚ) < n := Nat.cast_pos.2 hn
  obtain ⟨hlow, hhigh⟩ := abs_lt.1 hnear
  constructor
  · rintro ⟨⟨k, hk⟩, hbelow⟩
    have hone : (1 / n : ℚ) ≤ 1 := (div_le_one hnpos).2 (by exact_mod_cast hn)
    have hfloor : ⌊p⌋ = (k : ℤ) - 1 := by
      rw [hk] at hhigh hbelow
      rw [Int.floor_eq_iff]
      push_cast
      constructor <;> linarith
    rw [hfloor, hk]
    push_cast
    ring
  · intro hkept
    have hfloor := Int.floor_le (m / n : ℚ)
    have hceil := Int.lt_floor_add_one (m / n : ℚ)
    -- an integer is a multiple of one part of the divisor
    have hpart (i : ℤ) : (i : ℚ) = (i * n : ℤ) / n := by
      push_cast
      exact (mul_div_cancel_right₀ _ hnpos.ne').symm
    rw [Int.floor_eq_iff]
    by_cases hbelow : p < m / n
    · have hnotInt : (⌊(m / n : ℚ)⌋ : ℚ) ≠ m / n := by
        intro heq
        have hnonneg : 0 ≤ ⌊(m / n : ℚ)⌋ := Int.floor_nonneg.2 (by positivity)
        refine hkept ⟨⟨⌊(m / n : ℚ)⌋.toNat, ?_⟩, hbelow⟩
        rw [← heq]
        exact_mod_cast (Int.toNat_of_nonneg hnonneg).symm
      have hlt := lt_of_le_of_ne hfloor hnotInt
      have hstep := Rounding.grid_step (a := ⌊(m / n : ℚ)⌋ * n) (b := (m : ℤ)) hn (by
        rw [← hpart, Int.cast_natCast]
        exact hlt)
      rw [← hpart] at hstep
      push_cast at hstep
      exact ⟨by linarith, by linarith⟩
    · have hstep := Rounding.grid_step (a := (m : ℤ)) (b := (⌊(m / n : ℚ)⌋ + 1) * n) hn (by
        rw [← hpart, Int.cast_natCast, Int.cast_add, Int.cast_one]
        exact hceil)
      rw [← hpart] at hstep
      push_cast at hstep
      exact ⟨by linarith [not_lt.1 hbelow], by linarith [not_lt.1 hbelow]⟩

/-- A bar has the length of the product of share and size, brought to an integer from above. -/
theorem barLength_of_mul? {share product : Decimal} (hsize : options.barSize < mantissaBound)
    (h : share.mul? (.ofNat options.barSize) = some product) (hlow : 0 ≤ product.toRat)
    (hhigh : product.toRat < bound64) : (barLength options share : ℤ) = ⌊product.toRat⌋ := by
  have hfloor : product.round .floor = ⌊product.toRat⌋ := Decimal.round_eq_ofRat .floor product
  have hnonneg : 0 ≤ ⌊product.toRat⌋ := Int.floor_nonneg.2 hlow
  have hrange : ⌊product.toRat⌋ < bound64 := Int.floor_lt.2 (by exact_mod_cast hhigh)
  unfold barLength
  rw [Decimal.ofInt?_natCast _ hsize, Option.bind_some, h]
  dsimp only
  rw [hfloor, if_pos ⟨hnonneg, hrange⟩, Int.toNat_of_nonneg hnonneg]

/-- The product of a share and the size of the bars. -/
theorem exists_mul?_size {share : Decimal} (hshare : 0 ≤ share.toRat) (hshare' : share.toRat ≤ 100)
    (hsize : options.barSize ≤ 10 ^ 6) :
    ∃ product, share.mul? (.ofNat options.barSize) = some product ∧
      product.IsNearest (share.toRat * options.barSize) := by
  obtain ⟨v, hv⟩ : ∃ v : Value, v.toInt = options.barSize :=
    ⟨_, Value.toInt_of_ofInt? (Value.ofInt?_of_range (by simp only [Value.bound]; omega)
      (by simp only [Value.bound]; omega))⟩
  have hofNat : Decimal.ofValue v = .ofNat options.barSize := by
    have hvalue := Decimal.ofInt?_toInt v
    rw [hv, Decimal.ofInt?_natCast _ (by simp only [mantissaBound]; omega)] at hvalue
    exact (Option.some.inj hvalue).symm
  have hsize' : (options.barSize : ℚ) ≤ 10 ^ 6 := by exact_mod_cast hsize
  have hproduct : share.toRat * options.barSize ≤ 100 * 10 ^ 6 :=
    mul_le_mul hshare' hsize' (Nat.cast_nonneg _) (by norm_num)
  have hcases := Decimal.mul?_ofValue_cases v share
  rw [hofNat, hv, Decimal.mul?_comm, Int.cast_natCast, mul_comm (options.barSize : ℚ)] at hcases
  rcases hcases with ⟨-, hout⟩ | ⟨product, hmul, hnearest, -⟩
  · rw [abs_of_nonneg (by positivity)] at hout
    norm_num [mantissaBound] at hout
    exact absurd hout (by linarith)
  · exact ⟨product, hmul, hnearest⟩

/-- Rounding a share and its product with a size moves the length by less than one part of the total. -/
theorem abs_sub_lt_of_rounded {share size length total product : ℚ} (hlength : length = share * size)
    {rounded : ℚ} (hshare : |share - rounded| ≤ 100 / tenTo 28) (hproduct : |rounded * size - product| ≤
      |rounded * size| / tenTo 28) (hrounded : 0 ≤ rounded) (hrounded' : rounded ≤ 100) (hsize : 0 ≤ size)
    (hsize' : size ≤ 10 ^ 6) (htotal : 0 < total) (htotal' : total ≤ bound64) : |length - product| < 1 / total := by
  have hten : (tenTo 28 : ℚ) = 10 ^ 28 := by norm_num [tenTo]
  rw [hten] at hshare hproduct
  have hscaled : |length - rounded * size| ≤ 100 / 10 ^ 28 * 10 ^ 6 := by
    rw [hlength, ← sub_mul, abs_mul, abs_of_nonneg hsize]
    exact mul_le_mul hshare hsize' hsize (by norm_num)
  have hlarge : |rounded * size| ≤ 100 * 10 ^ 6 := by
    rw [abs_of_nonneg (mul_nonneg hrounded hsize)]
    exact mul_le_mul hrounded' hsize' hsize (by norm_num)
  have hpart : (1 / (bound64 : ℕ) : ℚ) ≤ 1 / total := one_div_le_one_div_of_le htotal htotal'
  calc |length - product| ≤ |length - rounded * size| + |rounded * size - product| := abs_sub_le ..
    _ ≤ 100 / 10 ^ 28 * 10 ^ 6 + 100 * 10 ^ 6 / 10 ^ 28 :=
      add_le_add hscaled (hproduct.trans (div_le_div_of_nonneg_right hlarge (by norm_num)))
    _ < 1 / (bound64 : ℕ) := by norm_num [bound64]
    _ ≤ 1 / total := hpart

variable {entry : Tuple × Decimal}

/-- The share is the rounded exact share. -/
theorem isQuotient_percent (hwhole : d.WholeCounts) (hpos : 0 < d.weightSum) (hmax : d.weightSum ≤ bound64)
    (hentry : entry ∈ d.entries) :
    (percent entry.2 d.total).IsQuotient (exactShare d entry.2) ∧ exactShare d entry.2 ≤ 100 := by
  have hbound : (100 : ℚ) * (bound64 : ℕ) < mantissaBound - 1 / 2 := by norm_num [mantissaBound, bound64]
  have htotal := hwhole.toRat_total (hmax.trans_lt (by norm_num [mantissaBound, bound64]))
  obtain ⟨hnonneg, hle⟩ := le_total hwhole.nonnegCounts hentry
  have hcases := percent_cases hnonneg hle (htotal ▸ hpos)
  rw [htotal] at hle hcases
  rcases hcases with h | ⟨hlarge, -⟩
  · exact ⟨h, (div_le_iff₀ hpos).2 (mul_le_mul_of_nonneg_left hle (by norm_num))⟩
  · exact absurd hbound (hlarge.trans (mul_le_mul_of_nonneg_left (hle.trans hmax) (by norm_num))).not_gt

/-- The number of bar characters: the floor of the exact length, or one less where it falls short. -/
theorem barLength_eq (hwhole : d.WholeCounts) (hpos : 0 < d.weightSum) (hmax : d.weightSum ≤ bound64)
    (hsize : options.barSize ≤ 10 ^ 6) (hentry : entry ∈ d.entries) :
    (FallsShort options d entry.2 → (percent entry.2 d.total).toRat < exactShare d entry.2 ∧
        (barLength options (percent entry.2 d.total) : ℚ) + 1 = exactLength options d entry.2) ∧
      (¬FallsShort options d entry.2 →
        (barLength options (percent entry.2 d.total) : ℤ) = ⌊exactLength options d entry.2⌋) := by
  obtain ⟨hquotient, hexact⟩ := isQuotient_percent hwhole hpos hmax hentry
  obtain ⟨hnonneg, hle⟩ := le_total hwhole.nonnegCounts hentry
  have hshare0 := hquotient.unsigned.toRat_nonneg
  have hshare := (percent_le hnonneg hle).2
  obtain ⟨product, hmul, hnearest⟩ := exists_mul?_size hshare0 hshare hsize
  have hsize0 : (0 : ℚ) ≤ options.barSize := Nat.cast_nonneg _
  have hsize' : (options.barSize : ℚ) ≤ 10 ^ 6 := by exact_mod_cast hsize
  have hscaled : (percent entry.2 d.total).toRat * options.barSize ≤ 100 * 10 ^ 6 :=
    mul_le_mul hshare hsize' hsize0 (by norm_num)
  have hproduct0 := (Decimal.le_natCast_of_near hnearest.near 0).1 (by push_cast; positivity)
  have hproduct := (Decimal.le_natCast_of_near hnearest.near (100 * 10 ^ 6)).2 (by exact_mod_cast hscaled)
  have hbar := barLength_of_mul? (by simp only [mantissaBound]; omega) hmul (by simpa using hproduct0)
    (hproduct.trans_lt (by norm_num [bound64]))
  have hnear : |exactLength options d entry.2 - product.toRat| < 1 / d.weightSum :=
    abs_sub_lt_of_rounded rfl (hquotient.abs_sub_le hexact (by norm_num)) hnearest.abs_sub_le_mul hshare0 hshare
      hsize0 hsize' hpos hmax
  obtain ⟨m, total, htotal, hlength⟩ := exists_exactLength_eq options hwhole hentry
  rw [hlength, htotal] at hnear
  obtain ⟨hless, hkept⟩ := floor_of_near (Nat.cast_pos.1 (htotal ▸ hpos)) hnear
  rw [← hlength, ← fallsShort_iff hmul] at hless hkept
  constructor
  · intro h
    obtain ⟨⟨n, hn⟩, hbelow⟩ := (fallsShort_iff hmul).1 h
    refine ⟨lt_exactShare_of_below hnearest hn (hn ▸ hbelow), ?_⟩
    rw [← hless h, ← hbar, Int.cast_natCast]
  · intro h
    rw [hbar, hkept h]

/-- A line ends with what leads the bars and a bar as long as the floor of the exact length, or one character less
where it falls short. -/
theorem bars_of_lines (hwhole : d.WholeCounts) (hpos : 0 < d.weightSum) (hmax : d.weightSum ≤ bound64)
    (hsize : 1 ≤ options.barSize) (hsize' : options.barSize ≤ 10 ^ 6) :
    List.Forall₂ (fun entry line => ∃ length : ℕ,
        line = trimEnd (fields options d entry ++ " " ++
          (options.barLead ++ String.join (List.replicate length options.barChar))) ∧
        (FallsShort options d entry.2 → (percent entry.2 d.total).toRat < exactShare d entry.2 ∧
          (length : ℚ) + 1 = exactLength options d entry.2) ∧
        (¬FallsShort options d entry.2 → (length : ℤ) = ⌊exactLength options d entry.2⌋))
      (ordered options d) (lines options d) := by
  rw [lines_eq, List.forall₂_map_right_iff, List.forall₂_same]
  intro entry hentry
  have hbar : bar options (percent entry.2 d.total) = options.barLead ++
      String.join (List.replicate (barLength options (percent entry.2 d.total)) options.barChar) :=
    if_neg (Nat.one_le_iff_ne_zero.1 hsize)
  refine ⟨_, ?_, barLength_eq hwhole hpos hmax hsize' ((ordered_perm options d).mem_iff.1 hentry)⟩
  rw [hbar]

/-- One twelfth of the weight for one result, the rest for another one. -/
def twelfths : Distribution := (Distribution.empty.add [1] (.ofNat 1)).add [2] (.ofNat 11)

/-- Three bar characters per percent. -/
def tripled : ChartOptions := { ChartOptions.default with barSize := 3 }

theorem twelfths_entries : twelfths.WholeCounts ∧ twelfths.weightSum = 12 ∧
    twelfths.entries = [([1], .ofNat 1), ([2], .ofNat 11)] := by
  have hentries : twelfths.entries = [([1], .ofNat 1), ([2], .ofNat 11)] := by decide +kernel
  refine ⟨?_, ?_, hentries⟩
  · unfold Distribution.WholeCounts
    decide +kernel
  · rw [Distribution.weightSum, hentries, List.map_cons, List.map_singleton, List.sum_cons, List.sum_singleton,
      Decimal.toRat_ofNat (by decide), Decimal.toRat_ofNat (by decide)]
    norm_num

theorem bars_of_lines_twelfths : twelfths.WholeCounts ∧ 0 < twelfths.weightSum ∧ twelfths.weightSum ≤ bound64 ∧
    1 ≤ tripled.barSize ∧ tripled.barSize ≤ 10 ^ 6 ∧
    List.Forall₂ (fun entry line => ∃ length : ℕ,
        line = trimEnd (fields tripled twelfths entry ++ " " ++
          (tripled.barLead ++ String.join (List.replicate length tripled.barChar))) ∧
        (FallsShort tripled twelfths entry.2 → (percent entry.2 twelfths.total).toRat < exactShare twelfths entry.2 ∧
          (length : ℚ) + 1 = exactLength tripled twelfths entry.2) ∧
        (¬FallsShort tripled twelfths entry.2 → (length : ℤ) = ⌊exactLength tripled twelfths entry.2⌋))
      (ordered tripled twelfths) (lines tripled twelfths) := by
  obtain ⟨hwhole, htotal, -⟩ := twelfths_entries
  have hpos : 0 < twelfths.weightSum := by rw [htotal]; norm_num
  have hmax : twelfths.weightSum ≤ bound64 := by rw [htotal]; norm_num [bound64]
  exact ⟨hwhole, hpos, hmax, by decide, by decide, bars_of_lines hwhole hpos hmax (by decide) (by decide)⟩

/-- The bar of one twelfth should have 25 characters, and has 24. -/
theorem bar_of_twelfth_falls_short : twelfths.WholeCounts ∧ 0 < twelfths.weightSum ∧
    twelfths.weightSum ≤ bound64 ∧ 1 ≤ tripled.barSize ∧ tripled.barSize ≤ 10 ^ 6 ∧
    ¬List.Forall₂ (fun entry line => line = trimEnd (fields tripled twelfths entry ++ " " ++
        (tripled.barLead ++ String.join (List.replicate ⌊exactLength tripled twelfths entry.2⌋.toNat tripled.barChar))))
      (ordered tripled twelfths) (lines tripled twelfths) := by
  obtain ⟨hwhole, htotal, hentries⟩ := twelfths_entries
  have hlength : exactLength tripled twelfths (.ofNat 1) = (25 : ℤ) := by
    rw [exactLength, exactShare, htotal, Decimal.toRat_ofNat (by decide)]
    norm_num [tripled]
  refine ⟨hwhole, by rw [htotal]; norm_num, by rw [htotal]; norm_num [bound64], by decide, by decide, fun h => ?_⟩
  have hordered : ordered tripled twelfths = [([1], .ofNat 1), ([2], .ofNat 11)] := hentries
  rw [lines_eq, List.forall₂_map_right_iff, List.forall₂_same, hordered] at h
  have hfirst := h _ List.mem_cons_self
  rw [hlength, Int.floor_intCast] at hfirst
  exact absurd hfirst (by decide +kernel)

end Chart

end DiceTally
