import DiceTally.Proofs.Decimal.Whole
import Mathlib.Algebra.Order.Field.Basic
import Mathlib.Data.Rat.Floor
import Mathlib.Tactic.FieldSimp
import Mathlib.Tactic.Linarith
import Mathlib.Tactic.Positivity
import Mathlib.Tactic.Ring

/-!
# Rounding rational numbers

`Rounding.ofRat` says to which integer a rational number is rounded.  The rounding of a quotient with a sign is that of
the rational number (`divide_eq_ofRat`).  A rounding is constant between its breaks, the integers or the numbers
halfway between them, so a number that is first moved to the nearest point of a grid with an even number of points
to the unit is rounded as before, unless that point is a break (`ofRat_eq_or_isBreak`).
-/

namespace DiceTally

namespace Rounding

/-- The integer that a rational number is rounded to. -/
def ofRat (mode : Rounding) (q : ℚ) : ℤ :=
  match mode with
  | ceil => ⌈q⌉
  | floor => ⌊q⌋
  | truncate => if 0 ≤ q then ⌊q⌋ else ⌈q⌉
  | halfUp => if 0 ≤ q then ⌊q + 1 / 2⌋ else ⌈q - 1 / 2⌉
  | halfDown => if 0 ≤ q then ⌈q - 1 / 2⌉ else ⌊q + 1 / 2⌋

theorem ofRat_intCast (mode : Rounding) (n : ℤ) : mode.ofRat n = n := by
  have hup : ⌊(n : ℚ) + 1 / 2⌋ = n := by
    rw [Int.floor_eq_iff]
    constructor <;> linarith
  have hdown : ⌈(n : ℚ) - 1 / 2⌉ = n := by
    rw [Int.ceil_eq_iff]
    constructor <;> linarith
  cases mode with
  | ceil => exact Int.ceil_intCast n
  | floor => exact Int.floor_intCast n
  | truncate => simp only [ofRat, Int.floor_intCast, Int.ceil_intCast, ite_self]
  | halfUp => simp only [ofRat, hup, hdown, ite_self]
  | halfDown => simp only [ofRat, hup, hdown, ite_self]

/-- A rounding moves a number by less than one. -/
theorem abs_ofRat_sub_lt (mode : Rounding) (q : ℚ) : |(mode.ofRat q : ℚ) - q| < 1 := by
  have hfloor := Int.floor_le q
  have hfloor' := Int.lt_floor_add_one q
  have hceil := Int.le_ceil q
  have hceil' := Int.ceil_lt_add_one q
  have hup := Int.floor_le (q + 1 / 2)
  have hup' := Int.lt_floor_add_one (q + 1 / 2)
  have hdown := Int.le_ceil (q - 1 / 2)
  have hdown' := Int.ceil_lt_add_one (q - 1 / 2)
  rw [abs_lt]
  cases mode with
  | ceil | floor =>
    simp only [ofRat]
    constructor <;> linarith
  | truncate | halfUp | halfDown =>
    simp only [ofRat]
    split <;> constructor <;> linarith

/-! ### Signs -/

/-- The rounding of the opposite numbers. -/
def mirror : Rounding → Rounding
  | ceil => floor
  | floor => ceil
  | truncate => truncate
  | halfUp => halfUp
  | halfDown => halfDown

theorem ofRat_neg (mode : Rounding) (q : ℚ) : mode.ofRat (-q) = -mode.mirror.ofRat q := by
  have hup : ⌊-q + 1 / 2⌋ = -⌈q - 1 / 2⌉ := by
    rw [← Int.floor_neg]
    congr 1
    ring
  have hdown : ⌈-q - 1 / 2⌉ = -⌊q + 1 / 2⌋ := by
    rw [← Int.ceil_neg]
    congr 1
    ring
  by_cases hzero : q = 0
  · have hrefl (mode : Rounding) : mode.ofRat 0 = 0 := mod_cast ofRat_intCast mode 0
    rw [hzero, neg_zero, hrefl, hrefl, neg_zero]
  -- away from zero the opposite number has the opposite sign
  have hsign : 0 ≤ -q ↔ ¬0 ≤ q := by
    constructor
    · intro h hq
      exact hzero (le_antisymm (by linarith) hq)
    · intro h
      linarith
  cases mode with
  | ceil => exact Int.ceil_neg
  | floor => exact Int.floor_neg
  | truncate =>
    simp only [ofRat, mirror, hsign, Int.floor_neg, Int.ceil_neg]
    split <;> simp_all
  | halfUp | halfDown =>
    simp only [ofRat, mirror, hsign, hup, hdown]
    split <;> simp_all

theorem divide_true (mode : Rounding) (n d : Nat) : mode.divide true n d = mode.mirror.divide false n d := by
  have haway : mode.away true (n % d) d = mode.mirror.away false (n % d) d := by
    cases mode <;> rfl
  rw [divide, divide, haway]

/-! ### Quotients -/

/-- A quotient of natural numbers is rounded as a rational number. -/
theorem divide_eq_ofRat (mode : Rounding) (n : Nat) {d : Nat} (hd : 0 < d) :
    (mode.divide false n d : ℤ) = mode.ofRat (n / d) := by
  -- the quotient is its integer part and a fraction, and the modes only ask for the size of the fraction
  obtain ⟨q, hq⟩ : ∃ q, n / d = q := ⟨_, rfl⟩
  obtain ⟨r, hr⟩ : ∃ r, n % d = r := ⟨_, rfl⟩
  obtain ⟨f, hf⟩ : ∃ f : ℚ, (r : ℚ) / d = f := ⟨_, rfl⟩
  have hdq : (0 : ℚ) < d := Nat.cast_pos.2 hd
  have hrd : r < d := hr ▸ Nat.mod_lt n hd
  have hsum : (n : ℚ) / d = q + f := by
    have hn : (n : ℚ) = d * q + r := by
      rw [← hq, ← hr]
      exact_mod_cast (Nat.div_add_mod n d).symm
    rw [hn, ← hf]
    field_simp
  have hf0 : 0 ≤ f := by
    rw [← hf]
    positivity
  have hf1 : f < 1 := by
    rw [← hf, div_lt_one hdq]
    exact_mod_cast hrd
  have hpos : 0 < r ↔ 0 < f := by
    rw [← hf, div_pos_iff_of_pos_right hdq, Nat.cast_pos]
  have hhalf : d ≤ 2 * r ↔ 1 / 2 ≤ f := by
    rw [← hf, div_le_div_iff₀ two_pos hdq, one_mul, ← @Nat.cast_le ℚ, Nat.cast_mul, Nat.cast_ofNat, mul_comm (r : ℚ)]
  have hmore : d < 2 * r ↔ 1 / 2 < f := by
    rw [← hf, div_lt_div_iff₀ two_pos hdq, one_mul, ← @Nat.cast_lt ℚ, Nat.cast_mul, Nat.cast_ofNat, mul_comm (r : ℚ)]
  have hnonneg : (0 : ℚ) ≤ q + f := by positivity
  have hfloor : ⌊(q : ℚ) + f⌋ = q := by
    rw [Int.floor_eq_iff]
    constructor <;> push_cast <;> linarith
  rw [hsum, divide, hq, hr]
  cases mode with
  | ceil =>
    simp only [away, ofRat, Bool.not_false, Bool.true_and, decide_eq_true_eq, hpos]
    symm
    rw [Int.ceil_eq_iff]
    split <;> constructor <;> push_cast <;> linarith
  | floor => simp [away, ofRat, hfloor]
  | truncate => simp [away, ofRat, hnonneg, hfloor]
  | halfUp =>
    simp only [away, ofRat, if_pos hnonneg, decide_eq_true_eq, hhalf]
    symm
    rw [Int.floor_eq_iff]
    split <;> constructor <;> push_cast <;> linarith
  | halfDown =>
    simp only [away, ofRat, if_pos hnonneg, decide_eq_true_eq, hmore]
    symm
    rw [Int.ceil_eq_iff]
    split <;> constructor <;> push_cast <;> linarith

/-! ### Breaks -/

/-- How far the breaks of a rounding lie from the integers. -/
def offset : Rounding → ℚ
  | ceil | floor | truncate => 0
  | halfUp | halfDown => 1 / 2

/-- A number where a rounding goes on to the next integer: an integer, or a number halfway between two of them. -/
def IsBreak (mode : Rounding) (q : ℚ) : Prop := ∃ n : ℤ, q = n + mode.offset

/-- The integer that the numbers between a break and the next one are rounded to. -/
def step (mode : Rounding) (n : ℤ) : ℤ :=
  match mode with
  | ceil | halfUp | halfDown => n + 1
  | floor => n
  | truncate => if 0 ≤ n then n else n + 1

theorem ofRat_of_between {mode : Rounding} {n : ℤ} {q : ℚ} (hlow : n + mode.offset < q)
    (hhigh : q < n + 1 + mode.offset) : mode.ofRat q = mode.step n := by
  cases mode with
  | ceil =>
    simp only [offset, add_zero] at hlow hhigh
    simp only [ofRat, step]
    rw [Int.ceil_eq_iff]
    constructor <;> push_cast <;> linarith
  | floor =>
    simp only [offset, add_zero] at hlow hhigh
    simp only [ofRat, step]
    rw [Int.floor_eq_iff]
    constructor <;> linarith
  | truncate =>
    simp only [offset, add_zero] at hlow hhigh
    have hfloor : ⌊q⌋ = n := by
      rw [Int.floor_eq_iff]
      constructor <;> linarith
    have hceil : ⌈q⌉ = n + 1 := by
      rw [Int.ceil_eq_iff]
      constructor <;> push_cast <;> linarith
    have hsign : 0 ≤ q ↔ 0 ≤ n := by
      rw [← hfloor, Int.floor_nonneg]
    simp only [ofRat, step, hfloor, hceil, hsign]
  | halfUp | halfDown =>
    simp only [offset] at hlow hhigh
    have hup : ⌊q + 1 / 2⌋ = n + 1 := by
      rw [Int.floor_eq_iff]
      constructor <;> push_cast <;> linarith
    have hdown : ⌈q - 1 / 2⌉ = n + 1 := by
      rw [Int.ceil_eq_iff]
      constructor <;> push_cast <;> linarith
    simp only [ofRat, step, hup, hdown, ite_self]

/-- A break itself is rounded like the numbers on one side of it. -/
theorem ofRat_break (mode : Rounding) (n : ℤ) :
    mode.ofRat (n + mode.offset) = mode.step n ∨ mode.ofRat (n + mode.offset) = mode.step (n - 1) := by
  cases mode with
  | ceil =>
    right
    simp [offset, ofRat, step]
  | floor =>
    left
    simp [offset, ofRat, step]
  | truncate =>
    have hvalue : truncate.ofRat (n + truncate.offset) = n := by
      rw [offset, add_zero, ofRat_intCast]
    rw [hvalue]
    simp only [step]
    by_cases hn : 0 ≤ n
    · left
      rw [if_pos hn]
    · right
      rw [if_neg (by omega)]
      omega
  | halfUp | halfDown =>
    have hup : ⌊(n : ℚ) + 1 / 2 + 1 / 2⌋ = n + 1 := by
      rw [add_assoc, add_halves, Int.floor_add_one, Int.floor_intCast]
    have hdown : ⌈(n : ℚ) + 1 / 2 - 1 / 2⌉ = n := by
      rw [add_sub_cancel_right, Int.ceil_intCast]
    simp only [offset, ofRat, step, hup, hdown]
    split
    · simp
    · simp

/-- Rounding on the other side of a break changes the result by one at most. -/
theorem abs_ofRat_sub_le_of_isBreak {mode : Rounding} {t q : ℚ} (ht : mode.IsBreak t) (hq : |q - t| < 1) :
    |mode.ofRat t - mode.ofRat q| ≤ 1 := by
  obtain ⟨n, rfl⟩ := ht
  obtain ⟨hlow, hhigh⟩ := abs_lt.1 hq
  have hsteps : 0 ≤ mode.step n - mode.step (n - 1) ∧ mode.step n - mode.step (n - 1) ≤ 1 := by
    cases mode with
    | ceil | floor | halfUp | halfDown =>
      simp only [step]
      omega
    | truncate =>
      simp only [step]
      split <;> split <;> omega
  have hside : mode.ofRat q = mode.ofRat (n + mode.offset) ∨ mode.ofRat q = mode.step n ∨
      mode.ofRat q = mode.step (n - 1) := by
    rcases lt_trichotomy q (n + mode.offset) with hlt | heq | hgt
    · right
      right
      apply ofRat_of_between <;> push_cast <;> linarith
    · left
      rw [heq]
    · right
      left
      apply ofRat_of_between <;> linarith
  have hbreak := ofRat_break mode n
  rw [abs_le]
  omega

/-- The breaks are points of every grid with an even number of points to the unit. -/
theorem exists_break_eq (mode : Rounding) {d : Nat} (hd : 0 < d) (heven : Even d) (n : ℤ) :
    ∃ a : ℤ, n + mode.offset = a / d := by
  obtain ⟨c, rfl⟩ := heven
  have hc : (c : ℚ) ≠ 0 := by
    have : c ≠ 0 := by omega
    exact_mod_cast this
  cases mode with
  | ceil | floor | truncate =>
    refine ⟨n * (c + c), ?_⟩
    simp only [offset]
    push_cast
    field_simp
    ring
  | halfUp | halfDown =>
    refine ⟨n * (c + c) + c, ?_⟩
    simp only [offset]
    push_cast
    field_simp
    ring

/-- Points of a grid that are not the same are one step of the grid apart. -/
theorem grid_step {d : Nat} (hd : 0 < d) {a b : ℤ} (h : (a / d : ℚ) < b / d) : (a / d : ℚ) + 1 / d ≤ b / d := by
  have hdq : (0 : ℚ) < d := Nat.cast_pos.2 hd
  have hab : a < b := by exact_mod_cast (div_lt_div_iff_of_pos_right hdq).1 h
  have hstep : ((a + 1 : ℤ) : ℚ) ≤ b := by exact_mod_cast hab
  rw [← add_div]
  apply div_le_div_of_nonneg_right _ hdq.le
  exact_mod_cast hstep

/-- A number that has been moved to the nearest point of a grid is rounded as before, unless the point is a break. -/
theorem ofRat_eq_or_isBreak (mode : Rounding) {d : Nat} (hd : 0 < d) (heven : Even d) {a : ℤ} {x : ℚ}
    (hx : |x - a / d| ≤ 1 / 2 / d) : mode.ofRat x = mode.ofRat (a / d) ∨ mode.IsBreak (a / d) := by
  by_cases hbreak : mode.IsBreak (a / d)
  · exact .inr hbreak
  left
  -- the point lies between two breaks, and since these are points as well it is one step away from them
  obtain ⟨n, hn⟩ : ∃ n : ℤ, ⌊(a / d : ℚ) - mode.offset⌋ = n := ⟨_, rfl⟩
  obtain ⟨hlow, hhigh⟩ := Int.floor_eq_iff.1 hn
  have hlow' : n + mode.offset < a / d := by
    refine lt_of_le_of_ne (by linarith) fun heq => hbreak ⟨n, heq.symm⟩
  have hhigh' : (a / d : ℚ) < (n + 1 : ℤ) + mode.offset := by
    push_cast
    linarith
  obtain ⟨b, hb⟩ := mode.exists_break_eq hd heven n
  obtain ⟨c, hc⟩ := mode.exists_break_eq hd heven (n + 1)
  have hstep : n + mode.offset + 1 / d ≤ a / d := by
    rw [hb] at hlow' ⊢
    exact grid_step hd hlow'
  have hstep' : (a / d : ℚ) + 1 / d ≤ n + 1 + mode.offset := by
    rw [hc] at hhigh'
    push_cast at hc
    rw [hc]
    exact grid_step hd hhigh'
  obtain ⟨hx, hx'⟩ := abs_le.1 hx
  have hgap : (0 : ℚ) < 1 / d := by positivity
  have hhalf : (1 / 2 / d : ℚ) = 1 / d / 2 := by ring
  have hvalue : mode.ofRat x = mode.step n := by
    apply ofRat_of_between <;> linarith
  have hvalue' : mode.ofRat (a / d) = mode.step n := by
    apply ofRat_of_between <;> linarith
  rw [hvalue, hvalue']

end Rounding

/-! ### The nearest integer -/

/-- Rounding to the nearest integer moves a quotient by at most a half. -/
theorem abs_sub_halfEven_le (n : Nat) {d : Nat} (hd : 0 < d) : |(n / d : ℚ) - halfEven n d| ≤ 1 / 2 := by
  have hdq : (0 : ℚ) < d := Nat.cast_pos.2 hd
  have hn : (n : ℚ) = d * (n / d : Nat) + (n % d : Nat) := by exact_mod_cast (Nat.div_add_mod n d).symm
  have hquotient : (n / d : ℚ) = (n / d : Nat) + (n % d : Nat) / d := by
    nth_rewrite 1 [hn]
    field_simp
  have hmod : n % d < d := Nat.mod_lt n hd
  rw [hquotient, abs_le]
  unfold halfEven
  dsimp only
  by_cases hup : d < 2 * (n % d) ∨ (2 * (n % d) = d ∧ n / d % 2 = 1)
  · rw [if_pos (by simpa using hup)]
    have hlow : (1 / 2 : ℚ) ≤ (n % d : Nat) / d := by
      rw [div_le_div_iff₀ two_pos hdq, one_mul, mul_comm]
      have : d ≤ 2 * (n % d) := by omega
      exact_mod_cast this
    have hhigh : ((n % d : Nat) / d : ℚ) ≤ 1 := by
      rw [div_le_one hdq]
      exact_mod_cast hmod.le
    constructor <;> push_cast <;> linarith
  · rw [if_neg (by simpa using hup)]
    have hlow : (0 : ℚ) ≤ (n % d : Nat) / d := by positivity
    have hhigh : ((n % d : Nat) / d : ℚ) ≤ 1 / 2 := by
      rw [div_le_div_iff₀ hdq two_pos, one_mul, mul_comm]
      have : 2 * (n % d) ≤ d := by omega
      exact_mod_cast this
    constructor <;> linarith

theorem halfEven_le (n : Nat) {d : Nat} (hd : 0 < d) : halfEven n d ≤ n := by
  have hn := Nat.div_add_mod n d
  have hle : n / d ≤ d * (n / d) := Nat.le_mul_of_pos_left _ hd
  unfold halfEven
  dsimp only
  split
  · rename_i hup
    have : d < 2 * (n % d) ∨ (2 * (n % d) = d ∧ n / d % 2 = 1) := by simpa using hup
    omega
  · omega

theorem sub_half_le_of_le_halfEven {bound n d : Nat} (hd : 0 < d) (h : bound ≤ halfEven n d) :
    (bound : ℚ) - 1 / 2 ≤ n / d := by
  have hnear := (abs_le.1 (abs_sub_halfEven_le n hd)).1
  have hbound : (bound : ℚ) ≤ halfEven n d := by exact_mod_cast h
  linarith

end DiceTally
