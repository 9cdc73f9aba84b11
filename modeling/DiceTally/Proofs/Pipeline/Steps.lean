import DiceTally.Proofs.Condition.Render
import DiceTally.Proofs.Operation.Words
import DiceTally.Proofs.Pipeline.Parameters
import DiceTally.Proofs.Power

/-!
# Steps read back

Every step but `reroll` is written as its name with parameters that no list of parameters ends at, and these words
build a step with the same results (`exists_ofWords_tokens`).
-/

namespace DiceTally

open Primitive

/-! ### Lists of numbers -/

theorem readValues_text (operation : String) (values : List Value) :
    Condition.readValues operation (values.map Value.text) = .ok values :=
  Condition.readValues_eq_ok_iff.2 (forall₂_writes_text values)

theorem readDecimals_text (operation : String) (numbers : List Decimal) :
    readDecimals operation (numbers.map Decimal.text) = .ok (numbers.map Decimal.dropZeroSign) := by
  unfold readDecimals
  rw [mapM_eq_ok_iff, List.forall₂_map_left_iff, List.forall₂_map_right_iff, List.forall₂_same]
  intro d _
  rw [d.ofText?_text]

theorem atLeastOne_of_ne_nil {α : Type} {params : List α} (h : params ≠ []) (operation : String) :
    atLeastOne operation params = .ok params :=
  atLeastOne_eq_ok_iff.2 ⟨rfl, h⟩

theorem readBlockSize_toString {size : Nat} (hpos : 0 < size) (hlt : (size : Int) < Value.bound) (operation : String) :
    readBlockSize operation (toString size) = .ok size := by
  have hlist : (toString size).toList = Nat.toDigits 10 size := by
    rw [Nat.toString_eq_ofList_toDigits, String.toList_ofList]
  have hlow : -Value.bound ≤ (size : Int) := Int.le_trans (by decide) (Int.natCast_nonneg size)
  have hint := Value.ofInt?_of_range hlow hlt
  have hvalue : (Int64.ofInt size).toInt = size := Value.toInt_of_ofInt? hint
  have htext : Value.ofText? (toString size) = some (Int64.ofInt size) := by
    rw [Value.ofText?, hlist, intOfChars?_of_natOfChars? (natOfChars?_toDigits size), Option.bind_some]
    exact hint
  have hnot : ¬ Int64.ofInt size ≤ 0 := by
    rw [Int64.le_iff_toInt_le, hvalue]
    simp
    omega
  simp only [readBlockSize, htext, if_neg hnot, hvalue, Int.toNat_natCast]

theorem isNumeric_of_readBlockSize {operation token : String} {size : Nat}
    (h : readBlockSize operation token = .ok size) : isNumeric token = true := by
  unfold readBlockSize at h
  split at h
  · cases h
  · rename_i v hv
    simp [isNumeric, hv]

theorem pairUp_flatMap (pairs : List (Value × Value)) :
    pairUp (pairs.flatMap fun pair => [pair.1, pair.2]) = pairs := by
  induction pairs with
  | nil => rfl
  | cons pair pairs ih => exact congrArg (pair :: ·) ih

/-- Parameters changed in a way that shows in no result. -/
theorem positional_map {α β : Type} (operation : String) (g : α → β) (params : List α) (dice : Tuple)
    (f : Value → β → Except EvalError Value) :
    positional operation (params.map g) dice f = positional operation params dice fun x p => f x (g p) := by
  cases params with
  | nil => simp [positional]
  | cons p rest =>
    cases rest with
    | nil => rfl
    | cons q rest =>
      simp only [positional, List.length_map, List.zip_map_right, List.mapM_map]
      rfl

/-! ### Steps -/

namespace Primitive

theorem readScale_text {factors : List Decimal} (hne : factors ≠ []) (rounding : Rounding) :
    readScale (rounding.tag :: factors.map Decimal.text) = .ok (.scale (factors.map Decimal.dropZeroSign) rounding) := by
  have htag : Rounding.ofTag? rounding.tag = some rounding := by cases rounding <;> decide
  have hne : factors.map Decimal.dropZeroSign ≠ [] := by simpa using hne
  unfold readScale
  simp only [htag]
  exact bind_eq_ok_iff.2 ⟨_, readDecimals_text .., bind_eq_ok_iff.2 ⟨_, atLeastOne_of_ne_nil hne _, rfl⟩⟩

theorem expTags_number {d : Decimal} {words : List String} (asBase : Bool) (rounding : Rounding) :
    expTags asBase rounding (d.text :: words) = (asBase, rounding, d.text :: words) := by
  have hreserved := Token.isReserved_of_isNumeric (isNumeric_decimalText d)
  have hbase : d.text ≠ "as-base" := by
    intro h
    rw [h] at hreserved
    exact absurd hreserved (by decide)
  have htag : Rounding.ofTag? d.text = none := by
    cases h : Rounding.ofTag? d.text with
    | none => rfl
    | some r =>
      have hr := List.find?_some h
      rw [← eq_of_beq hr] at hreserved
      exact absurd hreserved (by cases r <;> decide)
  rw [expTags, if_neg hbase, htag]

theorem readExp_text {exponents : List Decimal} (hne : exponents ≠ []) (asBase : Bool) (rounding : Rounding) :
    readExp ((if asBase then ["as-base"] else []) ++ rounding.tag :: exponents.map Decimal.text) =
      .ok (.exp (exponents.map Decimal.dropZeroSign) asBase rounding) := by
  have htag : Rounding.ofTag? rounding.tag = some rounding := by cases rounding <;> decide
  have hbase : rounding.tag ≠ "as-base" := by cases rounding <;> decide
  have htags (flag : Bool) : expTags flag .truncate (rounding.tag :: exponents.map Decimal.text) =
      (flag, rounding, exponents.map Decimal.text) := by
    obtain ⟨d, ds, rfl⟩ := List.exists_cons_of_ne_nil hne
    rw [expTags, if_neg hbase]
    simp only [htag, List.map_cons]
    exact expTags_number flag rounding
  have hall : expTags false .truncate ((if asBase then ["as-base"] else []) ++ rounding.tag ::
      exponents.map Decimal.text) = (asBase, rounding, exponents.map Decimal.text) := by
    cases asBase with
    | false => exact htags false
    | true => exact htags true
  have hne : exponents.map Decimal.dropZeroSign ≠ [] := by simpa using hne
  unfold readExp
  simp only [hall]
  exact bind_eq_ok_iff.2 ⟨_, readDecimals_text .., bind_eq_ok_iff.2 ⟨_, atLeastOne_of_ne_nil hne _, rfl⟩⟩

theorem readBound_text {pairs : List (Value × Value)} (hne : pairs ≠ [])
    (hordered : ∀ pair ∈ pairs, pair.1 ≤ pair.2) :
    readBound (pairs.flatMap fun pair => [pair.1.text, pair.2.text]) = .ok (.bound pairs) := by
  have hwords : (pairs.flatMap fun pair => [pair.1.text, pair.2.text]) =
      (pairs.flatMap fun pair => [pair.1, pair.2]).map Value.text := by
    rw [List.map_flatMap]
    rfl
  have hnonempty : (pairs.flatMap fun pair => [pair.1, pair.2]) ≠ [] := by
    obtain ⟨pair, rest, rfl⟩ := List.exists_cons_of_ne_nil hne
    simp
  unfold readBound
  rw [hwords]
  refine bind_eq_ok_iff.2 ⟨_, readValues_text .., ?_⟩
  rw [if_neg (by simp [hnonempty]), pairUp_flatMap]
  dsimp only
  split
  · rename_i lower upper hfind
    have hreversed : upper < lower := by simpa using List.find?_some hfind
    exact absurd (hordered _ (List.mem_of_find?_eq_some hfind)) (Int64.not_le.2 hreversed)
  · rfl

end Primitive

namespace Operation

/-- A step is written as a built-in operation with parameters that build a step with the same results. -/
theorem exists_ofWords_tokens {registry : Registry} (hregistry : registry.Built) {step : Primitive}
    (hstep : step.WellFormed) (hreroll : ∀ c, step ≠ .reroll c) :
    ∃ name params built, step.tokens = name :: params ∧ name ∈ Token.operations ∧ name ≠ "reroll" ∧
      (∀ p ∈ params, stopsParams registry p = false) ∧ ofWords name params = .ok (primitive built) ∧
      built.apply = step.apply := by
  have hvalues (values : List Value) : ∀ p ∈ values.map Value.text, stopsParams registry p = false := by
    intro p hp
    obtain ⟨v, -, rfl⟩ := List.mem_map.1 hp
    exact stopsParams_of_isNumeric hregistry (isNumeric_text v)
  have hdecimals (numbers : List Decimal) : ∀ p ∈ numbers.map Decimal.text, stopsParams registry p = false := by
    intro p hp
    obtain ⟨d, -, rfl⟩ := List.mem_map.1 hp
    exact stopsParams_of_isNumeric hregistry (isNumeric_decimalText d)
  cases step with
  | identity => exact ⟨_, _, _, rfl, by decide, by decide, by simp, rfl, rfl⟩
  | reduce reduction =>
    refine ⟨_, _, _, rfl, ?_, ?_, by simp, ?_, rfl⟩
    · cases reduction <;> decide
    · cases reduction <;> decide
    · cases reduction <;> rfl
  | sort => exact ⟨_, _, _, rfl, by decide, by decide, by simp, rfl, rfl⟩
  | add values =>
    refine ⟨_, _, _, rfl, by decide, by decide, hvalues values, ?_, rfl⟩
    exact bind_eq_ok_iff.2 ⟨_, readValues_text .., bind_eq_ok_iff.2 ⟨_, atLeastOne_of_ne_nil hstep _, rfl⟩⟩
  | setTo values =>
    refine ⟨_, _, _, rfl, by decide, by decide, hvalues values, ?_, rfl⟩
    exact bind_eq_ok_iff.2 ⟨_, readValues_text .., bind_eq_ok_iff.2 ⟨_, atLeastOne_of_ne_nil hstep _, rfl⟩⟩
  -- `scale` and `exp` read back a negative zero as zero, which gives the same results
  | scale factors rounding =>
    refine ⟨_, _, _, rfl, by decide, by decide, ?_,
      bind_eq_ok_iff.2 ⟨_, Primitive.readScale_text hstep rounding, rfl⟩, ?_⟩
    · simpa using ⟨stopsParams_tag hregistry rounding, by simpa using hdecimals factors⟩
    · funext dice
      simp only [Primitive.apply, positional_map, scaleValue_dropZeroSign]
  | exp exponents asBase rounding =>
    refine ⟨_, _, _, rfl, by decide, by decide, ?_,
      bind_eq_ok_iff.2 ⟨_, Primitive.readExp_text hstep asBase rounding, rfl⟩, ?_⟩
    · intro p hp
      rcases List.mem_append.1 hp with hp | hp
      · split at hp
        · exact List.mem_singleton.1 hp ▸ stopsParams_asBase hregistry
        · cases hp
      · rcases List.mem_cons.1 hp with rfl | hp
        · exact stopsParams_tag hregistry rounding
        · exact hdecimals exponents p hp
    · funext dice
      simp only [Primitive.apply, positional_map, powerValue_dropZeroSign]
  | bound pairs =>
    refine ⟨_, _, _, rfl, by decide, by decide, ?_,
      bind_eq_ok_iff.2 ⟨_, Primitive.readBound_text hstep.1 hstep.2, rfl⟩, rfl⟩
    intro p hp
    obtain ⟨pair, -, hp⟩ := List.mem_flatMap.1 hp
    simp only [List.mem_cons, List.not_mem_nil, or_false] at hp
    rcases hp with rfl | rfl
    · exact stopsParams_of_isNumeric hregistry (isNumeric_text _)
    · exact stopsParams_of_isNumeric hregistry (isNumeric_text _)
  | reroll condition => exact absurd rfl (hreroll condition)
  | select indices =>
    refine ⟨_, _, _, rfl, by decide, by decide, hvalues indices, ?_, rfl⟩
    exact bind_eq_ok_iff.2 ⟨_, readValues_text .., bind_eq_ok_iff.2 ⟨_, atLeastOne_of_ne_nil hstep _, rfl⟩⟩

end Operation

end DiceTally
