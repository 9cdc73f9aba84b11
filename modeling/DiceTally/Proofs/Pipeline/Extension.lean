import DiceTally.Proofs.Pipeline.Meaning
import DiceTally.Proofs.Pipeline.Steps
import Mathlib

/-!
# More names

Registering names adds pipelines to the language and changes none: a pipeline that is read with the built-in
operations only is read as the same operation after any calls of `Registry.register` (`parse_registerEach`).  All
words that such a pipeline can hold outside of its conditions are reserved or numbers, and neither can be registered
(`Registry.NamesFree`).
-/

namespace DiceTally

/-! ### Parameters that are read -/

/-- A word that the built-in operations take as a parameter: a number or a tag. -/
def IsParameter (t : String) : Prop := isNumeric t = true ∨ t ∈ "as-base" :: Token.roundingTags

theorem IsParameter.isPlainWord {t : String} (h : IsParameter t) : IsPlainWord t := by
  have htags : ∀ tag ∈ "as-base" :: Token.roundingTags, Token.isReserved tag = true := by decide
  exact h.imp_right (htags t)

/-- A parameter stays a parameter whatever has been registered. -/
theorem IsParameter.stopsParams {registry : Registry} (hregistry : registry.Built) {t : String} (h : IsParameter t) :
    stopsParams registry t = false := by
  rcases h with hnumber | htag
  · exact stopsParams_of_isNumeric hregistry hnumber
  · have htags : ∀ tag ∈ "as-base" :: Token.roundingTags, Token.isOperation tag = false ∧
        Token.isLogic tag = false ∧ Token.isBracket tag = false ∧ Token.isReserved tag = true := by decide
    obtain ⟨hoperation, hlogic, hbracket, hreserved⟩ := htags t htag
    simp [DiceTally.stopsParams, hoperation, hlogic, hbracket, contains_of_isReserved hregistry hreserved]

theorem isParameter_of_readValues {operation : String} {tokens : List String} {values : List Value}
    (h : Condition.readValues operation tokens = .ok values) {t : String} (ht : t ∈ tokens) : IsParameter t := by
  obtain ⟨v, hv⟩ := Condition.exists_writes_of_mem (Condition.readValues_eq_ok_iff.1 h) ht
  have hv : Value.ofText? t = some v := hv
  exact .inl (by simp [isNumeric, hv])

theorem isParameter_of_readDecimals {operation : String} {tokens : List String} {numbers : List Decimal}
    (h : readDecimals operation tokens = .ok numbers) {t : String} (ht : t ∈ tokens) : IsParameter t := by
  induction tokens generalizing numbers with
  | nil => cases ht
  | cons u tokens ih =>
    unfold readDecimals at h
    rw [List.mapM_cons] at h
    obtain ⟨d, hd, h⟩ := bind_eq_ok_iff.1 h
    obtain ⟨others, hothers, -⟩ := bind_eq_ok_iff.1 h
    rcases List.mem_cons.1 ht with rfl | ht
    · split at hd
      · rename_i hof
        exact .inl (by simp [isNumeric, hof])
      · cases hd
    · exact ih hothers ht

theorem isParameter_of_ofTag? {t : String} {rounding : Rounding} (h : Rounding.ofTag? t = some rounding) :
    IsParameter t := by
  have ht : rounding.tag = t := by simpa using List.find?_some h
  subst ht
  exact .inr (by cases rounding <;> decide)

namespace Primitive

theorem isParameter_of_readScale {params : List String} {step : Primitive} (h : readScale params = .ok step)
    {t : String} (ht : t ∈ params) : IsParameter t := by
  unfold readScale at h
  obtain ⟨numbers, hnumbers, -⟩ := bind_eq_ok_iff.1 h
  cases params with
  | nil => cases ht
  | cons first rest =>
    cases htag : Rounding.ofTag? first with
    | none =>
      simp only [htag] at hnumbers
      exact isParameter_of_readDecimals hnumbers ht
    | some rounding =>
      simp only [htag] at hnumbers
      rcases List.mem_cons.1 ht with rfl | ht
      · exact isParameter_of_ofTag? htag
      · exact isParameter_of_readDecimals hnumbers ht

/-- The words in front of the exponents are tags. -/
theorem isParameter_of_expTags {asBase : Bool} {rounding : Rounding} {params : List String} {t : String}
    (ht : t ∈ params) (hrest : t ∈ (expTags asBase rounding params).2.2 → IsParameter t) : IsParameter t := by
  induction params generalizing asBase rounding with
  | nil => cases ht
  | cons first rest ih =>
    unfold expTags at hrest
    split at hrest
    · rename_i hbase
      rcases List.mem_cons.1 ht with rfl | ht
      · exact .inr (hbase ▸ List.mem_cons_self)
      · exact ih ht hrest
    · split at hrest
      · rename_i htag
        rcases List.mem_cons.1 ht with rfl | ht
        · exact isParameter_of_ofTag? htag
        · exact ih ht hrest
      · exact hrest ht

theorem isParameter_of_readExp {params : List String} {step : Primitive} (h : readExp params = .ok step)
    {t : String} (ht : t ∈ params) : IsParameter t := by
  unfold readExp at h
  obtain ⟨numbers, hnumbers, -⟩ := bind_eq_ok_iff.1 h
  exact isParameter_of_expTags ht fun hrest => isParameter_of_readDecimals hnumbers hrest

theorem isParameter_of_readBound {params : List String} {step : Primitive} (h : readBound params = .ok step)
    {t : String} (ht : t ∈ params) : IsParameter t := by
  unfold readBound at h
  obtain ⟨values, hvalues, -⟩ := bind_eq_ok_iff.1 h
  exact isParameter_of_readValues hvalues ht

end Primitive

namespace Operation

/-- A built-in operation is only built from numbers and words of the language. -/
theorem isParameter_of_ofWords {name : String} {params : List String} {op : Operation}
    (h : ofWords name params = .ok op) {t : String} (ht : t ∈ params) : IsParameter t := by
  unfold ofWords at h
  split at h
  · unfold blockWise at h
    split at h
    · cases ht
    · obtain ⟨size, hsize, -⟩ := map_eq_ok_iff.1 h
      obtain rfl := List.mem_singleton.1 ht
      exact .inl (isNumeric_of_readBlockSize hsize)
    · cases h
  · split at h
    iterate 3
      · obtain ⟨values, hvalues, -⟩ := bind_eq_ok_iff.1 h
        exact isParameter_of_readValues hvalues ht
    · obtain ⟨step, hstep, -⟩ := bind_eq_ok_iff.1 h
      exact Primitive.isParameter_of_readScale hstep ht
    · obtain ⟨step, hstep, -⟩ := bind_eq_ok_iff.1 h
      exact Primitive.isParameter_of_readExp hstep ht
    · obtain ⟨step, hstep, -⟩ := bind_eq_ok_iff.1 h
      exact Primitive.isParameter_of_readBound hstep ht
    · cases h

end Operation

/-! ### The first stage -/

/-- The words of a stage that are read as its parameters. -/
def Stage.params : Stage → List String
  | group _ _ => []
  | slices params _ => params
  | call _ params _ => params

/-- A list is split at the same place by a stronger condition that holds of the elements in front of it. -/
theorem span_eq_of_forall {α : Type} {p q : α → Bool} (hqp : ∀ a, q a = true → p a = true) {as : List α}
    (h : ∀ a ∈ as.takeWhile p, q a = true) : as.takeWhile q = as.takeWhile p ∧ as.dropWhile q = as.dropWhile p := by
  induction as with
  | nil => exact ⟨rfl, rfl⟩
  | cons a as ih =>
    cases hp : p a with
    | true =>
      rw [List.takeWhile_cons_of_pos hp] at h
      obtain ⟨ha, has⟩ := List.forall_mem_cons.1 h
      simpa [ha, hp] using ih has
    | false =>
      have hq : q a = false := Bool.eq_false_iff.2 fun hq => by simp [hqp a hq] at hp
      simp [hp, hq]

/-- With more names the same stage is cut off, if none of them is a parameter of it. -/
theorem Cut.ofTokens_of_empty {registry : Registry} {tokens : List String} {cut : Cut}
    (h : ofTokens .empty tokens = .ok cut) (hparams : ∀ p ∈ cut.stage.params, registry.contains p = false) :
    ofTokens registry tokens = .ok cut := by
  cases tokens with
  | nil => cases h
  | cons head tail =>
    have hweaker : ∀ t, (!stopsParams registry t) = true → (!stopsParams .empty t) = true := by
      intro t ht
      simp only [stopsParams, Bool.not_or, Bool.and_eq_true] at ht ⊢
      exact ⟨ht.1, rfl⟩
    -- only the list of parameters depends on the names
    have hsame (hwords : ∀ p ∈ tail.takeWhile fun t => !stopsParams .empty t, registry.contains p = false) :
        (tail.takeWhile fun t => !stopsParams registry t) = (tail.takeWhile fun t => !stopsParams .empty t) ∧
          (tail.dropWhile fun t => !stopsParams registry t) = tail.dropWhile fun t => !stopsParams .empty t := by
      refine span_eq_of_forall hweaker fun p hp => ?_
      have hplain := List.mem_takeWhile_imp hp
      simp only [stopsParams, Bool.not_or, Bool.and_eq_true] at hplain ⊢
      exact ⟨hplain.1, by simp [hwords p hp]⟩
    simp only [ofTokens] at h ⊢
    split
    · rwa [if_pos ‹_›] at h
    · rw [if_neg ‹_›] at h
      split
      · rwa [if_pos ‹_›] at h
      · rw [if_neg ‹_›] at h
        split
        · rwa [if_pos ‹_›] at h
        · rw [if_neg ‹_›] at h
          split at h
          · cases h
            obtain ⟨htake, hdrop⟩ := hsame hparams
            rw [if_pos ‹_›, htake, hdrop]
          · cases h
            obtain ⟨htake, hdrop⟩ := hsame hparams
            rw [if_neg ‹_›, htake, hdrop]

/-! ### Whole pipelines -/

namespace Operation

variable {options : ParseOptions}

/-- Without registered names all parameters of a stage are numbers and words of the language. -/
theorem Reads.isPlainWord {cut : Cut} {n k : Nat} {op : Operation} (h : Reads ⟨.empty, options⟩ (.stage cut) n op k) :
    ∀ p ∈ cut.stage.params, IsPlainWord p := by
  intro p hp
  cases h with
  | group => cases hp
  | slicesLast hsize => exact .inl (List.mem_singleton.1 hp ▸ isNumeric_of_readBlockSize hsize)
  | slices hsize => exact .inl (List.mem_singleton.1 hp ▸ isNumeric_of_readBlockSize hsize)
  | registered hget => cases hget
  | reroll => cases hp
  | rerollIf => cases hp
  | builtIn _ _ hbuilt => exact (isParameter_of_ofWords hbuilt hp).isPlainWord

/-- What is read without registered names is read in the same way with them. -/
theorem Reads.of_empty {registry : Registry} (hfree : registry.NamesFree) {part : Part} {n k : Nat} {op : Operation}
    (h : Reads ⟨.empty, options⟩ part n op k) : Reads ⟨registry, options⟩ part n op k := by
  have hcut {tokens : List String} {cut : Cut} {n k : Nat} {current : Operation}
      (hcut : Cut.ofTokens .empty tokens = .ok cut) (hcurrent : Reads ⟨.empty, options⟩ (.stage cut) n current k) :
      Cut.ofTokens registry tokens = .ok cut :=
    Cut.ofTokens_of_empty hcut fun p hp => hfree.contains (hcurrent.isPlainWord p hp)
  induction h with
  | last h hcurrent hafter ih => exact .last (hcut h hcurrent) ih hafter
  | andThen h hcurrent hafter _ ihcurrent ihnext => exact .andThen (hcut h hcurrent) ihcurrent hafter ihnext
  | group _ _ ihinner ihop => exact .group ihinner ihop
  | slicesLast hsize hrest h hinner hafter ih => exact .slicesLast hsize hrest (hcut h hinner) ih hafter
  | slices hsize hrest h hinner hafter _ ihinner ihouter =>
    exact .slices hsize hrest (hcut h hinner) ihinner hafter ihouter
  | registered hget => cases hget
  | reroll => exact .reroll (hfree _ (.inr (by decide)))
  | rerollIf _ hcondition => exact .rerollIf (hfree _ (.inr (by decide))) hcondition
  | builtIn _ hname hbuilt hguard _ ih =>
    have hoperation := isOperation_of_ofWords hbuilt
    exact .builtIn (hfree _ (.inr (by simp [Token.isReserved, hoperation]))) hname hbuilt hguard ih
  | unguarded => exact .unguarded
  | guarded hcondition => exact .guarded hcondition
  | branched hcondition _ ih => exact .branched hcondition ih
  | branch hstart _ ih => exact .branch hstart ih

/-- A pipeline over the built-in operations is read as the same operation whatever has been registered. -/
theorem parse_registerEach (calls : List (String × Callable)) {words : List String} {op : Operation}
    (h : parse ⟨.empty, options⟩ words = .ok op) : parse ⟨Registry.empty.registerEach calls, options⟩ words = .ok op := by
  have hfree := Registry.namesFree_empty.registerEach calls
  obtain ⟨k, hreads⟩ := parse_eq_ok_iff.1 h
  exact parse_eq_ok_iff.2 ⟨k, hreads.of_empty hfree⟩

/-- Two of the names are words of the pipeline, and these two are refused. -/
theorem parse_registerEach_numbers :
    ∃ op, parse ⟨.empty, ⟨true, true⟩⟩ ["scale r-floor 1_0 2.5E-1 if ge +3", "then [ sum 2 ]"] = .ok op ∧
      parse ⟨Registry.empty.registerEach
        [("2.5E-1", .native fun dice _ => .ok dice), ("always", .native fun dice _ => .ok dice.reverse),
          ("r-floor", .native fun dice _ => .ok dice), ("double", .defined (.primitive (.scale [.one] .floor)))],
        ⟨true, true⟩⟩ ["scale r-floor 1_0 2.5E-1 if ge +3", "then [ sum 2 ]"] = .ok op := by
  have hok : (parse ⟨.empty, ⟨true, true⟩⟩ ["scale r-floor 1_0 2.5E-1 if ge +3", "then [ sum 2 ]"]).isOk = true := by
    cbv
  cases h : parse ⟨.empty, ⟨true, true⟩⟩ ["scale r-floor 1_0 2.5E-1 if ge +3", "then [ sum 2 ]"] with
  | error e =>
    rw [h] at hok
    cases hok
  | ok op => exact ⟨op, rfl, parse_registerEach _ h⟩

end Operation

end DiceTally
