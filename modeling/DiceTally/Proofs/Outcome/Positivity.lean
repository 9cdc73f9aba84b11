import DiceTally.Proofs.Counting
import DiceTally.Proofs.Decimal.Sign
import DiceTally.Proofs.Outcome.Enumeration

/-!
# Rolls without weight

All faces of a pool have positive weights, but their product is rounded to 28 digits after the point at each factor.  A
roll is `Kept` if all of these products are more than half of the smallest positive number; otherwise its weight is
zero.  A result has a positive count if one of the rolls that it comes from is kept, and the total is positive if there
is such a roll (`tallied_rolls_positive`).  Weights with at most 28 digits after the point in all keep every roll.
-/

namespace DiceTally

open Decimal

/-! ### Products of weights -/

/-- At each factor the product is more than half of the smallest positive number. -/
def Kept (weights : List Decimal) : Prop :=
  ∀ before w, before ++ [w] <+: weights → halfUnit < (weightProduct before).toRat * w.toRat

variable {ws : List Decimal} {w : Decimal}

theorem weightProduct_concat : weightProduct (ws ++ [w]) = (weightProduct ws).mulSaturating w := by
  rw [weightProduct, List.foldl_append]
  rfl

theorem kept_nil : Kept [] := by
  intro before w h
  simp at h

theorem kept_concat_iff : Kept (ws ++ [w]) ↔ Kept ws ∧ halfUnit < (weightProduct ws).toRat * w.toRat := by
  constructor
  · intro h
    exact ⟨fun before v hv => h before v (hv.trans (List.prefix_append ws [w])), h ws w (List.prefix_refl _)⟩
  · rintro ⟨hws, hw⟩ before v hv
    rcases List.prefix_concat_iff.1 hv with heq | hv
    · obtain ⟨rfl, hlast⟩ := List.append_inj' heq rfl
      obtain rfl := List.singleton_inj.1 hlast
      exact hw
    · exact hws before v hv

/-- A product of weights is positive if it is kept, and zero otherwise. -/
theorem weightProduct_unsigned (h : ∀ w ∈ ws, w.Unsigned) :
    (weightProduct ws).Unsigned ∧ (weightProduct ws).scale ≤ (ws.map (·.scale)).sum ∧
      (0 < (weightProduct ws).toRat ↔ Kept ws) := by
  induction ws using List.reverseRecOn with
  | nil => exact ⟨unsigned_one, Nat.le_refl 0, iff_of_true (unsigned_one.toRat_pos_iff.2 (by decide)) kept_nil⟩
  | append_singleton ws w ih =>
    obtain ⟨hws, hw⟩ := List.forall_mem_append.1 h
    have hw : w.Unsigned := hw w List.mem_cons_self
    obtain ⟨hsign, hscale, hpos⟩ := ih hws
    obtain ⟨hsign', hscale', hpos'⟩ := mulSaturating_unsigned hsign hw
    rw [weightProduct_concat, kept_concat_iff, hpos', List.map_append, List.sum_append]
    refine ⟨hsign', hscale'.trans (Nat.add_le_add hscale (by simp)), ⟨fun hlarge => ⟨?_, hlarge⟩, And.right⟩⟩
    -- a product that is more than nothing has no factor that is nothing
    rw [← hpos]
    refine hsign.toRat_nonneg.lt_of_ne fun hzero => ?_
    rw [← hzero, zero_mul] at hlarge
    exact absurd hlarge halfUnit_pos.not_gt

/-- With few digits after the point nothing is lost. -/
theorem kept_of_scale (h : ∀ w ∈ ws, w.isPositive = true) (hscale : (ws.map (·.scale)).sum ≤ 28) : Kept ws := by
  induction ws using List.reverseRecOn with
  | nil => exact kept_nil
  | append_singleton ws w ih =>
    obtain ⟨hws, hw⟩ := List.forall_mem_append.1 h
    have hw : w.isPositive = true := hw w List.mem_cons_self
    have hwscale : (ws.map (·.scale)).sum + w.scale ≤ 28 := by simpa using hscale
    have hkept := ih hws (by omega)
    obtain ⟨hsign, hproduct, hpos⟩ := weightProduct_unsigned fun w hw => unsigned_of_isPositive (hws w hw)
    exact kept_concat_iff.2 ⟨hkept, halfUnit_lt_mul hsign (unsigned_of_isPositive hw) (hpos.2 hkept)
      (toRat_pos_of_isPositive hw) (by omega)⟩

/-! ### Sums of weights -/

theorem foldl_addSaturating_unsigned {start : Decimal} (hstart : start.Unsigned) (h : ∀ w ∈ ws, w.Unsigned) :
    (ws.foldl addSaturating start).Unsigned ∧
      (0 < (ws.foldl addSaturating start).toRat ↔ 0 < start.toRat ∨ ∃ w ∈ ws, 0 < w.toRat) := by
  induction ws generalizing start with
  | nil => simpa using hstart
  | cons w ws ih =>
    obtain ⟨hw, hws⟩ := List.forall_mem_cons.1 h
    obtain ⟨hsign, hpos⟩ := addSaturating_unsigned hstart hw
    obtain ⟨hsign', hpos'⟩ := ih hsign hws
    rw [List.foldl_cons, hpos', hpos, or_assoc, List.exists_mem_cons_iff]
    exact ⟨hsign', Iff.rfl⟩

theorem not_zero_pos : ¬0 < zero.toRat := by
  rw [unsigned_zero.toRat_pos_iff]
  exact not_not.2 rfl

namespace Distribution

variable {d : Distribution} {results : List (Tuple × Decimal)}

/-- The count of a result, zero for none. -/
def countOf (d : Distribution) (key : Tuple) : Decimal := (d.get? key).getD .zero

/-- The counts have no sign, and are positive where one of the given results has a positive weight. -/
def Shows (d : Distribution) (results : List (Tuple × Decimal)) : Prop :=
  ∀ key, (d.countOf key).Unsigned ∧ (0 < (d.countOf key).toRat ↔ ∃ r ∈ results, r.1 = key ∧ 0 < r.2.toRat)

theorem shows_empty : empty.Shows [] := by
  intro key
  rw [countOf, get?_empty, Option.getD_none]
  exact ⟨unsigned_zero, by simp [not_zero_pos]⟩

theorem Shows.add (h : d.Shows results) (key : Tuple) {weight : Decimal} (hweight : weight.Unsigned) :
    (d.add key weight).Shows (results ++ [(key, weight)]) := by
  intro key'
  obtain ⟨hsign, hpos⟩ := h key'
  have hlast : (∃ r ∈ results ++ [(key, weight)], r.1 = key' ∧ 0 < r.2.toRat) ↔
      (∃ r ∈ results, r.1 = key' ∧ 0 < r.2.toRat) ∨ key = key' ∧ 0 < weight.toRat := by
    simp only [List.mem_append, List.mem_singleton, or_and_right, exists_or, exists_eq_left]
  rw [hlast, ← hpos, countOf, get?_add]
  by_cases hkey : key = key'
  · subst hkey
    obtain ⟨hsum, hiff⟩ := addSaturating_unsigned hsign hweight
    rw [if_pos rfl, Option.getD_some, and_iff_right rfl]
    exact ⟨hsum, hiff⟩
  · rw [if_neg hkey, or_iff_left fun h => hkey h.1]
    exact ⟨hsign, Iff.rfl⟩

theorem shows_foldl {before : List (Tuple × Decimal)} (h : d.Shows before) (hweights : ∀ r ∈ results, r.2.Unsigned) :
    (results.foldl (fun d r => d.add r.1 r.2) d).Shows (before ++ results) := by
  induction results generalizing d before with
  | nil => simpa using h
  | cons r results ih =>
    obtain ⟨hr, hrest⟩ := List.forall_mem_cons.1 hweights
    rw [List.foldl_cons, List.append_cons]
    exact ih (h.add r.1 hr) hrest

theorem shows_ofList (hweights : ∀ r ∈ results, r.2.Unsigned) : (ofList results).Shows results :=
  shows_foldl shows_empty hweights

theorem countOf_eq {key : Tuple} {weight : Decimal} (hget : d.get? key = some weight) :
    d.countOf key = weight := by
  rw [countOf, hget, Option.getD_some]

/-- The total is positive if one of the results has a positive weight. -/
theorem Shows.total (h : d.Shows results) :
    d.total.Unsigned ∧ (0 < d.total.toRat ↔ ∃ r ∈ results, 0 < r.2.toRat) := by
  have htotal : d.total = (d.entries.map Prod.snd).foldl addSaturating .zero := by
    rw [Distribution.total, List.foldl_map]
  have hsign : ∀ w ∈ d.entries.map Prod.snd, w.Unsigned := by
    rintro w hw
    obtain ⟨⟨key, weight⟩, hentry, rfl⟩ := List.mem_map.1 hw
    exact countOf_eq (mem_entries.1 hentry) ▸ (h key).1
  obtain ⟨htotal', hpos⟩ := foldl_addSaturating_unsigned unsigned_zero hsign
  rw [htotal]
  refine ⟨htotal', hpos.trans ?_⟩
  rw [or_iff_right not_zero_pos]
  constructor
  · rintro ⟨w, hw, hwpos⟩
    obtain ⟨⟨key, weight⟩, hentry, rfl⟩ := List.mem_map.1 hw
    obtain ⟨r, hr, -, hrpos⟩ := (h key).2.1 ((countOf_eq (mem_entries.1 hentry)).symm ▸ hwpos)
    exact ⟨r, hr, hrpos⟩
  · rintro ⟨r, hr, hrpos⟩
    have hcount := (h r.1).2.2 ⟨r, hr, rfl, hrpos⟩
    cases hget : d.get? r.1 with
    | none =>
      rw [countOf, hget, Option.getD_none] at hcount
      exact absurd hcount not_zero_pos
    | some weight =>
      rw [countOf_eq hget] at hcount
      exact ⟨weight, List.mem_map.2 ⟨(r.1, weight), mem_entries.2 hget, rfl⟩, hcount⟩

end Distribution

/-! ### Rolls -/

namespace Pool

variable {pool : Pool} {faces : List Face}

theorem rolls_ne_nil (pool : Pool) : pool.rolls ≠ [] := by
  rw [← List.length_pos_iff, rolls, length_choices]
  refine Nat.pos_of_ne_zero (List.prod_ne_zero fun hzero => ?_)
  obtain ⟨faces, hfaces, hlength⟩ := List.mem_map.1 hzero
  obtain ⟨die, -, rfl⟩ := List.mem_map.1 hfaces
  exact die.faces_ne_nil (List.eq_nil_of_length_eq_zero hlength)

theorem isPositive_of_mem_rolls (h : faces ∈ pool.rolls) : ∀ w ∈ faces.map (·.weight), w.isPositive = true := by
  intro w hw
  obtain ⟨face, hface, rfl⟩ := List.mem_map.1 hw
  obtain ⟨all, hall, hmem⟩ := exists_mem_of_mem_choices h hface
  obtain ⟨die, -, rfl⟩ := List.mem_map.1 hall
  exact die.weight_pos face hmem

theorem ofFaces_unsigned (h : faces ∈ pool.rolls) :
    (Outcome.ofFaces faces).2.Unsigned ∧ (0 < (Outcome.ofFaces faces).2.toRat ↔ Kept (faces.map (·.weight))) := by
  obtain ⟨hsign, -, hpos⟩ := weightProduct_unsigned fun w hw => unsigned_of_isPositive (isPositive_of_mem_rolls h w hw)
  exact ⟨hsign, hpos⟩

theorem exists_roll_of_answer {k : Nat} {outcome : Outcome} (h : (Outcomes.enumerate pool).answer k = some outcome) :
    ∃ faces ∈ pool.rolls, Outcome.ofFaces faces = outcome := by
  rw [Outcomes.answer_eq_getElem?, Outcomes.all_enumerate] at h
  exact List.mem_map.1 (List.mem_of_getElem? h)

end Pool

namespace Operation

section

variable {registry : Registry} (hregistry : registry.Built) {options : ParseOptions} {words : List String}
  {op : Operation} (h : parse ⟨registry, options⟩ words = .ok op) {pool : Pool} {capacity : Option Nat}
  {earlier : List Step} {d : Distribution}

include hregistry h

/-- The counts and the total of a tally over the rolls of a pool. -/
theorem counts_of_tallied_rolls (hd : op.tallied capacity earlier (Outcomes.enumerate pool) = .ok d) :
    (∀ key, (d.countOf key).Unsigned ∧ (0 < (d.countOf key).toRat ↔
      ∃ faces ∈ pool.rolls, op.eval (faces.map (·.value)) = .ok key ∧ Kept (faces.map (·.weight)))) ∧
    d.total.Unsigned ∧ (0 < d.total.toRat ↔ ∃ faces ∈ pool.rolls, Kept (faces.map (·.weight))) := by
  obtain ⟨results, hresults, rfl⟩ := (tallied_eq_ok_iff hregistry h).1 hd
  rw [Outcomes.all_enumerate] at hresults
  -- a result with a positive weight comes from a roll that is kept
  have hfrom (P : Tuple → Prop) : (∃ r ∈ results, P r.1 ∧ 0 < r.2.toRat) ↔
      ∃ faces ∈ pool.rolls, (∃ key, op.eval (faces.map (·.value)) = .ok key ∧ P key) ∧
        Kept (faces.map (·.weight)) := by
    constructor
    · rintro ⟨r, hr, hP, hpos⟩
      obtain ⟨outcome, houtcome, heval, hweight⟩ := exists_of_mem_forall₂ hresults.flip hr
      obtain ⟨faces, hfaces, rfl⟩ := List.mem_map.1 houtcome
      rw [hweight] at hpos
      exact ⟨faces, hfaces, ⟨r.1, heval, hP⟩, (Pool.ofFaces_unsigned hfaces).2.1 hpos⟩
    · rintro ⟨faces, hfaces, ⟨key, heval, hP⟩, hkept⟩
      obtain ⟨r, hr, hkey, hweight⟩ := exists_of_mem_forall₂ hresults (List.mem_map_of_mem hfaces)
      obtain rfl : key = r.1 := Except.ok.inj (heval.symm.trans hkey)
      exact ⟨r, hr, hP, hweight ▸ (Pool.ofFaces_unsigned hfaces).2.2 hkept⟩
  have hsigns : ∀ r ∈ results, r.2.Unsigned := by
    intro r hr
    obtain ⟨outcome, houtcome, -, hweight⟩ := exists_of_mem_forall₂ hresults.flip hr
    obtain ⟨faces, hfaces, rfl⟩ := List.mem_map.1 houtcome
    exact hweight ▸ (Pool.ofFaces_unsigned hfaces).1
  have hshows := Distribution.shows_ofList hsigns
  obtain ⟨htotal, hpos⟩ := hshows.total
  refine ⟨fun key => ⟨(hshows key).1, ?_⟩, htotal, ?_⟩
  · rw [(hshows key).2, hfrom (· = key)]
    simp only [exists_eq_right]
  · have hresult : ∀ faces ∈ pool.rolls, ∃ key, op.eval (faces.map (·.value)) = .ok key := by
      intro faces hfaces
      obtain ⟨r, -, hkey, -⟩ := exists_of_mem_forall₂ hresults (List.mem_map_of_mem hfaces)
      exact ⟨r.1, hkey⟩
    have hall := hfrom fun _ => True
    simp only [true_and, and_true] at hall
    rw [hpos, hall]
    exact exists_congr fun faces => and_congr_right fun hfaces => and_iff_right (hresult faces hfaces)

/-- Every roll of a pool has a positive weight if it is kept and the weight zero otherwise.  Every result has a positive
count if one of the rolls that it comes from is kept, and otherwise the count zero, and the total is positive if any
roll is kept.  So all weights, counts and the total are positive for a pool that keeps all its rolls, and such are all
pools with at most 28 digits after the point in the weights of any roll. -/
theorem tallied_rolls_positive (pool : Pool) (capacity capacity' : Option Nat) (earlier earlier' : List Step) :
    (∀ k outcome, (Outcomes.enumerate pool).answer k = some outcome →
      ∃ faces ∈ pool.rolls, Outcome.ofFaces faces = outcome ∧
        (Kept (faces.map (·.weight)) → 0 < outcome.2.toRat) ∧
        (¬Kept (faces.map (·.weight)) → outcome.2.toRat = 0)) ∧
    (∀ d, op.tallied capacity earlier (Outcomes.enumerate pool) = .ok d →
      (∀ key count, d.get? key = some count → 0 ≤ count.toRat ∧ (0 < count.toRat ↔
        ∃ faces ∈ pool.rolls, op.answer capacity' earlier' (faces.map (·.value)) = .ok key ∧
          Kept (faces.map (·.weight)))) ∧
      0 ≤ d.total.toRat ∧ (0 < d.total.toRat ↔ ∃ faces ∈ pool.rolls, Kept (faces.map (·.weight)))) ∧
    ((∀ faces ∈ pool.rolls, Kept (faces.map (·.weight))) →
      (∀ k outcome, (Outcomes.enumerate pool).answer k = some outcome → 0 < outcome.2.toRat) ∧
      ∀ d, op.tallied capacity earlier (Outcomes.enumerate pool) = .ok d →
        (∀ key count, d.get? key = some count → 0 < count.toRat) ∧ 0 < d.total.toRat) ∧
    ∀ faces ∈ pool.rolls, (faces.map (·.weight.scale)).sum ≤ 28 → Kept (faces.map (·.weight)) := by
  simp only [answer_eq hregistry h]
  have hroll {k : Nat} {outcome : Outcome} (hk : (Outcomes.enumerate pool).answer k = some outcome) :
      ∃ faces ∈ pool.rolls, Outcome.ofFaces faces = outcome ∧ (Kept (faces.map (·.weight)) → 0 < outcome.2.toRat) ∧
        (¬Kept (faces.map (·.weight)) → outcome.2.toRat = 0) := by
    obtain ⟨faces, hfaces, rfl⟩ := Pool.exists_roll_of_answer hk
    obtain ⟨hsign, hpos⟩ := Pool.ofFaces_unsigned hfaces
    refine ⟨faces, hfaces, rfl, hpos.2, fun hlost => ?_⟩
    rw [← hpos, not_lt] at hlost
    exact le_antisymm hlost hsign.toRat_nonneg
  refine ⟨fun k outcome => hroll, fun d hd => ?counts, fun hkept => ⟨fun k outcome hk => ?rolls, fun d hd => ?all⟩,
    fun faces hfaces hscale => ?digits⟩
  case counts =>
    obtain ⟨hcounts, hsign, htotal⟩ := counts_of_tallied_rolls hregistry h hd
    refine ⟨fun key count hget => ?_, hsign.toRat_nonneg, htotal⟩
    rw [← Distribution.countOf_eq hget]
    exact ⟨(hcounts key).1.toRat_nonneg, (hcounts key).2⟩
  case rolls =>
    obtain ⟨faces, hfaces, -, hpos, -⟩ := hroll hk
    exact hpos (hkept faces hfaces)
  case all =>
    obtain ⟨hcounts, -, htotal⟩ := counts_of_tallied_rolls hregistry h hd
    constructor
    · intro key count hget
      obtain ⟨outcome, houtcome, heval⟩ := (isSome_get?_of_tallied hregistry h hd key).1 (by rw [hget]; rfl)
      rw [Outcomes.all_enumerate] at houtcome
      obtain ⟨faces, hfaces, rfl⟩ := List.mem_map.1 houtcome
      rw [← Distribution.countOf_eq hget]
      exact (hcounts key).2.2 ⟨faces, hfaces, heval, hkept faces hfaces⟩
    · obtain ⟨faces, hfaces⟩ := List.exists_mem_of_ne_nil _ pool.rolls_ne_nil
      exact htotal.2 ⟨faces, hfaces, hkept faces hfaces⟩
  case digits => exact kept_of_scale (Pool.isPositive_of_mem_rolls hfaces) (by rwa [List.map_map])

end

/-- Two dice that show `1` with a given weight and `2` with weight one. -/
def pairOfDice (w : Decimal) (hw : w.isPositive = true) : Pool :=
  let die : Die := ⟨[⟨1, w⟩, ⟨2, .one⟩], List.cons_ne_nil _ _, by simp [hw, isPositive_one]⟩
  ⟨[die, die], List.cons_ne_nil _ _⟩

/-- Two weights with 14 digits after the point are kept. -/
theorem tallied_rolls_positive_pair :
    ∃ op, parse ⟨.empty, ⟨true, true⟩⟩ ["sum"] = .ok op ∧
      ∀ d, op.tallied none []
        (Outcomes.enumerate (pairOfDice ⟨false, 1, 14, by decide, by decide⟩ (by decide))) = .ok d →
        (∀ key count, d.get? key = some count → 0 < count.toRat) ∧ 0 < d.total.toRat := by
  have hok : (parse ⟨.empty, ⟨true, true⟩⟩ ["sum"]).isOk = true := by cbv
  obtain ⟨op, h⟩ := exists_eq_ok_of_isOk hok
  obtain ⟨-, -, hall, hdigits⟩ := tallied_rolls_positive .empty h
    (pairOfDice ⟨false, 1, 14, by decide, by decide⟩ (by decide)) none none [] []
  have hscale : ∀ faces ∈ (pairOfDice ⟨false, 1, 14, by decide, by decide⟩ (by decide)).rolls,
      (faces.map (·.weight.scale)).sum ≤ 28 := by decide
  exact ⟨op, h, (hall fun faces hfaces => hdigits faces hfaces (hscale faces hfaces)).2⟩

/-- The product of two weights with 15 digits after the point is lost, and with it the first roll. -/
theorem lost_roll :
    ∃ outcome, (Outcomes.enumerate (pairOfDice ⟨false, 1, 15, by decide, by decide⟩ (by decide))).answer 0 =
      some outcome ∧ outcome.2.toRat = 0 :=
  ⟨([1, 1], ⟨false, 0, 28, by decide, by decide⟩), rfl, by simp [toRat, signed]⟩

end Operation

end DiceTally
