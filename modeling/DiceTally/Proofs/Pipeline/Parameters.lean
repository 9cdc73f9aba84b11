import DiceTally.Pipeline.Parameters
import DiceTally.Proofs.Condition.Shape

/-!
# What parameters can build

A step that has been built from its parameters has as many of them as it needs, the bounds of `bound` are in order,
and blocks have at least one die (`ofWords_cases`).
-/

namespace DiceTally

/-- What holds of every step that has been read. -/
def Primitive.WellFormed : Primitive → Prop
  | identity | reduce _ | sort => True
  | add values => values ≠ []
  | setTo values => values ≠ []
  | scale factors _ => factors ≠ []
  | exp exponents _ _ => exponents ≠ []
  | bound pairs => pairs ≠ [] ∧ ∀ pair ∈ pairs, pair.1 ≤ pair.2
  | reroll condition => condition = .always ∨ condition.WellFormed
  | select indices => indices ≠ []

theorem atLeastOne_eq_ok_iff {α : Type} {operation : String} {params result : List α} :
    atLeastOne operation params = .ok result ↔ params = result ∧ result ≠ [] := by
  unfold atLeastOne
  cases params with
  | nil => simp [eq_comm]
  | cons a as =>
    constructor
    · intro h
      cases h
      exact ⟨rfl, List.cons_ne_nil _ _⟩
    · rintro ⟨rfl, -⟩
      rfl

/-- A number of dice per block is positive and in range. -/
theorem readBlockSize_bounds {operation token : String} {size : Nat} (h : readBlockSize operation token = .ok size) :
    0 < size ∧ (size : Int) < Value.bound := by
  unfold readBlockSize at h
  split at h
  · cases h
  · rename_i v _
    split at h
    · cases h
    · rename_i hv
      cases h
      have hpos : 0 < v.toInt := by simpa [Int64.le_iff_toInt_le] using hv
      have hlt := v.toInt_lt
      simp only [Value.bound]
      omega

namespace Primitive

theorem plain?_wellFormed {name : String} {step : Primitive} (h : plain? name = some step) : step.WellFormed := by
  unfold plain? at h
  split at h
  · cases h; trivial
  · cases h; trivial
  · obtain ⟨r, -, rfl⟩ := Option.map_eq_some_iff.1 h
    trivial

theorem wellFormed_of_readScale {params : List String} {step : Primitive} (h : readScale params = .ok step) :
    step.WellFormed := by
  unfold readScale at h
  obtain ⟨factors, -, h⟩ := bind_eq_ok_iff.1 h
  obtain ⟨_, hne, h⟩ := bind_eq_ok_iff.1 h
  cases h
  exact (atLeastOne_eq_ok_iff.1 hne).2

theorem wellFormed_of_readExp {params : List String} {step : Primitive} (h : readExp params = .ok step) :
    step.WellFormed := by
  unfold readExp at h
  obtain ⟨exponents, -, h⟩ := bind_eq_ok_iff.1 h
  obtain ⟨_, hne, h⟩ := bind_eq_ok_iff.1 h
  cases h
  exact (atLeastOne_eq_ok_iff.1 hne).2

theorem wellFormed_of_readBound {params : List String} {step : Primitive} (h : readBound params = .ok step) :
    step.WellFormed := by
  unfold readBound at h
  obtain ⟨values, -, h⟩ := bind_eq_ok_iff.1 h
  split at h
  · cases h
  · rename_i hlength
    have hne : pairUp values ≠ [] := by
      match values, hlength with
      | _ :: _ :: _, _ => exact List.cons_ne_nil _ _
      | [_], h => exact absurd rfl h
      | [], h => exact absurd rfl h
    dsimp only at h
    split at h
    · cases h
    · rename_i hfind
      cases h
      refine ⟨hne, fun pair hpair => ?_⟩
      have := List.find?_eq_none.1 hfind pair hpair
      simpa [Int64.not_lt] using this

end Primitive

/-- A built-in operation with its parameters is one step, or one step on every block. -/
theorem Operation.ofWords_cases {name : String} {params : List String} {op : Operation}
    (h : ofWords name params = .ok op) :
    (∃ step, op = primitive step ∧ step.WellFormed) ∨
      ∃ size step, op = sliceApply size (primitive step) (primitive .identity) ∧ 0 < size ∧
        (size : Int) < Value.bound ∧ step.WellFormed := by
  unfold ofWords at h
  split at h
  · rename_i step hstep
    have hstep := Primitive.plain?_wellFormed hstep
    unfold blockWise at h
    split at h
    · cases h
      exact .inl ⟨step, rfl, hstep⟩
    · obtain ⟨size, hsize, rfl⟩ := map_eq_ok_iff.1 h
      obtain ⟨hpos, hlt⟩ := readBlockSize_bounds hsize
      exact .inr ⟨size, step, rfl, hpos, hlt, hstep⟩
    · cases h
  · left
    -- the three lists of values
    have values (make : List Value → Primitive) (hmake : ∀ vs, vs ≠ [] → (make vs).WellFormed)
        (h : (do
          let values ← Condition.readValues name params
          let values ← atLeastOne name values
          let step ← pure (make values)
          pure (primitive step) : Except ParseError Operation) = .ok op) :
        ∃ step, op = primitive step ∧ step.WellFormed := by
      obtain ⟨vs, -, h⟩ := bind_eq_ok_iff.1 h
      obtain ⟨_, hne, h⟩ := bind_eq_ok_iff.1 h
      cases h
      exact ⟨_, rfl, hmake _ (atLeastOne_eq_ok_iff.1 hne).2⟩
    split at h
    · exact values .add (fun _ hne => hne) h
    · exact values .setTo (fun _ hne => hne) h
    · exact values .select (fun _ hne => hne) h
    · obtain ⟨step, hstep, h⟩ := bind_eq_ok_iff.1 h
      cases h
      exact ⟨step, rfl, Primitive.wellFormed_of_readScale hstep⟩
    · obtain ⟨step, hstep, h⟩ := bind_eq_ok_iff.1 h
      cases h
      exact ⟨step, rfl, Primitive.wellFormed_of_readExp hstep⟩
    · obtain ⟨step, hstep, h⟩ := bind_eq_ok_iff.1 h
      cases h
      exact ⟨step, rfl, Primitive.wellFormed_of_readBound hstep⟩
    · cases h

end DiceTally
