import DiceTally.Proofs.Operation.Failures
import DiceTally.Proofs.Tally

/-!
# Lengths of results

How many values a built-in pipeline gives depends on the number of dice only.  Two evaluations on equally many dice
are compared by `Alike`: results have the same length, and neither side fails alone because a number of dice does not
fit (`alike_eval`).  So all results over the rolls of a pool have one length,
and a mistake of this kind ends a tally at its first outcome (`shape_of_length`).
-/

namespace DiceTally

/-- The failures for which a number of dice is the reason. -/
def EvalError.isShape : EvalError → Bool
  | parameterCount .. | emptyTuple _ | indexOutOfRange .. | branchLength .. => true
  | _ => false

theorem EvalError.isShape_of_isByValue {e : EvalError} (h : e.isByValue = true) : e.rootCause.isShape = false := by
  cases e <;> first | rfl | cases h

/-! ### Two evaluations side by side -/

/-- Related results, or failures; a number of dice is no reason to fail on one side alone. -/
inductive Alike {α β : Type} (R : α → β → Prop) : Except EvalError α → Except EvalError β → Prop where
  | ok {a : α} {b : β} (h : R a b) : Alike R (.ok a) (.ok b)
  | left {e : EvalError} (h : e.rootCause.isShape = false) (b : β) : Alike R (.error e) (.ok b)
  | right (a : α) {e : EvalError} (h : e.rootCause.isShape = false) : Alike R (.ok a) (.error e)
  | both (e e' : EvalError) : Alike R (.error e) (.error e')

/-- Tuples of equally many dice. -/
abbrev SameLength (x y : Tuple) : Prop := x.length = y.length

namespace Alike

variable {α β γ δ : Type} {R : α → β → Prop} {S : γ → δ → Prop} {x : Except EvalError α} {y : Except EvalError β}

theorem of_error_left {e : EvalError} (h : e.rootCause.isShape = false) (y : Except EvalError β) :
    Alike R (.error e) y := by
  cases y with
  | error e' => exact .both e e'
  | ok b => exact .left h b

theorem of_error_right (x : Except EvalError α) {e : EvalError} (h : e.rootCause.isShape = false) :
    Alike R x (.error e) := by
  cases x with
  | error e' => exact .both e' e
  | ok a => exact .right a h

theorem of_ok {a : α} {b : β} (h : Alike R (.ok a) (.ok b)) : R a b := by
  cases h with
  | ok h => exact h

theorem exists_error {e : EvalError} (h : Alike R (.error e) y) (he : e.rootCause.isShape = true) :
    ∃ e', y = .error e' := by
  cases h with
  | left hnot => simp [hnot] at he
  | both _ e' => exact ⟨e', rfl⟩

theorem bind {f : α → Except EvalError γ} {g : β → Except EvalError δ} (h : Alike R x y)
    (hfg : ∀ a b, R a b → Alike S (f a) (g b)) : Alike S (x >>= f) (y >>= g) := by
  cases h with
  | ok h => exact hfg _ _ h
  | left h b => exact of_error_left h (g b)
  | right a h => exact of_error_right (f a) h
  | both e e' => exact .both e e'

theorem map {f : α → γ} {g : β → δ} (h : Alike R x y) (hfg : ∀ a b, R a b → S (f a) (g b)) :
    Alike S (x.map f) (y.map g) := by
  cases h with
  | ok h => exact .ok (hfg _ _ h)
  | left h b => exact .left h _
  | right a h => exact .right _ h
  | both e e' => exact .both e e'

theorem mapError {f g : EvalError → EvalError} (h : Alike R x y) (hf : ∀ e, (f e).rootCause = e.rootCause)
    (hg : ∀ e, (g e).rootCause = e.rootCause) : Alike R (x.mapError f) (y.mapError g) := by
  cases h with
  | ok h => exact .ok h
  | left h b => exact .left ((congrArg EvalError.isShape (hf _)).trans h) b
  | right a h => exact .right a ((congrArg EvalError.isShape (hg _)).trans h)
  | both e e' => exact .both _ _

theorem mapM {f : α → Except EvalError γ} {g : β → Except EvalError δ} {as : List α} {bs : List β}
    (h : List.Forall₂ R as bs) (hfg : ∀ a b, R a b → Alike S (f a) (g b)) :
    Alike (List.Forall₂ S) (as.mapM f) (bs.mapM g) := by
  induction h with
  | nil => exact .ok .nil
  | cons hfirst _ ih =>
    rw [List.mapM_cons, List.mapM_cons]
    exact (hfg _ _ hfirst).bind fun c d hcd => ih.bind fun cs ds hrest => .ok (.cons hcd hrest)

/-- Failures by value can strike either side. -/
theorem of_failsByValue (hx : FailsByValue x) (hy : FailsByValue y) (h : ∀ a b, x = .ok a → y = .ok b → R a b) :
    Alike R x y := by
  cases hx with
  | error hx => exact of_error_left (EvalError.isShape_of_isByValue hx) y
  | ok a =>
    cases hy with
    | error hy => exact .right a (EvalError.isShape_of_isByValue hy)
    | ok b => exact .ok (h a b rfl rfl)

end Alike

/-! ### Built-in steps -/

theorem length_of_mapM_eq_ok {α β ε : Type} {f : α → Except ε β} {as : List α} {bs : List β} (h : as.mapM f = .ok bs) :
    bs.length = as.length := (mapM_eq_ok_iff.1 h).length_eq.symm

/-- One value for each of equally many entries. -/
theorem alike_mapM_value {α : Type} {f : α → Except EvalError Value} (hf : ∀ a, FailsByValue (f a)) {as bs : List α}
    (h : as.length = bs.length) : Alike SameLength (as.mapM f) (bs.mapM f) := by
  refine .of_failsByValue (failsAs_mapM hf as) (failsAs_mapM hf bs) fun r r' hr hr' => ?_
  rw [SameLength, length_of_mapM_eq_ok hr, length_of_mapM_eq_ok hr', h]

section

variable {x y : Tuple} (h : x.length = y.length)

include h

theorem alike_positional {α : Type} (operation : String) (params : List α) {f : Value → α → Except EvalError Value}
    (hf : ∀ v p, FailsByValue (f v p)) :
    Alike SameLength (positional operation params x f) (positional operation params y f) := by
  unfold positional
  split
  · exact alike_mapM_value (fun v => hf v _) h
  · rw [h]
    split
    · exact alike_mapM_value (fun die : Value × α => hf die.1 die.2) (by simp [h])
    · exact .both _ _

theorem alike_foldFirst (operation : String) (f : Value → Value → Value) :
    Alike (fun _ _ => True) (foldFirst operation f x) (foldFirst operation f y) := by
  cases x with
  | nil =>
    obtain rfl := List.eq_nil_of_length_eq_zero h.symm
    exact .both _ _
  | cons v x =>
    obtain ⟨w, y, rfl⟩ := List.exists_cons_of_length_eq_add_one h.symm
    exact .ok trivial

theorem Reduction.alike_apply (reduction : Reduction) :
    Alike (fun _ _ => True) (reduction.apply x) (reduction.apply y) := by
  cases reduction with
  | sum | product =>
    exact .of_failsByValue (failsAs_foldlM (fun _ _ => failsByValue_checked _ _) _ x)
      (failsAs_foldlM (fun _ _ => failsByValue_checked _ _) _ y) fun _ _ _ _ => trivial
  | bitOr => exact .ok trivial
  | min | max | bitXor | bitAnd => exact alike_foldFirst h _ _

theorem alike_placeAt (index : Value) : Alike (fun _ _ => True) (placeAt x index) (placeAt y index) := by
  unfold placeAt
  rw [h]
  dsimp only
  -- the place lies in both tuples or in none
  generalize (if index < 0 then (y.length : Int) + index.toInt else index.toInt) = place
  by_cases hplace : place < 0 ∨ y.length ≤ place.toNat
  · have hnone (t : Tuple) (ht : t.length = y.length) : (if place < 0 then none else t[place.toNat]?) = none := by
      rcases hplace with hneg | hlarge
      · rw [if_pos hneg]
      · rw [List.getElem?_eq_none (ht ▸ hlarge), ite_self]
    rw [hnone x h, hnone y rfl]
    exact .both _ _
  · obtain ⟨hnonneg, hlt⟩ := not_or.1 hplace
    have hsome (t : Tuple) (ht : t.length = y.length) :
        ∃ v, (if place < 0 then none else t[place.toNat]?) = some v := by
      rw [if_neg hnonneg]
      exact ⟨_, List.getElem?_eq_getElem (ht ▸ Nat.not_le.1 hlt)⟩
    obtain ⟨v, hv⟩ := hsome x h
    obtain ⟨w, hw⟩ := hsome y rfl
    rw [hv, hw]
    exact .ok trivial

theorem alike_selectPlaces (indices : List Value) :
    Alike SameLength (selectPlaces indices x) (selectPlaces indices y) := by
  have hsorted : (sorted x).length = (sorted y).length := by simp [sorted, h]
  have hplaces : Alike (List.Forall₂ fun _ _ => True) (indices.mapM (placeAt (sorted x)))
      (indices.mapM (placeAt (sorted y))) :=
    .mapM (List.forall₂_same.2 fun index _ => rfl) fun index index' heq => heq ▸ alike_placeAt hsorted index
  generalize hleft : indices.mapM (placeAt (sorted x)) = left at hplaces
  generalize hright : indices.mapM (placeAt (sorted y)) = right at hplaces
  rw [selectPlaces, selectPlaces, hleft, hright]
  cases hplaces with
  | ok hvalues => exact .ok hvalues.length_eq
  | left h b => exact .left h b
  | right a h => exact .right a h
  | both e e' => exact .both e e'

theorem alike_rerollFrom (condition : Condition) :
    Alike (fun _ _ => True) (rerollFrom condition 0 x) (rerollFrom condition 0 y) := by
  cases x with
  | nil =>
    obtain rfl := List.eq_nil_of_length_eq_zero h.symm
    exact .both _ _
  | cons v x =>
    obtain ⟨w, y, rfl⟩ := List.exists_cons_of_length_eq_add_one h.symm
    exact .of_failsByValue (failsByValue_rerollFrom ..) (failsByValue_rerollFrom ..) fun _ _ _ _ => trivial

theorem Primitive.alike_apply (step : Primitive) : Alike SameLength (step.apply x) (step.apply y) := by
  cases step with
  | identity => exact .ok h
  | reduce reduction => exact (reduction.alike_apply h).map fun _ _ _ => rfl
  | sort => exact .ok (by simp [SameLength, sorted, h])
  | add values => exact alike_positional h _ values fun v p => failsByValue_checked _ _
  | setTo values => exact alike_positional h _ values fun _ p => .ok p
  | scale factors rounding => exact alike_positional h _ factors fun v f => failsByValue_scaleValue v f rounding
  | exp exponents asBase rounding => exact alike_positional h _ exponents (failsByValue_powerValue asBase rounding)
  | bound pairs => exact alike_positional h _ pairs fun v pair => .ok _
  | reroll condition => exact (alike_rerollFrom h condition).map fun _ _ _ => rfl
  | select indices => exact alike_selectPlaces h indices

end

/-! ### Blocks and branches -/

theorem forall₂_blocksFrom (size count : Nat) {x y : Tuple} (h : x.length = y.length) :
    List.Forall₂ SameLength (blocksFrom size count x) (blocksFrom size count y) := by
  induction count generalizing x y with
  | zero => exact .nil
  | succ count ih => exact .cons (by simp [SameLength, h]) (ih (by simp [h]))

theorem forall₂_blocks (size : Nat) {x y : Tuple} (h : x.length = y.length) :
    List.Forall₂ SameLength (blocks size x) (blocks size y) := by
  unfold blocks
  rw [h]
  exact forall₂_blocksFrom size _ h

theorem length_flatten_congr {xs ys : List Tuple} (h : List.Forall₂ SameLength xs ys) :
    xs.flatten.length = ys.flatten.length := by
  induction h with
  | nil => rfl
  | cons hfirst _ ih => simp [hfirst, ih]

/-- Merged branches have a value for every die. -/
theorem length_of_mergeFrom {condition : Condition} {position : Nat} {dice taken fallback merged : Tuple}
    (htaken : taken.length = dice.length) (hfallback : fallback.length = dice.length)
    (h : mergeFrom condition position dice taken fallback = .ok merged) : merged.length = dice.length := by
  induction dice generalizing position taken fallback merged with
  | nil =>
    obtain rfl := List.eq_nil_of_length_eq_zero htaken
    cases h
    rfl
  | cons value dice ih =>
    obtain ⟨t, taken, rfl⟩ := List.exists_cons_of_length_eq_add_one htaken
    obtain ⟨f, fallback, rfl⟩ := List.exists_cons_of_length_eq_add_one hfallback
    rw [mergeFrom] at h
    obtain ⟨b, -, h⟩ := bind_eq_ok_iff.1 h
    obtain ⟨rest, hrest, h⟩ := bind_eq_ok_iff.1 h
    cases h
    exact congrArg Nat.succ (ih (Nat.succ.inj htaken) (Nat.succ.inj hfallback) hrest)

theorem alike_merge (condition : Condition) {x y taken taken' fallback fallback' : Tuple} (h : x.length = y.length)
    (htaken : taken.length = taken'.length) (hfallback : fallback.length = fallback'.length) :
    Alike SameLength (merge condition x taken fallback) (merge condition y taken' fallback') := by
  unfold merge
  rw [h, htaken, hfallback]
  split
  · exact .both _ _
  · rename_i hlengths
    obtain ⟨htaken', hfallback'⟩ := not_or.1 hlengths
    have hright := not_not.1 htaken'
    have hright' := not_not.1 hfallback'
    refine .of_failsByValue (failsByValue_mergeFrom ..) (failsByValue_mergeFrom ..) fun r r' hr hr' => ?_
    rw [SameLength, length_of_mergeFrom (by omega) (by omega) hr, length_of_mergeFrom hright hright' hr', h]

/-! ### Whole pipelines -/

namespace Operation

/-- Built-in pipelines treat tuples of equally many dice alike. -/
theorem alike_eval {op : Operation} {tokens : List String} (hop : op.WellFormed .empty tokens) {x y : Tuple}
    (h : x.length = y.length) : Alike SameLength (op.eval x) (op.eval y) := by
  induction op generalizing x y with
  | primitive step => exact step.alike_apply h
  | sliceApply size inner outer ihinner ihouter =>
    obtain ⟨-, -, hinner, houter⟩ := hop
    -- the results of the blocks are equally long one by one, so all of them together are
    refine (Alike.mapM (forall₂_blocks size h) fun _ _ hblock => ihinner hinner hblock).bind fun _ _ hresults => ?_
    exact ihouter houter (length_flatten_congr hresults)
  | conditional condition taken otherwise ihtaken ihotherwise =>
    exact (ihtaken hop.2.1 h).bind fun _ _ htaken => (ihotherwise hop.2.2 h).bind fun _ _ hotherwise =>
      alike_merge condition h htaken hotherwise
  | native name params function => cases hop.1
  | defined name params pipeline => cases hop.1
  | andThen first next ihfirst ihnext => exact (ihfirst hop.1 h).bind fun _ _ hmiddle => ihnext hop.2 hmiddle
  | validated inner ih =>
    exact (ih hop h).mapError (EvalError.rootCause_within _ _) (EvalError.rootCause_within _ _)
  | memoized slot inner ih => exact ih hop h

end Operation

/-! ### Rolls of a pool -/

/-- The rolls of a pool: all of them, or some at random. -/
inductive Pool.Rolls (pool : Pool) : Outcomes → Prop where
  | enumerate : pool.Rolls (.enumerate pool)
  | sample (count : Nat) (words : List UInt32) : pool.Rolls (.sample pool count words)

theorem length_of_mem_samples (sampler : Sampler RandomWords) {outcome : Outcome}
    (h : outcome ∈ (Outcomes.samples sampler).all) : outcome.1.length = sampler.dice.length := by
  -- by induction on the rolls that are left
  generalize hleft : sampler.left = n
  induction n generalizing sampler with
  | zero =>
    rw [Outcomes.all_of_next?_none (Outcomes.next?_samples_eq_none_iff.2 hleft)] at h
    cases h
  | succ n ih =>
    obtain ⟨faces, hfaces, hnext⟩ := Sampler.exists_next chooses_chooseByWords (s := sampler) (by omega)
    rw [Outcomes.all_of_next? (Outcomes.next?_samples_eq_some_iff.2 ⟨hnext, rfl⟩)] at h
    rcases List.mem_cons.1 h with rfl | hrest
    · have hlength := (mem_choices.1 hfaces).length_eq
      simpa [Outcome.ofFaces] using hlength
    · rw [ih _ hrest (by rw [Sampler.left_next, hleft]; rfl), Sampler.dice_next]

theorem Pool.Rolls.length_eq {pool : Pool} {outcomes : Outcomes} (h : pool.Rolls outcomes) {outcome : Outcome}
    (hmem : outcome ∈ outcomes.all) : outcome.1.length = pool.size := by
  cases h with
  | enumerate =>
    rw [Outcomes.all_enumerate] at hmem
    obtain ⟨faces, hfaces, rfl⟩ := List.mem_map.1 hmem
    have hlength := (mem_choices.1 hfaces).length_eq
    simpa [Outcome.ofFaces, Pool.size] using hlength
  | sample count words => exact length_of_mem_samples _ hmem

namespace Operation

section

variable {options : ParseOptions} {words : List String} {op : Operation} (h : parse ⟨.empty, options⟩ words = .ok op)

include h

theorem length_eq_of_eval {x y result result' : Tuple} (hxy : x.length = y.length) (hx : op.eval x = .ok result)
    (hy : op.eval y = .ok result') : result.length = result'.length := by
  have hboth := alike_eval (wellFormed_of_parse h) hxy
  rw [hx, hy] at hboth
  exact hboth.of_ok

theorem exists_error_of_isShape {x y : Tuple} (hxy : x.length = y.length) {e : EvalError} (hx : op.eval x = .error e)
    (he : e.rootCause.isShape = true) : ∃ e', op.eval y = .error e' := by
  have hboth := alike_eval (wellFormed_of_parse h) hxy
  rw [hx] at hboth
  exact hboth.exists_error he

variable {pool : Pool} {outcomes : Outcomes} (hrolls : pool.Rolls outcomes) (capacity : Option Nat)
  (earlier : List Step)

include hrolls

/-- The results over the rolls of a pool have one length. -/
theorem exists_length_of_tallied {d : Distribution} (hd : op.tallied capacity earlier outcomes = .ok d) :
    ∃ n, ∀ entry ∈ d.entries, entry.1.length = n := by
  have hkey {entry : Tuple × Decimal} (hentry : entry ∈ d.entries) :
      ∃ outcome ∈ outcomes.all, op.eval outcome.1 = .ok entry.1 := by
    rw [← isSome_get?_of_tallied .empty h hd, Distribution.mem_entries.1 hentry]
    rfl
  cases hentries : d.entries with
  | nil => exact ⟨0, by simp⟩
  | cons first entries =>
    refine ⟨first.1.length, fun entry hentry => ?_⟩
    obtain ⟨outcome, hmem, heval⟩ := hkey (hentries ▸ hentry)
    obtain ⟨outcome', hmem', heval'⟩ := hkey (hentries ▸ List.mem_cons_self)
    exact length_eq_of_eval h ((hrolls.length_eq hmem).trans (hrolls.length_eq hmem').symm) heval heval'

/-- A tally that would fail by a number of dice ends at its first outcome. -/
theorem tallied_ends_at_first {outcome : Outcome} (hmem : outcome ∈ outcomes.all) {e : EvalError}
    (heval : op.eval outcome.1 = .error e) (he : e.rootCause.isShape = true) :
    ∃ first rest e', outcomes.all = first :: rest ∧ op.eval first.1 = .error e' ∧
      op.tallied capacity earlier outcomes = .error e' := by
  obtain ⟨first, rest, hall⟩ := List.exists_cons_of_ne_nil (List.ne_nil_of_mem hmem)
  have hfirst := hrolls.length_eq (hall ▸ List.mem_cons_self)
  obtain ⟨e', he'⟩ := exists_error_of_isShape h ((hrolls.length_eq hmem).trans hfirst.symm) heval he
  exact ⟨first, rest, e', hall, he', (tallied_eq_error_iff .empty h).2 ⟨[], first, rest, hall, by simp, he'⟩⟩

end

/-- The results of a built-in pipeline on tuples of equally many dice have one length, and where it fails on one of the
tuples by a number of dice, it fails on all of them.  So the results over the rolls of a pool have one length, and a
pipeline that fails by a number of dice on any of the rolls fails on the first one, where a tally ends. -/
theorem shape_of_length {options : ParseOptions} {words : List String} {op : Operation}
    (h : parse ⟨.empty, options⟩ words = .ok op) :
    (∀ (x y : Tuple), x.length = y.length →
      ∀ (capacity capacity' : Option Nat) (earlier earlier' : List Step),
        (∀ result result', op.answer capacity earlier x = .ok result → op.answer capacity' earlier' y = .ok result' →
          result.length = result'.length) ∧
        ∀ e, op.answer capacity earlier x = .error e → e.rootCause.isShape = true →
          ∃ e', op.answer capacity' earlier' y = .error e') ∧
    ∀ (pool : Pool) (outcomes : Outcomes), pool.Rolls outcomes → ∀ (capacity : Option Nat) (earlier : List Step),
      (∀ d, op.tallied capacity earlier outcomes = .ok d → ∃ n, ∀ entry ∈ d.entries, entry.1.length = n) ∧
      ∀ outcome ∈ outcomes.all, ∀ e, op.answer capacity earlier outcome.1 = .error e → e.rootCause.isShape = true →
        ∃ first rest e', outcomes.all = first :: rest ∧ op.answer capacity earlier first.1 = .error e' ∧
          op.tallied capacity earlier outcomes = .error e' := by
  simp only [answer_eq .empty h]
  refine ⟨fun x y hxy _ _ _ _ => ⟨fun _ _ => length_eq_of_eval h hxy, fun _ => exists_error_of_isShape h hxy⟩, ?_⟩
  intro pool outcomes hrolls capacity earlier
  exact ⟨fun _ => exists_length_of_tallied h hrolls capacity earlier,
    fun _ hmem _ => tallied_ends_at_first h hrolls capacity earlier hmem⟩

theorem shape_of_length_branches :
    ∃ op, parse ⟨.empty, ⟨true, true⟩⟩ ["slice-apply 2 [ [ select 0 -1 ] if gt 3 4 else add 1 2 ] select 1"] = .ok op ∧
    (∀ (x y : Tuple), x.length = y.length →
      ∀ (capacity capacity' : Option Nat) (earlier earlier' : List Step),
        (∀ result result', op.answer capacity earlier x = .ok result → op.answer capacity' earlier' y = .ok result' →
          result.length = result'.length) ∧
        ∀ e, op.answer capacity earlier x = .error e → e.rootCause.isShape = true →
          ∃ e', op.answer capacity' earlier' y = .error e') ∧
    ∀ (pool : Pool) (outcomes : Outcomes), pool.Rolls outcomes → ∀ (capacity : Option Nat) (earlier : List Step),
      (∀ d, op.tallied capacity earlier outcomes = .ok d → ∃ n, ∀ entry ∈ d.entries, entry.1.length = n) ∧
      ∀ outcome ∈ outcomes.all, ∀ e, op.answer capacity earlier outcome.1 = .error e → e.rootCause.isShape = true →
        ∃ first rest e', outcomes.all = first :: rest ∧ op.answer capacity earlier first.1 = .error e' ∧
          op.tallied capacity earlier outcomes = .error e' := by
  have hok : (parse ⟨.empty, ⟨true, true⟩⟩
      ["slice-apply 2 [ [ select 0 -1 ] if gt 3 4 else add 1 2 ] select 1"]).isOk = true := by cbv
  cases h : parse ⟨.empty, ⟨true, true⟩⟩ ["slice-apply 2 [ [ select 0 -1 ] if gt 3 4 else add 1 2 ] select 1"] with
  | error e =>
    rw [h] at hok
    cases hok
  | ok op => exact ⟨op, rfl, shape_of_length h⟩

end Operation

end DiceTally
