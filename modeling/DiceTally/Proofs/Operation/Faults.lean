import DiceTally.Proofs.Operation.Sessions

/-!
# Evaluation without faults

Some steps of an evaluation rely on what the reader of pipelines has checked: dice are cut into blocks of at least
one die, remainders are by other numbers than zero, the bounds of a step are in order, and the results of two
branches are as long as the dice.  `Operation.watch` evaluates like `Operation.run` and stops with a `Fault` where
this does not hold.  What has been read is evaluated without faults, whatever the caches hold (`watch_eq_ofCached`).
-/

namespace DiceTally

/-- A step that has no sensible answer. -/
inductive Fault where
  | emptyBlocks
  | branchIndex (position length : Nat)
  | zeroDivisor
  | reversedBounds (lower upper : Value)
  deriving DecidableEq, Repr

/-- An evaluation that may use and fill the caches, and that stops at a fault. -/
abbrev Watched := ExceptT EvalError (ExceptT Fault (StateM Store))

namespace Watched

/-- The result or the fault in a store, and the store after it. -/
def runIn {α : Type} (body : Watched α) (s : Store) : Except Fault (Except EvalError α) × Store :=
  (ExceptT.run (ExceptT.run body)).run s

def ofFunction {α : Type} (f : Store → Except Fault (Except EvalError α) × Store) : Watched α :=
  ExceptT.mk (ExceptT.mk f)

def fault {α : Type} (f : Fault) : Watched α := ofFunction fun s => (.error f, s)

/-- An evaluation without faults. -/
def ofCached {α : Type} (body : Cached α) : Watched α :=
  ofFunction fun s => (.ok (body.run s).1, (body.run s).2)

/-- An evaluation without faults that leaves the caches alone. -/
def ofExcept {α : Type} (result : Except EvalError α) : Watched α := ofCached (.ofExcept result)

def mapError (f : EvalError → EvalError) (body : Watched Tuple) : Watched Tuple :=
  ofFunction fun s => ((body.runIn s).1.map (Except.mapError f), (body.runIn s).2)

/-- Runs a named pipeline on its own caches. -/
def withDefinition (name : String) (pipeline : Operation) (body : Watched Tuple) : Watched Tuple :=
  ofFunction fun s =>
    let (result, after) := body.runIn { s with caches := s.definitionCaches name pipeline }
    (result, { after with caches := s.caches, definitions := setCaches name after.caches after.definitions })

end Watched

/-! ### Steps that can be at fault -/

def remainder (value divisor : Value) : Watched Value :=
  if divisor = 0 then .fault .zeroDivisor else .ofExcept (floorMod value divisor)

def clampWithin (x : Value) (bounds : Value × Value) : Watched Value :=
  if bounds.2 < bounds.1 then .fault (.reversedBounds bounds.1 bounds.2) else pure (clamp x bounds.1 bounds.2)

/-- The result of a branch for the die at a position. -/
def branchValue (results : Tuple) (position : Nat) : Watched Value :=
  match results[position]? with
  | some v => pure v
  | none => .fault (.branchIndex position results.length)

def Condition.watch : Condition → Value → Nat → Watched Bool
  | always, _, _ => pure true
  | compare comparison operands, value, position => do
    let operand ← .ofExcept (operandAt comparison.keyword operands position)
    return comparison.holds value operand
  | modulo divisors inner, value, position => do
    let divisor ← .ofExcept (operandAt "mod" divisors position)
    inner.watch (← remainder value divisor) position
  | not inner, value, position => do
    return !(← inner.watch value position)
  | and left right, value, position => do
    let l ← left.watch value position
    let r ← right.watch value position
    return l && r
  | or left right, value, position => do
    let l ← left.watch value position
    let r ← right.watch value position
    return l || r

/-- Picks for every die the result of one branch or the other at its position. -/
def mergeWatched (condition : Condition) (dice taken fallback : Tuple) : Watched Tuple :=
  if taken.length ≠ dice.length ∨ fallback.length ≠ dice.length then
    .ofExcept (.error (.branchLength dice.length taken.length fallback.length))
  else dice.zipIdx.mapM fun (value, position) => do
    if ← condition.watch value position then branchValue taken position else branchValue fallback position

def rerollWatched (condition : Condition) (position : Nat) : Tuple → Watched Value
  | [] => .ofExcept (.error (.emptyTuple "reroll"))
  | [last] => pure last
  | value :: rest => do
    if ← condition.watch value position then rerollWatched condition (position + 1) rest else pure value

def boundWatched (pairs : List (Value × Value)) (dice : Tuple) : Watched Tuple :=
  match pairs with
  | [shared] => dice.mapM fun x => clampWithin x shared
  | _ =>
    if pairs.length = dice.length then (dice.zip pairs).mapM fun (x, pair) => clampWithin x pair
    else .ofExcept (.error (.parameterCount "bound" pairs.length dice.length))

def Primitive.watch : Primitive → Tuple → Watched Tuple
  | bound pairs, dice => boundWatched pairs dice
  | reroll condition, dice => do return [← rerollWatched condition 0 dice]
  | step, dice => .ofExcept (step.apply dice)

/-- The result of an operation on a tuple, unless a step is at fault. -/
def Operation.watch : Operation → Tuple → Watched Tuple
  | primitive step, dice => step.watch dice
  | sliceApply size inner outer, dice =>
    if size = 0 then .fault .emptyBlocks
    else do
      let results ← (blocks size dice).mapM fun block => inner.watch block
      outer.watch results.flatten
  | conditional condition taken otherwise, dice => do
    let t ← taken.watch dice
    let f ← otherwise.watch dice
    mergeWatched condition dice t f
  | native name params function, dice => .ofExcept ((function dice params).mapError (.custom name))
  | defined name params pipeline, dice =>
    if params.isEmpty then
      (Watched.withDefinition name pipeline (pipeline.watch dice)).mapError fun e => .custom name e.message
    else .ofExcept (.error (.custom name (parametersRefused name params.length)))
  | andThen first next, dice => do
    let middle ← first.watch dice
    next.watch middle
  | validated inner, dice => (inner.watch dice).mapError (.within inner.render dice)
  | memoized slot inner, dice => do
    match ← modifyGet fun (s : Store) => s.get slot dice with
    | some output => return output
    | none =>
      let output ← inner.watch dice
      modify fun (s : Store) => s.insert slot dice output
      return output

/-! ### Composition -/

namespace Watched

variable {α β : Type}

theorem runIn_bind (body : Watched α) (f : α → Watched β) (s : Store) :
    (body >>= f).runIn s =
      match body.runIn s with
      | (.ok (.ok a), after) => (f a).runIn after
      | (.ok (.error e), after) => (.ok (.error e), after)
      | (.error f, after) => (.error f, after) := by
  unfold runIn
  rw [ExceptT.run_bind, ExceptT.run_bind, StateT.run_bind]
  rcases (ExceptT.run (ExceptT.run body)).run s with ⟨_ | _ | _, after⟩ <;> rfl

theorem ext_runIn {x y : Watched α} (h : ∀ s, x.runIn s = y.runIn s) : x = y := funext h

theorem runIn_ofCached (body : Cached α) (s : Store) :
    (ofCached body).runIn s = (.ok (body.run s).1, (body.run s).2) := rfl

theorem ofCached_bind (body : Cached α) (f : α → Cached β) :
    ofCached (body >>= f) = ofCached body >>= fun a => ofCached (f a) := by
  refine ext_runIn fun s => ?_
  rw [runIn_bind, runIn_ofCached, runIn_ofCached]
  rcases h : body.run s with ⟨e | a, after⟩
  · rw [Cached.run_bind_error h]
  · rw [Cached.run_bind_ok h]
    rfl

/-- Without faults in its two parts an evaluation has none. -/
theorem bind_eq_ofCached {x : Watched α} {body : Cached α} {g : α → Watched β} {f : α → Cached β}
    (hx : x = ofCached body) (h : ∀ a, g a = ofCached (f a)) : x >>= g = ofCached (body >>= f) := by
  rw [ofCached_bind, hx]
  exact congrArg _ (funext h)

theorem mapM_eq_ofCached {g : α → Watched β} {f : α → Cached β} (h : ∀ a, g a = ofCached (f a)) (as : List α) :
    as.mapM g = ofCached (as.mapM f) := by
  induction as with
  | nil => rfl
  | cons a as ih =>
    rw [List.mapM_cons, List.mapM_cons]
    exact bind_eq_ofCached (h a) fun b => bind_eq_ofCached ih fun bs => rfl

/-- What follows a result need only be without faults for this result. -/
theorem bind_eq_ofExcept {x : Watched α} {result : Except EvalError α} {g : α → Watched β}
    {f : α → Except EvalError β} (hx : x = ofExcept result) (h : ∀ a, result = .ok a → g a = ofExcept (f a)) :
    x >>= g = ofExcept (result >>= f) := by
  subst hx
  cases result with
  | error e => rfl
  | ok a => exact h a rfl

theorem mapM_eq_ofExcept {g : α → Watched β} {f : α → Except EvalError β} {as : List α}
    (h : ∀ a ∈ as, g a = ofExcept (f a)) : as.mapM g = ofExcept (as.mapM f) := by
  induction as with
  | nil => rfl
  | cons a as ih =>
    obtain ⟨ha, has⟩ := List.forall_mem_cons.1 h
    rw [List.mapM_cons, List.mapM_cons]
    exact bind_eq_ofExcept ha fun b _ => bind_eq_ofExcept (ih has) fun bs _ => rfl

end Watched

open Watched

/-! ### Steps without faults -/

theorem remainder_of_ne_zero (value : Value) {divisor : Value} (h : divisor ≠ 0) :
    remainder value divisor = .ofExcept (floorMod value divisor) := if_neg h

theorem clampWithin_of_le (x : Value) {bounds : Value × Value} (h : bounds.1 ≤ bounds.2) :
    clampWithin x bounds = .ofExcept (.ok (clamp x bounds.1 bounds.2)) := if_neg (Int64.not_lt.2 h)

theorem branchValue_of_getElem? {results : Tuple} {position : Nat} {v : Value} (h : results[position]? = some v) :
    branchValue results position = .ofExcept (.ok v) := by
  unfold branchValue
  rw [h]
  rfl

theorem mem_of_operandAt {operands : List Value} {keyword : String} {position : Nat} {operand : Value}
    (h : operandAt keyword operands position = .ok operand) : operand ∈ operands := by
  unfold operandAt at h
  split at h
  · cases h
    exact List.mem_singleton_self _
  · split at h
    · cases h
      exact List.mem_of_getElem? ‹_›
    · cases h

theorem Condition.watch_of_wellFormed {c : Condition} (h : c.WellFormed) (value : Value) (position : Nat) :
    c.watch value position = .ofExcept (c.eval value position) := by
  induction c generalizing value with
  | always => cases h
  | compare comparison operands => exact bind_eq_ofExcept rfl fun operand _ => rfl
  | modulo divisors inner ih =>
    obtain ⟨-, hzero, -, hinner⟩ := h
    refine bind_eq_ofExcept rfl fun divisor hdivisor => ?_
    have hne : divisor ≠ 0 := fun heq => hzero (heq ▸ mem_of_operandAt hdivisor)
    exact bind_eq_ofExcept (remainder_of_ne_zero value hne) fun r _ => ih hinner r
  | not inner ih => exact bind_eq_ofExcept (ih h value) fun b _ => rfl
  | and left right ihleft ihright =>
    exact bind_eq_ofExcept (ihleft h.1 value) fun l _ => bind_eq_ofExcept (ihright h.2 value) fun r _ => rfl
  | or left right ihleft ihright =>
    exact bind_eq_ofExcept (ihleft h.1 value) fun l _ => bind_eq_ofExcept (ihright h.2 value) fun r _ => rfl

/-- What is left of a list from a position on says what stands at the position. -/
theorem getElem?_and_drop_of_drop_eq_cons {α : Type} {xs ys : List α} {position : Nat} {x : α}
    (h : xs.drop position = x :: ys) : xs[position]? = some x ∧ xs.drop (position + 1) = ys := by
  refine ⟨?_, ?_⟩
  · rw [← List.head?_drop, h]
    rfl
  · rw [← List.tail_drop, h]
    rfl

section Conditions

variable {condition : Condition} (hcondition : condition = .always ∨ condition.WellFormed)

include hcondition

theorem Condition.watch_eq (value : Value) (position : Nat) :
    condition.watch value position = .ofExcept (condition.eval value position) := by
  rcases hcondition with rfl | h
  · rfl
  · exact condition.watch_of_wellFormed h value position

/-- Picking from the results by position is picking from what is left of them. -/
theorem mapM_zipIdx_eq_mergeFrom {taken fallback : Tuple} {dice ts fs : Tuple} {position : Nat}
    (htaken : taken.drop position = ts) (hts : ts.length = dice.length) (hfallback : fallback.drop position = fs)
    (hfs : fs.length = dice.length) :
    ((dice.zipIdx position).mapM fun (value, position) => do
      if ← condition.watch value position then branchValue taken position else branchValue fallback position) =
        .ofExcept (mergeFrom condition position dice ts fs) := by
  induction dice generalizing position ts fs with
  | nil => cases ts <;> cases fs <;> rfl
  | cons value dice ih =>
    obtain ⟨t, ts, rfl⟩ := List.exists_cons_of_length_eq_add_one hts
    obtain ⟨f, fs, rfl⟩ := List.exists_cons_of_length_eq_add_one hfs
    obtain ⟨htake, htaken⟩ := getElem?_and_drop_of_drop_eq_cons htaken
    obtain ⟨hfall, hfallback⟩ := getElem?_and_drop_of_drop_eq_cons hfallback
    have hpick (b : Bool) : (if b then branchValue taken position else branchValue fallback position) =
        .ofExcept (.ok (if b then t else f)) := by
      cases b
      · exact branchValue_of_getElem? hfall
      · exact branchValue_of_getElem? htake
    rw [List.zipIdx_cons, List.mapM_cons, mergeFrom, bind_assoc]
    refine bind_eq_ofExcept (condition.watch_eq hcondition value position) fun b _ => ?_
    refine (congrArg (· >>= _) (hpick b)).trans ?_
    exact bind_eq_ofExcept (ih htaken (Nat.succ.inj hts) hfallback (Nat.succ.inj hfs)) fun rest _ => rfl

theorem mergeWatched_eq (dice taken fallback : Tuple) :
    mergeWatched condition dice taken fallback = .ofExcept (merge condition dice taken fallback) := by
  unfold mergeWatched merge
  split
  · rfl
  · rename_i hlength
    obtain ⟨htaken, hfallback⟩ := not_or.1 hlength
    exact mapM_zipIdx_eq_mergeFrom hcondition rfl (not_not.1 htaken) rfl (not_not.1 hfallback)

theorem rerollWatched_eq (position : Nat) (dice : Tuple) :
    rerollWatched condition position dice = .ofExcept (rerollFrom condition position dice) := by
  induction dice generalizing position with
  | nil => rfl
  | cons value rest ih =>
    cases rest with
    | nil => rfl
    | cons next rest =>
      refine bind_eq_ofExcept (condition.watch_eq hcondition value position) fun again _ => ?_
      cases again
      · rfl
      · exact ih (position + 1)

end Conditions

theorem boundWatched_eq {pairs : List (Value × Value)} (h : ∀ pair ∈ pairs, pair.1 ≤ pair.2) (dice : Tuple) :
    boundWatched pairs dice =
      .ofExcept (positional "bound" pairs dice fun x pair => .ok (clamp x pair.1 pair.2)) := by
  -- one pair for all dice, or one for each of them
  rcases pairs with _ | ⟨first, _ | ⟨second, rest⟩⟩
  case cons.nil => exact mapM_eq_ofExcept fun x _ => clampWithin_of_le x (h _ (List.mem_singleton_self _))
  all_goals
    dsimp only [boundWatched, positional]
    split
    · exact mapM_eq_ofExcept fun die hdie => clampWithin_of_le die.1 (h _ (List.of_mem_zip hdie).2)
    · rfl

theorem Primitive.watch_eq {step : Primitive} (h : step.WellFormed) (dice : Tuple) :
    step.watch dice = .ofExcept (step.apply dice) := by
  cases step with
  | bound pairs => exact boundWatched_eq h.2 dice
  | reroll condition =>
    refine (bind_eq_ofExcept (rerollWatched_eq h 0 dice) fun v _ => rfl).trans ?_
    exact congrArg Watched.ofExcept (bind_pure_comp _ _)
  | _ => rfl

namespace Operation

/-- What is read is evaluated without faults. -/
theorem watch_eq_ofCached {registry : Registry} (hregistry : registry.Built) {op : Operation} {tokens : List String}
    (hop : op.WellFormed registry tokens) (dice : Tuple) : op.watch dice = .ofCached (op.run dice) := by
  induction op generalizing tokens dice with
  | primitive step => exact step.watch_eq hop dice
  | sliceApply size inner outer ihinner ihouter =>
    obtain ⟨hsize, -, hinner, houter⟩ := hop
    unfold watch run
    rw [if_neg hsize.ne']
    exact bind_eq_ofCached (mapM_eq_ofCached (ihinner hinner) _) fun results => ihouter houter _
  | conditional condition taken otherwise ihtaken ihotherwise =>
    obtain ⟨hcondition, htaken, hotherwise⟩ := hop
    exact bind_eq_ofCached (ihtaken htaken dice) fun t =>
      bind_eq_ofCached (ihotherwise hotherwise dice) fun f => mergeWatched_eq hcondition dice t f
  | native name params function => rfl
  | defined name params pipeline ih =>
    -- what is registered has been read as well
    obtain ⟨options, words, hparse⟩ := (hregistry.entry hop.1).parsed pipeline rfl
    have hpipeline := wellFormed_of_empty (wellFormed_of_parse hparse) registry
    unfold watch run
    split
    · rw [ih hpipeline dice]
      rfl
    · rfl
  | andThen first next ihfirst ihnext =>
    exact bind_eq_ofCached (ihfirst hop.1 dice) fun middle => ihnext hop.2 middle
  | validated inner ih =>
    unfold watch run
    rw [ih hop dice]
    rfl
  | memoized slot inner ih =>
    refine bind_eq_ofCached rfl fun found => ?_
    cases found with
    | some output => rfl
    | none => exact bind_eq_ofCached (ih hop dice) fun output => bind_eq_ofCached rfl fun _ => rfl

/-- Bounds in the wrong order, which are not read, are a fault. -/
example (s : Store) :
    ((primitive (.bound [(6, 1)])).watch [3]).runIn s = (.error (.reversedBounds 6 1), s) := rfl

/-- An operation that has been read is well formed, the numbers of its cached levels are among those of its caches,
and it is evaluated without faults, whatever the caches hold. -/
theorem faultless_of_parse {registry : Registry} {options : ParseOptions} {words : List String} {op : Operation}
    (h : parse ⟨registry, options⟩ words = .ok op) :
    op.WellFormed registry (Token.normalize words) ∧ (∀ m ∈ op.memos, m.1 < op.memoSlots) ∧
      (registry.Built → ∀ (dice : Tuple) (s : Store),
        (op.watch dice).runIn s = (.ok (op.apply dice s).1, (op.apply dice s).2)) := by
  have hop : op.WellFormed registry (Token.normalize words) := wellFormed_of_parse h
  refine ⟨hop, op.lt_memoSlots, fun hregistry dice s => ?_⟩
  rw [watch_eq_ofCached hregistry hop]
  rfl

theorem faultless_of_parse_turnedBlocks :
    ∃ op, parse ⟨sessionRegistry, ⟨true, true⟩⟩
        ["slice-apply 2 [ bound 1 6 turn ] [ turn ] if mod 3 ge 1 else [ low ] then reroll if eq 1"] = .ok op ∧
      op.WellFormed sessionRegistry (Token.normalize
        ["slice-apply 2 [ bound 1 6 turn ] [ turn ] if mod 3 ge 1 else [ low ] then reroll if eq 1"]) ∧
      (∀ m ∈ op.memos, m.1 < op.memoSlots) ∧
      ∀ (dice : Tuple) (s : Store), (op.watch dice).runIn s = (.ok (op.apply dice s).1, (op.apply dice s).2) := by
  have hok : (parse ⟨sessionRegistry, ⟨true, true⟩⟩
      ["slice-apply 2 [ bound 1 6 turn ] [ turn ] if mod 3 ge 1 else [ low ] then reroll if eq 1"]).isOk = true := by cbv
  cases h : parse ⟨sessionRegistry, ⟨true, true⟩⟩
      ["slice-apply 2 [ bound 1 6 turn ] [ turn ] if mod 3 ge 1 else [ low ] then reroll if eq 1"] with
  | error e =>
    rw [h] at hok
    cases hok
  | ok op =>
    obtain ⟨hop, hslots, hrun⟩ := faultless_of_parse h
    exact ⟨op, rfl, hop, hslots, hrun built_sessionRegistry⟩

end Operation

end DiceTally
