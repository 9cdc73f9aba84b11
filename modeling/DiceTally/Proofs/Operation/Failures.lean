import DiceTally.Operation.Eval
import DiceTally.Proofs.Except

/-!
# Kinds of failures

`FailsAs` bounds the failures of a computation, and composed computations keep the bound.  What is computed for a
single die, and whether a condition holds of it, fails by what the die shows only: by an overflow, a missing operand
or a power that does not exist (`EvalError.isByValue`).  Where only the root cause of a failure counts, computations
are compared by `rooted`, which goes through composed ones.
-/

namespace DiceTally

/-- A result, or a failure of a kind. -/
inductive FailsAs (P : EvalError → Prop) {α : Type} : Except EvalError α → Prop where
  | ok (a : α) : FailsAs P (.ok a)
  | error {e : EvalError} (h : P e) : FailsAs P (.error e)

section

variable {P Q : EvalError → Prop} {α β : Type}

theorem FailsAs.mono {x : Except EvalError α} (hx : FailsAs P x) (hPQ : ∀ e, P e → Q e) : FailsAs Q x := by
  cases hx with
  | ok a => exact .ok a
  | error h => exact .error (hPQ _ h)

theorem FailsAs.bind {x : Except EvalError α} {f : α → Except EvalError β} (hx : FailsAs P x)
    (hf : ∀ a, FailsAs P (f a)) : FailsAs P (x >>= f) := by
  cases hx with
  | ok a => exact hf a
  | error h => exact .error h

theorem FailsAs.map {x : Except EvalError α} (hx : FailsAs P x) (f : α → β) : FailsAs P (x.map f) := by
  cases hx with
  | ok a => exact .ok (f a)
  | error h => exact .error h

theorem failsAs_mapM {f : α → Except EvalError β} (h : ∀ a, FailsAs P (f a)) (as : List α) :
    FailsAs P (as.mapM f) := by
  induction as with
  | nil => exact .ok []
  | cons a as ih =>
    rw [List.mapM_cons]
    exact (h a).bind fun b => ih.bind fun bs => .ok (b :: bs)

theorem failsAs_foldlM {f : β → α → Except EvalError β} (h : ∀ b a, FailsAs P (f b a)) (b : β) (as : List α) :
    FailsAs P (as.foldlM f b) := by
  induction as generalizing b with
  | nil => exact .ok b
  | cons a as ih =>
    rw [List.foldlM_cons]
    exact (h b a).bind ih

end

/-! ### Failures by value -/

/-- The failures that come from what a die shows. -/
def EvalError.isByValue : EvalError → Bool
  | overflow _ | missingOperand .. | zeroToNegativePower | notReal .. => true
  | _ => false

/-- A result, or a failure that comes from what a die shows. -/
abbrev FailsByValue {α : Type} (x : Except EvalError α) : Prop := FailsAs (fun e => e.isByValue = true) x

theorem EvalError.isStage_of_isByValue {e : EvalError} (h : e.isByValue = true) : e.isStage = false := by
  cases e with
  | stage label input cause => cases h
  | _ => rfl

theorem failsByValue_checked (operation : String) (n : Int) : FailsByValue (checked operation n) := by
  unfold checked
  split
  · exact .ok _
  · exact .error rfl

theorem failsByValue_roundToValue (operation : String) (mode : Rounding) (d : Decimal) :
    FailsByValue (roundToValue operation mode d) := by
  unfold roundToValue
  split
  · exact .ok _
  · exact .error rfl

theorem failsByValue_scaleValue (value : Value) (factor : Decimal) (mode : Rounding) :
    FailsByValue (scaleValue value factor mode) := by
  unfold scaleValue
  split
  · exact failsByValue_roundToValue ..
  · exact .error rfl

theorem failsByValue_integralPower (base : Decimal) (n : Int) : FailsByValue (integralPower base n) := by
  unfold integralPower
  split
  · exact .error rfl
  · dsimp only
    split
    · exact .ok _
    · exact .error rfl

theorem failsByValue_fractionalPower (base exponent : Decimal) : FailsByValue (fractionalPower base exponent) := by
  unfold fractionalPower
  dsimp only
  split
  · exact .error rfl
  · split
    · exact .ok _
    · exact .error rfl

theorem failsByValue_power (base exponent : Decimal) (mode : Rounding) : FailsByValue (power base exponent mode) := by
  have hround := failsByValue_roundToValue "exp" mode
  unfold power
  dsimp only
  split
  · split
    · exact (failsByValue_integralPower ..).bind hround
    · split
      · exact (failsByValue_integralPower ..).bind hround
      · exact .error rfl
  · exact (failsByValue_fractionalPower ..).bind hround

theorem failsByValue_powerValue (asBase : Bool) (rounding : Rounding) (x : Value) (p : Decimal) :
    FailsByValue (powerValue asBase rounding x p) := by
  unfold powerValue
  split
  · exact failsByValue_power ..
  · exact failsByValue_power ..

theorem failsByValue_operandAt (keyword : String) (operands : List Value) (position : Nat) :
    FailsByValue (operandAt keyword operands position) := by
  unfold operandAt
  split
  · exact .ok _
  · split
    · exact .ok _
    · exact .error rfl

theorem failsByValue_floorMod (value divisor : Value) : FailsByValue (floorMod value divisor) := by
  unfold floorMod
  split
  · exact .error rfl
  · exact .ok _

theorem Condition.failsByValue_eval (condition : Condition) (value : Value) (position : Nat) :
    FailsByValue (condition.eval value position) := by
  induction condition generalizing value with
  | always => exact .ok true
  | compare comparison operands => exact (failsByValue_operandAt ..).bind fun operand => .ok _
  | modulo divisors inner ih =>
    exact (failsByValue_operandAt ..).bind fun divisor => (failsByValue_floorMod ..).bind ih
  | not inner ih => exact (ih value).bind fun b => .ok _
  | and left right ihleft ihright => exact (ihleft value).bind fun l => (ihright value).bind fun r => .ok _
  | or left right ihleft ihright => exact (ihleft value).bind fun l => (ihright value).bind fun r => .ok _

theorem failsByValue_mergeFrom (condition : Condition) (position : Nat) (dice taken fallback : Tuple) :
    FailsByValue (mergeFrom condition position dice taken fallback) := by
  fun_induction mergeFrom condition position dice taken fallback with
  | case1 position value dice t taken f fallback ih =>
    exact (condition.failsByValue_eval value position).bind fun b => ih.bind fun rest => .ok _
  | case2 => exact .ok []

/-- Only without dice there is nothing to take. -/
theorem failsByValue_rerollFrom (condition : Condition) (position : Nat) (value : Value) (rest : Tuple) :
    FailsByValue (rerollFrom condition position (value :: rest)) := by
  induction rest generalizing position value with
  | nil => exact .ok value
  | cons next rest ih =>
    refine (condition.failsByValue_eval value position).bind fun again => ?_
    cases again
    · exact .ok value
    · exact ih (position + 1) next

/-! ### Root causes -/

theorem EvalError.rootCause_within (label : String) (input : Tuple) (e : EvalError) :
    (e.within label input).rootCause = e.rootCause := by
  unfold within
  split
  · rfl
  · rfl

/-- A result, or the root cause of a failure. -/
def rooted {α : Type} (x : Except EvalError α) : Except EvalError α := x.mapError EvalError.rootCause

section

variable {α β : Type}

theorem rooted_eq_ok_iff {x : Except EvalError α} {a : α} : rooted x = .ok a ↔ x = .ok a := mapError_eq_ok_iff

theorem rooted_bind (x : Except EvalError α) (f : α → Except EvalError β) :
    rooted (x >>= f) = rooted x >>= fun a => rooted (f a) := mapError_bind _ x f

theorem rooted_mapM (f : α → Except EvalError β) (as : List α) :
    rooted (as.mapM f) = as.mapM fun a => rooted (f a) := mapError_mapM _ f as

theorem rooted_within (label : String) (input : Tuple) (x : Except EvalError α) :
    rooted (x.mapError (.within label input)) = rooted x := by
  cases x with
  | ok a => rfl
  | error e => exact congrArg Except.error (e.rootCause_within label input)

end

end DiceTally
