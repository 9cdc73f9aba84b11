import DiceTally.Proofs.Pipeline.Reading

/-!
# Reading in two languages

Two languages that know the same names read a pipeline side by side: they cut it at the same places and refuse it for
the same reasons, and only what a level is wrapped in and what a name stands for may be different.  A `Comparison` is a
relation of operations that every construct of a pipeline keeps.  What the two languages read is then related as a whole
(`Comparison.related_readPipeline`).
-/

namespace DiceTally

namespace Operation

/-- A relation of what is read in two languages.  `Same top n op k op'` is to say that `op`, whose caches are numbered
from `n` up to `k`, is read where the other language reads `op'`; `top` tells that it is a whole pipeline. -/
structure Comparison (language language' : Language) where
  Same : Bool → Nat → Operation → Nat → Operation → Prop
  primitive (step : Primitive) (n : Nat) : Same false n (.primitive step) n (.primitive step)
  builtIn {name : String} {params : List String} {op : Operation} (h : ofWords name params = .ok op) (n : Nat) :
    Same false n op n op
  call {name : String} {callable : Callable} (h : language.registry.get? name = some callable) :
    ∃ callable', language'.registry.get? name = some callable' ∧
      ∀ params n, Same false n (callable.call name params) n (callable'.call name params)
  missing {name : String} (h : language.registry.get? name = none) : language'.registry.get? name = none
  sliceApply {n i k size : Nat} {inner inner' outer outer' : Operation} (hinner : Same false n inner i inner')
    (houter : Same false i outer k outer') :
    Same false n (.sliceApply size inner outer) k (.sliceApply size inner' outer')
  conditional {n i k : Nat} {condition : Condition} {taken taken' otherwise otherwise' : Operation}
    (htaken : Same false n taken i taken') (hotherwise : Same false i otherwise k otherwise') :
    Same false n (.conditional condition taken otherwise) k (.conditional condition taken' otherwise')
  andThen {n i k : Nat} {first first' next next' : Operation} (hfirst : Same false n first i first')
    (hnext : Same false i next k next') : Same false n (.andThen first next) k (.andThen first' next')
  wrapped {n k : Nat} {op op' : Operation} (h : Same false n op k op') (top : Bool) (m : Nat) :
    Same top n (Operation.wrapped language.options top op k).1 (Operation.wrapped language.options top op k).2
      (Operation.wrapped language'.options top op' m).1

namespace Comparison

variable {language language' : Language} (comparison : Comparison language language')

/-- Started at the number `k`, the first reading fails where the other one does, or gives an operation numbered from `n`
on that is related to that of the other one. -/
def Related (top : Bool) (n k : Nat) (x y : Reading Operation) : Prop :=
  ∀ m, (∃ e, x.run k = .error e ∧ y.run m = .error e) ∨
    ∃ r r', x.run k = .ok r ∧ y.run m = .ok r' ∧ comparison.Same top n r.1 r.2 r'.1

variable {comparison} {top : Bool} {n i k : Nat}

/-! ### Steps of a reading -/

theorem related_throw (e : ParseError) : comparison.Related top n k (throw e) (throw e) :=
  fun _ => .inl ⟨e, rfl, rfl⟩

theorem related_pure {op op' : Operation} (h : comparison.Same top n op k op') :
    comparison.Related top n k (pure op) (pure op') := fun m => .inr ⟨(op, k), (op', m), rfl, rfl, h⟩

theorem related_wrap {op op' : Operation} (h : comparison.Same false n op k op') (top : Bool) :
    comparison.Related top n k (wrap language.options top op) (wrap language'.options top op') :=
  fun m => .inr ⟨_, _, run_wrap .., run_wrap .., comparison.wrapped h top m⟩

/-- A part that is no operation is read first, with the same result. -/
theorem related_lift_bind {α : Type} (x : Except ParseError α) {f g : α → Reading Operation}
    (h : ∀ a, x = .ok a → comparison.Related top n k (f a) (g a)) :
    comparison.Related top n k (liftM x >>= f) (liftM x >>= g) := by
  intro m
  rw [StateT.run_bind, StateT.run_bind, run_lift, run_lift]
  cases hx : x with
  | error e => exact .inl ⟨e, rfl, rfl⟩
  | ok a => exact h a hx m

/-- An operation is read first, and what comes after it starts at the number that its levels leave. -/
theorem Related.bind {x y : Reading Operation} {f g : Operation → Reading Operation}
    (hxy : comparison.Related false i k x y)
    (h : ∀ op j op', comparison.Same false i op j op' → comparison.Related top n j (f op) (g op')) :
    comparison.Related top n k (x >>= f) (y >>= g) := by
  intro m
  rw [StateT.run_bind, StateT.run_bind]
  rcases hxy m with ⟨e, hx, hy⟩ | ⟨r, r', hx, hy, hsame⟩
  · rw [hx, hy]
    exact .inl ⟨e, rfl, rfl⟩
  · rw [hx, hy]
    exact h r.1 r.2 r'.1 hsame r'.2

/-! ### Whole readings -/

/-- The first stage ends at the same place. -/
theorem ofTokens_eq (comparison : Comparison language language') (tokens : List String) :
    Cut.ofTokens language'.registry tokens = Cut.ofTokens language.registry tokens := by
  have hcontains (name : String) : language'.registry.contains name = language.registry.contains name := by
    unfold Registry.contains
    cases hget : language.registry.get? name with
    | none => rw [comparison.missing hget]
    | some callable =>
      obtain ⟨callable', hget', -⟩ := comparison.call hget
      rw [hget']
      rfl
  have hstops : stopsParams language'.registry = stopsParams language.registry :=
    funext fun t => by rw [stopsParams, stopsParams, hcontains]
  cases tokens with
  | nil => rfl
  | cons head tail => simp only [Cut.ofTokens, hstops]

theorem related_readPipeline (comparison : Comparison language language') (top : Bool) (tokens : List String) (n : Nat) :
    comparison.Related top n n (readPipeline language top tokens) (readPipeline language' top tokens) := by
  -- along the readings of the first language; a guard is read behind the operation that it belongs to, so its motive
  -- is about all operations that may stand there in the other language
  refine (readPipeline.mutual_induct language
    (fun top tokens =>
      ∀ n, comparison.Related top n n (readPipeline language top tokens) (readPipeline language' top tokens))
    (fun cut => ∀ n, comparison.Related false n n (readStage language cut) (readStage language' cut))
    (fun tokens => ∀ n, comparison.Related false n n (readBranch language tokens) (readBranch language' tokens))
    (fun op guard => ∀ n k op', comparison.Same false n op k op' →
      comparison.Related false n k (readGuard language op guard) (readGuard language' op' guard))
    ?noStage ?level ?group ?slicesGuarded ?slices ?slicesArity ?registeredGuarded ?registered ?rerollArity ?reroll
    ?rerollGuarded ?builtIn ?noBranch ?branch ?noBranchStart ?noGuard ?guard).1 top tokens n
  case noStage =>
    intro top tokens e hcut n
    rw [readPipeline_error hcut, readPipeline_error ((comparison.ofTokens_eq tokens).trans hcut)]
    exact related_throw e
  case level =>
    intro top tokens cut hcut ihstage ihrest n
    rw [readPipeline_ok hcut, readPipeline_ok ((comparison.ofTokens_eq tokens).trans hcut)]
    refine (ihstage n).bind fun current i current' hcurrent => ?_
    split
    · exact related_wrap hcurrent top
    · exact (ihrest i).bind fun next k next' hnext => related_wrap (comparison.andThen hcurrent hnext) top
  case group =>
    intro body guard rest ihbody ihguard n
    rw [readStage_group, readStage_group]
    exact (ihbody n).bind fun group k group' hgroup => ihguard group n k group' hgroup
  case slicesGuarded =>
    intro params rest n
    rw [readStage_slices_guarded, readStage_slices_guarded]
    exact related_throw _
  case slices =>
    intro guarded rest hguarded token ihstage ihrest n
    obtain rfl : guarded = false := by simpa using hguarded
    by_cases hnil : rest = []
    · subst hnil
      rw [readStage_slices_nil, readStage_slices_nil]
      exact related_lift_bind _ fun _ _ => related_throw _
    · cases hcut : Cut.ofTokens language.registry rest with
      | error e =>
        rw [readStage_slices_error token hnil hcut,
          readStage_slices_error token hnil ((comparison.ofTokens_eq rest).trans hcut)]
        exact related_lift_bind _ fun _ _ => related_throw e
      | ok first =>
        rw [readStage_slices_ok token hnil hcut,
          readStage_slices_ok token hnil ((comparison.ofTokens_eq rest).trans hcut)]
        refine related_lift_bind _ fun size _ => (ihstage first hcut n).bind fun stage i stage' hstage => ?_
        refine (related_wrap hstage false).bind fun inner i inner' hinner => ?_
        split
        · exact related_pure (comparison.sliceApply hinner (comparison.primitive .identity i))
        · exact (ihrest first hcut i).bind fun outer k outer' houter =>
            related_pure (comparison.sliceApply hinner houter)
  case slicesArity =>
    intro params guarded rest hguarded hparams n
    obtain rfl : guarded = false := by simpa using hguarded
    rw [readStage_slices_arity hparams, readStage_slices_arity hparams]
    exact related_throw _
  case registeredGuarded =>
    intro name params guard rest callable hget hguard n
    obtain ⟨callable', hget', -⟩ := comparison.call hget
    rw [readStage_registered hget, readStage_registered hget', if_pos hguard, if_pos hguard]
    exact related_throw _
  case registered =>
    intro name params guard rest callable hget hguard n
    obtain ⟨callable', hget', hsame⟩ := comparison.call hget
    rw [readStage_registered hget, readStage_registered hget', if_neg hguard, if_neg hguard]
    exact related_pure (hsame _ n)
  case rerollArity =>
    intro params guard rest hparams hget n
    have hparams : params ≠ [] := by simpa using hparams
    rw [readStage_reroll_arity hget hparams, readStage_reroll_arity (comparison.missing hget) hparams]
    exact related_throw _
  case reroll =>
    intro params rest hparams hget n
    obtain rfl : params = [] := by simpa using hparams
    rw [readStage_reroll hget, readStage_reroll (comparison.missing hget)]
    exact related_pure (comparison.primitive _ n)
  case rerollGuarded =>
    intro params rest hparams tokens otherwise hget ihbranch n
    obtain rfl : params = [] := by simpa using hparams
    have hget' := comparison.missing hget
    cases otherwise with
    | none =>
      rw [readStage_reroll_guarded hget, readStage_reroll_guarded hget']
      exact related_lift_bind _ fun _ _ => related_pure (comparison.primitive _ n)
    | some branch =>
      rw [readStage_reroll_branch hget, readStage_reroll_branch hget']
      exact related_lift_bind _ fun _ _ => (ihbranch n).bind fun _ _ _ _ => related_throw _
  case builtIn =>
    intro name params guard rest hget hname ihguard n
    rw [readStage_builtIn hget hname, readStage_builtIn (comparison.missing hget) hname]
    refine related_lift_bind _ fun op hop => ?_
    split
    · exact related_throw _
    · exact ihguard op n n op (comparison.builtIn hop n)
  case noBranch =>
    intro n
    rw [readBranch_nil, readBranch_nil]
    exact related_throw _
  case branch =>
    intro first rest hstart ih n
    rw [readBranch_cons, readBranch_cons, if_pos hstart, if_pos hstart]
    exact ih n
  case noBranchStart =>
    intro first rest hstart n
    rw [readBranch_cons, readBranch_cons, if_neg hstart, if_neg hstart]
    exact related_throw _
  case noGuard =>
    intro op n k op' hop
    rw [readGuard_none, readGuard_none]
    exact related_pure hop
  case guard =>
    intro op tokens otherwise ih n k op' hop
    cases otherwise with
    | none =>
      rw [readGuard_some, readGuard_some]
      exact related_lift_bind _ fun condition _ =>
        related_pure (comparison.conditional hop (comparison.primitive .identity k))
    | some branch =>
      rw [readGuard_branch, readGuard_branch]
      exact related_lift_bind _ fun condition _ => (ih k).bind fun other j other' hother =>
        related_pure (comparison.conditional hop hother)

end Comparison

end Operation

end DiceTally
