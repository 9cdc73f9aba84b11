import DiceTally.CommandLine.Report
import DiceTally.Proofs.Operation.Messages
import DiceTally.Proofs.Tally

/-!
# Flags that tune a run

Three flags say how a run is made and not what it computes: those for the caches, for their capacity and against the
reports of stages.  `Flags.untuned` is the run without them.  Every run tells what that run tells, but for the lines
of a failure that tell stages (`alike_untuned`): its named pipelines are registered under the same names, its pipeline
is read as the same operation up to wrapping, and a tally does not show the caches.  So command lines that differ in
these flags only can not be told apart by their results (`runs_alike`).
-/

namespace DiceTally

/-! ### Flags -/

/-- Whether a flag is about caches or about the reports of stages. -/
def Flag.isTuning : Flag → Bool
  | memorizeInput | memoCapacity | skipChecks => true
  | _ => false

namespace FlagUse

/-- The uses of all other flags. -/
def untuned (all : List FlagUse) : List FlagUse := all.filter fun use => !use.flag.isTuning

variable {flag : Flag} {all : List FlagUse}

theorem valuesOf_untuned (h : flag.isTuning = false) : valuesOf (untuned all) flag = valuesOf all flag := by
  unfold valuesOf untuned
  rw [List.filter_filter]
  congr 1
  refine List.filter_congr fun use _ => ?_
  by_cases hflag : use.flag = flag
  · simp [hflag, h]
  · simp [hflag]

theorem uses_untuned (h : flag.isTuning = false) : uses (untuned all) flag = uses all flag := by
  unfold uses untuned
  rw [List.any_filter]
  congr 1
  funext use
  by_cases hflag : use.flag = flag
  · simp [hflag, h]
  · simp [hflag]

theorem one?_untuned {α : Type} (h : flag.isTuning = false) (read : String → Option α) :
    one? (untuned all) flag read = one? all flag read := by
  rw [one?, one?, valuesOf_untuned h]

theorem many?_untuned {α : Type} (h : flag.isTuning = false) (read : String → Option α) :
    many? (untuned all) flag read = many? all flag read := by
  rw [many?, many?, valuesOf_untuned h]

theorem valuesOf_of_not_uses (h : uses all flag = false) : valuesOf all flag = [] := by
  have hnone : all.filter (fun use => use.flag == flag) = [] :=
    List.filter_eq_nil_iff.2 fun use huse => List.any_eq_false.1 h use huse
  rw [valuesOf, hnone]
  rfl

theorem uses_untuned_of_isTuning (h : flag.isTuning = true) : uses (untuned all) flag = false := by
  refine List.any_eq_false.2 fun use huse hflag => ?_
  have hother := (List.mem_filter.1 huse).2
  rw [eq_of_beq hflag, h] at hother
  cases hother

theorem valuesOf_untuned_of_isTuning (h : flag.isTuning = true) : valuesOf (untuned all) flag = [] :=
  valuesOf_of_not_uses (uses_untuned_of_isTuning h)

end FlagUse

open FlagUse

namespace Flags

/-- The same run without caches, and with reports of stages. -/
def untuned (flags : Flags) : Flags :=
  { flags with memorizeInput := false, memoCapacity := none, skipChecks := false }

theorem ofUses?_untuned {all : List FlagUse} {flags : Flags} (h : ofUses? all = some flags) :
    ofUses? (FlagUse.untuned all) = some flags.untuned := by
  have hpool : PoolRequest.ofUses? (FlagUse.untuned all) = PoolRequest.ofUses? all := by
    simp (disch := decide) only [PoolRequest.ofUses?, one?_untuned, many?_untuned]
  have hchart : ChartChoices.ofUses? (FlagUse.untuned all) = ChartChoices.ofUses? all := by
    simp (disch := decide) only [ChartChoices.ofUses?, one?_untuned, uses_untuned]
  have hcapacity : one? (FlagUse.untuned all) .memoCapacity FlagValue.count? = some none := by
    rw [one?, valuesOf_untuned_of_isTuning rfl]
  simp only [ofUses?, Option.bind_eq_bind, Option.bind_eq_some_iff, Option.pure_def, Option.some.injEq] at h
  obtain ⟨dice, hdice, capacity, -, custom, hcustom, config, hconfig, chart, hchart', samples, hsamples, seed, hseed,
    load, hload, save, hsave, rfl⟩ := h
  simp (disch := decide) only [ofUses?, hpool, hchart, hcapacity, one?_untuned, many?_untuned, uses_untuned,
    valuesOf_untuned, uses_untuned_of_isTuning, hdice, hcustom, hconfig, hchart', hsamples, hseed, hload, hsave]
  rfl

/-- What the flags for random rolls and for showing the arguments set. -/
theorem samples_and_showArgs_of_ofUses? {all : List FlagUse} {flags : Flags} (h : ofUses? all = some flags)
    (hsimulate : uses all .simulate = false) : flags.samples = none ∧ flags.showArgs = uses all .showArgs := by
  simp only [ofUses?, Option.bind_eq_bind, Option.bind_eq_some_iff, Option.pure_def, Option.some.injEq] at h
  obtain ⟨_, -, _, -, _, -, _, -, _, -, samples, hsamples, _, -, _, -, _, -, rfl⟩ := h
  rw [one?, valuesOf_of_not_uses hsimulate] at hsamples
  exact ⟨(Option.some.inj hsamples).symm, rfl⟩

end Flags

/-- A command line asks for the version, else for the help, else for a run with the flags that it sets. -/
theorem Command.cases_of_ofWords? {words : List String} {all : List FlagUse} {command : Command}
    (hall : FlagUse.ofWords? words = some all) (h : Command.ofWords? words = some command) :
    ∃ flags, Flags.ofUses? all = some flags ∧
      (uses all .version = true ∧ command = .version ∨ uses all .version = false ∧
        (uses all .help = true ∧ command = .help ∨ uses all .help = false ∧ command = .tally flags)) := by
  simp only [Command.ofWords?, hall, Option.bind_eq_bind, Option.bind_some, Option.bind_eq_some_iff] at h
  obtain ⟨flags, hflags, h⟩ := h
  refine ⟨flags, hflags, ?_⟩
  cases hversion : uses all .version <;> cases hhelp : uses all .help <;> simp_all

/-! ### Registered pipelines -/

namespace Registry

variable {r r' : Registry}

/-- A name is registered in both registries or refused by both. -/
theorem Counterpart.register (h : r.Counterpart r') (name : String) {callable callable' : Callable}
    (hsame : callable.unwrapped = callable'.unwrapped) :
    (∃ e, r.register name callable = .error e ∧ r'.register name callable' = .error e) ∨
      ∃ q q', r.register name callable = .ok q ∧ r'.register name callable' = .ok q' ∧ q.Counterpart q' := by
  unfold Registry.register
  rw [← h.contains name]
  split
  · exact .inl ⟨_, rfl, rfl⟩
  · split
    · exact .inl ⟨_, rfl, rfl⟩
    · split
      · exact .inl ⟨_, rfl, rfl⟩
      · split
        · exact .inl ⟨_, rfl, rfl⟩
        · refine .inr ⟨_, _, rfl, rfl, fun other => ?_⟩
          rw [get?_cons, get?_cons]
          split
          · exact congrArg some hsame
          · exact h other

end Registry

namespace Definition

variable {registry registry' : Registry}

theorem register_counterpart (h : registry.Counterpart registry') (hbuilt : registry.Built) (hbuilt' : registry'.Built)
    (options options' : ParseOptions) (d : Definition) :
    (∃ e, d.register options registry = .error e ∧ d.register options' registry' = .error e) ∨
      ∃ r r', d.register options registry = .ok r ∧ d.register options' registry' = .ok r' ∧ r.Counterpart r' ∧
        r.Built ∧ r'.Built := by
  unfold Definition.register Definition.parse
  rcases Operation.parse_unwrapped (.refl .empty) options options' [d.pipeline] with
    ⟨e, hop, hop'⟩ | ⟨op, op', hop, hop', hsame⟩
  · rw [hop, hop']
    exact .inl ⟨_, rfl, rfl⟩
  · rw [hop, hop']
    have hcallable : (Callable.defined op).unwrapped = (Callable.defined op').unwrapped := congrArg Callable.defined hsame
    simp only [bind, Except.bind, Except.mapError]
    rcases h.register d.name hcallable with ⟨e, hr, hr'⟩ | ⟨r, r', hr, hr', hcounterpart⟩
    · rw [hr, hr']
      exact .inl ⟨_, rfl, rfl⟩
    · rw [hr, hr']
      exact .inr ⟨r, r', rfl, rfl, hcounterpart, .defined hbuilt hop hr, .defined hbuilt' hop' hr'⟩

/-- Definitions are registered under the same names whatever the options, or refused for the same reason. -/
theorem registerAll_counterpart (h : registry.Counterpart registry') (hbuilt : registry.Built)
    (hbuilt' : registry'.Built) (options options' : ParseOptions) (definitions : List Definition) :
    (∃ e, registerAll options registry definitions = .error e ∧ registerAll options' registry' definitions = .error e) ∨
      ∃ r r', registerAll options registry definitions = .ok r ∧ registerAll options' registry' definitions = .ok r' ∧
        r.Counterpart r' ∧ r.Built ∧ r'.Built := by
  unfold registerAll
  induction definitions generalizing registry registry' with
  | nil => exact .inr ⟨_, _, rfl, rfl, h, hbuilt, hbuilt'⟩
  | cons d definitions ih =>
    rw [List.foldlM_cons, List.foldlM_cons]
    rcases register_counterpart h hbuilt hbuilt' options options' d with
      ⟨e, herror, herror'⟩ | ⟨r, r', hr, hr', hcounterpart, hr_built, hr_built'⟩
    · rw [herror, herror']
      exact .inl ⟨e, rfl, rfl⟩
    · rw [hr, hr']
      exact ih hcounterpart hr_built hr_built'

end Definition

/-! ### Runs -/

namespace Operation

/-- Operations that are the same up to wrapping have the same tally. -/
theorem told_tally {registry registry' : Registry} (hregistry : registry.Built) (hregistry' : registry'.Built)
    {options options' : ParseOptions} {words words' : List String} {op op' : Operation}
    (hop : parse ⟨registry, options⟩ words = .ok op) (hop' : parse ⟨registry', options'⟩ words' = .ok op')
    (hsame : op.unwrapped = op'.unwrapped) (outcomes : Outcomes) (capacity capacity' : Option Nat) :
    told (tally op outcomes (.new op capacity)).1 = told (tally op' outcomes (.new op' capacity')).1 := by
  have hweigh (outcome : Outcome) : told (op.weigh outcome) = told (op'.weigh outcome) := by
    rw [weigh, weigh, told_map, told_map, told_eval_of_parse hregistry hop, told_eval_of_parse hregistry' hop', hsame]
  rw [tally_eq hregistry hop outcomes (Store.sound_new registry op capacity),
    tally_eq hregistry' hop' outcomes (Store.sound_new registry' op' capacity'), told_map, told_map, told_mapM,
    told_mapM, funext hweigh]

end Operation

namespace Flags

variable {flags : Flags} {files : Files}

/-- A run and the same run untuned are refused for the same reason, or tally the same. -/
theorem plan_untuned (flags : Flags) (files : Files) :
    (∃ e, flags.plan files = .error e ∧ flags.untuned.plan files = .error e) ∨
      ∃ plan plan', flags.plan files = .ok plan ∧ flags.untuned.plan files = .ok plan' ∧ plan.chart = plan'.chart ∧
        ∀ outcomes capacity capacity', told (tally plan.operation outcomes (.new plan.operation capacity)).1 =
          told (tally plan'.operation outcomes (.new plan'.operation capacity')).1 := by
  have hsettings' : flags.untuned.settings files = flags.settings files := rfl
  unfold plan
  rw [hsettings']
  cases flags.settings files with
  | error e => exact .inl ⟨e, rfl, rfl⟩
  | ok settings =>
    have hmore' : flags.untuned.definitionFiles = flags.definitionFiles := rfl
    simp only [hmore']
    cases flags.definitionFiles.mapM (definitionsIn files) with
    | error e => exact .inl ⟨e, rfl, rfl⟩
    | ok more =>
      rcases Definition.registerAll_counterpart (.refl .empty) .empty .empty flags.parseOptions
          flags.untuned.parseOptions (settings.definitions ++ more.flatten) with
        ⟨e, herror, herror'⟩ | ⟨r, r', hr, hr', hcounterpart, hbuilt, hbuilt'⟩
      · simp only [bind, Except.bind, herror, herror']
        exact .inl ⟨_, rfl, rfl⟩
      · have hpipeline' : flags.untuned.pipeline = flags.pipeline := rfl
        simp only [bind, Except.bind, hr, hr', Except.mapError, hpipeline']
        rcases Operation.parse_unwrapped hcounterpart flags.parseOptions flags.untuned.parseOptions flags.pipeline with
          ⟨e, hop, hop'⟩ | ⟨op, op', hop, hop', hsame⟩
        · rw [hop, hop']
          exact .inl ⟨_, rfl, rfl⟩
        · rw [hop, hop']
          exact .inr ⟨_, _, rfl, rfl, rfl, Operation.told_tally hbuilt hbuilt' hop hop' hsame⟩

/-- Without random rolls the outcomes do not depend on random words. -/
theorem outcomes_untuned (hsamples : flags.samples = none) (random random' : List UInt32) :
    flags.untuned.outcomes files random' = flags.outcomes files random := by
  have hsamples' : flags.untuned.samples = none := hsamples
  unfold outcomes
  simp only [hsamples, hsamples']
  rfl

end Flags

/-- Reports with the same exit code, texts and files, and with messages that differ at most by the lines that tell
stages. -/
structure Report.Alike (r r' : Report) : Prop where
  exitCode : r.exitCode = r'.exitCode
  shown : r.shown = r'.shown
  written : r.written = r'.written
  message : (r.error.map fun e => plainLines e.message) = r'.error.map fun e => plainLines e.message

namespace Report

variable {r r' r'' : Report}

theorem Alike.refl (r : Report) : r.Alike r := ⟨rfl, rfl, rfl, rfl⟩

theorem Alike.symm (h : r.Alike r') : r'.Alike r :=
  ⟨h.exitCode.symm, h.shown.symm, h.written.symm, h.message.symm⟩

theorem Alike.trans (h : r.Alike r') (h' : r'.Alike r'') : r.Alike r'' :=
  ⟨h.exitCode.trans h'.exitCode, h.shown.trans h'.shown, h.written.trans h'.written, h.message.trans h'.message⟩

/-- A run that tallies rolls or stored distributions and does not show its arguments tells what it tells untuned. -/
theorem alike_untuned (files : Files) (random random' : List UInt32) {flags : Flags}
    (hsamples : flags.samples = none) (hshow : flags.showArgs = false) :
    (ofRun files random flags).Alike (ofRun files random' flags.untuned) := by
  have hshow' : flags.untuned.showArgs = false := hshow
  have hquiet : flags.untuned.noOutput = flags.noOutput := rfl
  have hstored (d : Distribution) : flags.untuned.stored files d = flags.stored files d := rfl
  unfold ofRun
  rcases flags.plan_untuned files with ⟨e, hplan, hplan'⟩ | ⟨plan, plan', hplan, hplan', hchart, htally⟩
  · rw [hplan, hplan']
    exact .refl _
  · simp only [hplan, hplan', hshow, hshow', hquiet, hstored, hchart, Flags.distribution,
      Flags.outcomes_untuned hsamples random random']
    cases flags.outcomes files random with
    | error e => exact .refl _
    | ok outcomes =>
      simp only [bind, Except.bind]
      rcases cases_of_mapError_eq_mapError (htally outcomes flags.memoCapacity flags.untuned.memoCapacity) with
        ⟨d, hd, hd'⟩ | ⟨e, e', he, he', hgist⟩
      · rw [hd, hd']
        exact .refl _
      -- only here the failures may differ, by the stages that they tell
      · have hplain : plainLines e.message = plainLines e'.message := by
          rw [plainLines_eq_filter_gist, plainLines_eq_filter_gist, hgist]
        rw [he, he']
        exact ⟨rfl, rfl, rfl, congrArg some hplain⟩

end Report

end DiceTally
