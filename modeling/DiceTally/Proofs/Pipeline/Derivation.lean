import DiceTally.Proofs.Pipeline.Reading

/-!
# How a pipeline is read

`Reads` has one rule for each way in which a part of a pipeline is read as an operation; `reads_iff_run` says that
these are the successful readings.  What holds of all that is read is shown by induction on the rules.
-/

namespace DiceTally

/-- What is read by one of the readers of a pipeline. -/
inductive Part where
  | pipeline (top : Bool) (tokens : List String)
  | stage (cut : Cut)
  /-- a guarded operation with its `if` block -/
  | guarded (op : Operation) (guard : Option Guard)
  /-- the branch after `else` -/
  | branch (tokens : List String)

namespace Part

def reading (language : Language) : Part → Reading Operation
  | pipeline top tokens => Operation.readPipeline language top tokens
  | stage cut => Operation.readStage language cut
  | guarded op guard => Operation.readGuard language op guard
  | branch tokens => Operation.readBranch language tokens

end Part

namespace Operation

/-- A part is read as an operation; the numbers are those of the next cache before and after. -/
inductive Reads (language : Language) : Part → Nat → Operation → Nat → Prop where
  | last {top : Bool} {tokens : List String} {cut : Cut} {current : Operation} {n k : Nat}
    (hcut : Cut.ofTokens language.registry tokens = .ok cut) (hcurrent : Reads language (.stage cut) n current k)
    (hafter : cut.after = []) :
    Reads language (.pipeline top tokens) n (wrapped language.options top current k).1
      (wrapped language.options top current k).2
  | andThen {top : Bool} {tokens : List String} {cut : Cut} {current next : Operation} {n k l : Nat}
    (hcut : Cut.ofTokens language.registry tokens = .ok cut) (hcurrent : Reads language (.stage cut) n current k)
    (hafter : cut.after ≠ []) (hnext : Reads language (.pipeline false cut.after) k next l) :
    Reads language (.pipeline top tokens) n (wrapped language.options top (andThen current next) l).1
      (wrapped language.options top (andThen current next) l).2
  | group {body rest : List String} {guard : Option Guard} {inner op : Operation} {n k l : Nat}
    (hinner : Reads language (.pipeline false body) n inner k) (hop : Reads language (.guarded inner guard) k op l) :
    Reads language (.stage ⟨.group body guard, rest⟩) n op l
  | slicesLast {token : String} {rest : List String} {size : Nat} {first : Cut} {inner : Operation} {n k : Nat}
    (hsize : readBlockSize "slice-apply" token = .ok size) (hrest : rest ≠ [])
    (hfirst : Cut.ofTokens language.registry rest = .ok first) (hinner : Reads language (.stage first) n inner k)
    (hafter : first.after = []) :
    Reads language (.stage ⟨.slices [token] false, rest⟩) n
      (sliceApply size (wrapped language.options false inner k).1 (primitive .identity))
      (wrapped language.options false inner k).2
  | slices {token : String} {rest : List String} {size : Nat} {first : Cut} {inner outer : Operation} {n k l : Nat}
    (hsize : readBlockSize "slice-apply" token = .ok size) (hrest : rest ≠ [])
    (hfirst : Cut.ofTokens language.registry rest = .ok first) (hinner : Reads language (.stage first) n inner k)
    (hafter : first.after ≠ [])
    (houter : Reads language (.pipeline false first.after) (wrapped language.options false inner k).2 outer l) :
    Reads language (.stage ⟨.slices [token] false, rest⟩) n
      (sliceApply size (wrapped language.options false inner k).1 outer) l
  | registered {name : String} {params rest : List String} {callable : Callable} {n : Nat}
    (hget : language.registry.get? name = some callable) :
    Reads language (.stage ⟨.call name params none, rest⟩) n (callable.call name (params.map Param.ofToken)) n
  | reroll {rest : List String} {n : Nat} (hget : language.registry.get? "reroll" = none) :
    Reads language (.stage ⟨.call "reroll" [] none, rest⟩) n (primitive (.reroll .always)) n
  | rerollIf {tokens rest : List String} {condition : Condition} {n : Nat}
    (hget : language.registry.get? "reroll" = none) (hcondition : Condition.parse tokens = .ok condition) :
    Reads language (.stage ⟨.call "reroll" [] (some ⟨tokens, none⟩), rest⟩) n (primitive (.reroll condition)) n
  | builtIn {name : String} {params rest : List String} {guard : Option Guard} {built op : Operation} {n k : Nat}
    (hget : language.registry.get? name = none) (hname : name ≠ "reroll") (hbuilt : ofWords name params = .ok built)
    (hguard : guard.isSome = true → Token.guardable.contains name = true)
    (hop : Reads language (.guarded built guard) n op k) :
    Reads language (.stage ⟨.call name params guard, rest⟩) n op k
  | unguarded {op : Operation} {n : Nat} : Reads language (.guarded op none) n op n
  | guarded {op : Operation} {tokens : List String} {condition : Condition} {n : Nat}
    (hcondition : Condition.parse tokens = .ok condition) :
    Reads language (.guarded op (some ⟨tokens, none⟩)) n (conditional condition op (primitive .identity)) n
  | branched {op other : Operation} {tokens branch : List String} {condition : Condition} {n k : Nat}
    (hcondition : Condition.parse tokens = .ok condition) (hother : Reads language (.branch branch) n other k) :
    Reads language (.guarded op (some ⟨tokens, some branch⟩)) n (conditional condition op other) k
  | branch {first : String} {rest : List String} {op : Operation} {n k : Nat} (hstart : startsBranch first = true)
    (hop : Reads language (.pipeline false (first :: rest)) n op k) :
    Reads language (.branch (first :: rest)) n op k

variable {language : Language}

/-- What is derived is read. -/
theorem Reads.run {part : Part} {n k : Nat} {op : Operation} (h : Reads language part n op k) :
    (part.reading language).run n = .ok (op, k) := by
  induction h with
  | last hcut _ hafter ih =>
    rw [Part.reading, readPipeline_ok hcut]
    refine run_bind_eq_ok_iff.2 ⟨_, _, ih, ?_⟩
    rw [if_pos (by simp [hafter])]
    exact run_wrap ..
  | andThen hcut _ hafter _ ihcurrent ihnext =>
    rw [Part.reading, readPipeline_ok hcut]
    refine run_bind_eq_ok_iff.2 ⟨_, _, ihcurrent, ?_⟩
    rw [if_neg (by simpa using hafter)]
    exact run_bind_eq_ok_iff.2 ⟨_, _, ihnext, run_wrap ..⟩
  | group _ _ ihinner ihop =>
    rw [Part.reading, readStage_group]
    exact run_bind_eq_ok_iff.2 ⟨_, _, ihinner, ihop⟩
  | slicesLast hsize hrest hfirst _ hafter ih =>
    rw [Part.reading, readStage_slices_ok _ hrest hfirst]
    refine run_bind_eq_ok_iff.2 ⟨_, _, run_lift_eq_ok_iff.2 ⟨hsize, rfl⟩, ?_⟩
    refine run_bind_eq_ok_iff.2 ⟨_, _, ih, run_bind_eq_ok_iff.2 ⟨_, _, run_wrap .., ?_⟩⟩
    rw [if_pos (by simp [hafter])]
    rfl
  | slices hsize hrest hfirst _ hafter _ ihinner ihouter =>
    rw [Part.reading, readStage_slices_ok _ hrest hfirst]
    refine run_bind_eq_ok_iff.2 ⟨_, _, run_lift_eq_ok_iff.2 ⟨hsize, rfl⟩, ?_⟩
    refine run_bind_eq_ok_iff.2 ⟨_, _, ihinner, run_bind_eq_ok_iff.2 ⟨_, _, run_wrap .., ?_⟩⟩
    rw [if_neg (by simpa using hafter)]
    exact run_bind_eq_ok_iff.2 ⟨_, _, ihouter, rfl⟩
  | registered hget =>
    rw [Part.reading, readStage_registered hget]
    rfl
  | reroll hget =>
    rw [Part.reading, readStage_reroll hget]
    rfl
  | rerollIf hget hcondition =>
    rw [Part.reading, readStage_reroll_guarded hget]
    exact run_bind_eq_ok_iff.2 ⟨_, _, run_lift_eq_ok_iff.2 ⟨hcondition, rfl⟩, rfl⟩
  | builtIn hget hname hbuilt hguard _ ih =>
    rw [Part.reading, readStage_builtIn hget hname]
    refine run_bind_eq_ok_iff.2 ⟨_, _, run_lift_eq_ok_iff.2 ⟨hbuilt, rfl⟩, ?_⟩
    rw [if_neg (by simpa using hguard)]
    exact ih
  | unguarded =>
    rw [Part.reading, readGuard_none]
    rfl
  | guarded hcondition =>
    rw [Part.reading, readGuard_some]
    exact run_bind_eq_ok_iff.2 ⟨_, _, run_lift_eq_ok_iff.2 ⟨hcondition, rfl⟩, rfl⟩
  | branched hcondition _ ih =>
    rw [Part.reading, readGuard_branch]
    refine run_bind_eq_ok_iff.2 ⟨_, _, run_lift_eq_ok_iff.2 ⟨hcondition, rfl⟩, ?_⟩
    exact run_bind_eq_ok_iff.2 ⟨_, _, ih, rfl⟩
  | branch hstart _ ih =>
    rw [Part.reading, readBranch_cons, if_pos hstart]
    exact ih

/-- What is read is derived. -/
theorem reads_readPipeline {top : Bool} {tokens : List String} {n : Nat} {r : Operation × Nat}
    (h : (readPipeline language top tokens).run n = .ok r) : Reads language (.pipeline top tokens) n r.1 r.2 := by
  -- the four readers call one another, so the statement is proved for all of them together
  refine (readPipeline.mutual_induct language
    (fun top tokens => ∀ n r, (readPipeline language top tokens).run n = .ok r →
      Reads language (.pipeline top tokens) n r.1 r.2)
    (fun cut => ∀ n r, (readStage language cut).run n = .ok r → Reads language (.stage cut) n r.1 r.2)
    (fun tokens => ∀ n r, (readBranch language tokens).run n = .ok r → Reads language (.branch tokens) n r.1 r.2)
    (fun op guard => ∀ n r, (readGuard language op guard).run n = .ok r →
      Reads language (.guarded op guard) n r.1 r.2)
    ?noStage ?level ?group ?slicesGuarded ?slices ?slicesArity ?registeredGuarded ?registered ?rerollArity ?reroll
    ?rerollGuarded ?builtIn ?noBranch ?branch ?noBranchStart ?noGuard ?guard).1 top tokens n r h
  case noStage =>
    intro top tokens e hcut n r hrun
    rw [readPipeline_error hcut] at hrun
    cases hrun
  case level =>
    intro top tokens cut hcut ihstage ihrest n r hrun
    rw [readPipeline_ok hcut] at hrun
    obtain ⟨current, k, hcurrent, hrun⟩ := run_bind_eq_ok_iff.1 hrun
    split at hrun
    · rename_i hafter
      rw [run_wrap] at hrun
      rw [← Except.ok.inj hrun]
      exact .last hcut (ihstage _ _ hcurrent) (List.isEmpty_iff.1 hafter)
    · rename_i hafter
      obtain ⟨next, l, hnext, hrun⟩ := run_bind_eq_ok_iff.1 hrun
      rw [run_wrap] at hrun
      rw [← Except.ok.inj hrun]
      exact .andThen hcut (ihstage _ _ hcurrent) (by simpa using hafter) (ihrest _ _ hnext)
  case group =>
    intro body guard rest ihbody ihguard n r hrun
    rw [readStage_group] at hrun
    obtain ⟨group, k, hgroup, hrun⟩ := run_bind_eq_ok_iff.1 hrun
    exact .group (ihbody _ _ hgroup) (ihguard group _ _ hrun)
  case slicesGuarded =>
    intro params rest n r hrun
    rw [readStage_slices_guarded] at hrun
    cases hrun
  case slices =>
    intro guarded rest hguarded token ihstage ihrest n r hrun
    obtain rfl : guarded = false := by simpa using hguarded
    -- a block size is followed by a stage and by what is applied to the results of the blocks
    by_cases hnil : rest = []
    · subst hnil
      rw [readStage_slices_nil] at hrun
      obtain ⟨_, _, -, hrun⟩ := run_bind_eq_ok_iff.1 hrun
      cases hrun
    · cases hcut : Cut.ofTokens language.registry rest with
      | error e =>
        rw [readStage_slices_error token hnil hcut] at hrun
        obtain ⟨_, _, -, hrun⟩ := run_bind_eq_ok_iff.1 hrun
        cases hrun
      | ok first =>
        rw [readStage_slices_ok token hnil hcut] at hrun
        obtain ⟨size, k, hlift, hsized⟩ := run_bind_eq_ok_iff.1 hrun
        obtain ⟨hsize, rfl⟩ := run_lift_eq_ok_iff.1 hlift
        obtain ⟨inner, l, hinner, hwrap⟩ := run_bind_eq_ok_iff.1 hsized
        have hinner := ihstage first hcut _ _ hinner
        rw [StateT.run_bind, run_wrap] at hwrap
        change StateT.run (if first.after.isEmpty = true then _ else _) (wrapped language.options false inner l).2 = _
          at hwrap
        split at hwrap
        · rename_i hafter
          cases hwrap
          exact .slicesLast hsize hnil hcut hinner (List.isEmpty_iff.1 hafter)
        · rename_i hafter
          obtain ⟨outer, j, houter, hend⟩ := run_bind_eq_ok_iff.1 hwrap
          cases hend
          exact .slices hsize hnil hcut hinner (by simpa using hafter) (ihrest first hcut _ _ houter)
  case slicesArity =>
    intro params guarded rest hguarded hparams n r hrun
    obtain rfl : guarded = false := by simpa using hguarded
    rw [readStage_slices_arity hparams] at hrun
    cases hrun
  case registeredGuarded =>
    intro name params guard rest callable hget hguard n r hrun
    rw [readStage_registered hget, if_pos hguard] at hrun
    cases hrun
  case registered =>
    intro name params guard rest callable hget hguard n r hrun
    obtain rfl : guard = none := by simpa using hguard
    rw [readStage_registered hget] at hrun
    cases hrun
    exact .registered hget
  case rerollArity =>
    intro params guard rest hparams hget n r hrun
    rw [readStage_reroll_arity hget (by simpa using hparams)] at hrun
    cases hrun
  case reroll =>
    intro params rest hparams hget n r hrun
    obtain rfl : params = [] := by simpa using hparams
    rw [readStage_reroll hget] at hrun
    cases hrun
    exact .reroll hget
  case rerollGuarded =>
    intro params rest hparams tokens otherwise hget _ n r hrun
    obtain rfl : params = [] := by simpa using hparams
    cases otherwise with
    | none =>
      rw [readStage_reroll_guarded hget] at hrun
      obtain ⟨condition, k, hlift, hend⟩ := run_bind_eq_ok_iff.1 hrun
      obtain ⟨hcondition, rfl⟩ := run_lift_eq_ok_iff.1 hlift
      cases hend
      exact .rerollIf hget hcondition
    | some branch =>
      rw [readStage_reroll_branch hget] at hrun
      obtain ⟨_, _, -, hrun⟩ := run_bind_eq_ok_iff.1 hrun
      obtain ⟨_, _, -, hrun⟩ := run_bind_eq_ok_iff.1 hrun
      cases hrun
  case builtIn =>
    intro name params guard rest hget hname ihguard n r hrun
    rw [readStage_builtIn hget hname] at hrun
    obtain ⟨built, k, hlift, hread⟩ := run_bind_eq_ok_iff.1 hrun
    obtain ⟨hbuilt, rfl⟩ := run_lift_eq_ok_iff.1 hlift
    split at hread
    · cases hread
    · rename_i hguard
      exact .builtIn hget hname hbuilt (by simpa using hguard) (ihguard built _ _ hread)
  case noBranch =>
    intro n r hrun
    rw [readBranch_nil] at hrun
    cases hrun
  case branch =>
    intro first rest hstart ih n r hrun
    rw [readBranch_cons, if_pos hstart] at hrun
    exact .branch hstart (ih _ _ hrun)
  case noBranchStart =>
    intro first rest hstart n r hrun
    rw [readBranch_cons, if_neg hstart] at hrun
    cases hrun
  case noGuard =>
    intro op n r hrun
    rw [readGuard_none] at hrun
    cases hrun
    exact .unguarded
  case guard =>
    intro op tokens otherwise ih n r hrun
    cases otherwise with
    | none =>
      rw [readGuard_some] at hrun
      obtain ⟨condition, k, hlift, hend⟩ := run_bind_eq_ok_iff.1 hrun
      obtain ⟨hcondition, rfl⟩ := run_lift_eq_ok_iff.1 hlift
      cases hend
      exact .guarded hcondition
    | some branch =>
      rw [readGuard_branch] at hrun
      obtain ⟨condition, k, hlift, hread⟩ := run_bind_eq_ok_iff.1 hrun
      obtain ⟨hcondition, rfl⟩ := run_lift_eq_ok_iff.1 hlift
      obtain ⟨other, l, hother, hend⟩ := run_bind_eq_ok_iff.1 hread
      cases hend
      exact .branched hcondition (ih _ _ hother)

theorem reads_iff_run {top : Bool} {tokens : List String} {n k : Nat} {op : Operation} :
    Reads language (.pipeline top tokens) n op k ↔ (readPipeline language top tokens).run n = .ok (op, k) :=
  ⟨Reads.run, reads_readPipeline⟩

theorem parse_eq_ok_iff {words : List String} {op : Operation} :
    parse language words = .ok op ↔ ∃ k, Reads language (.pipeline true (Token.normalize words)) 0 op k := by
  unfold parse
  rw [StateT.run'_eq]
  constructor
  · intro h
    obtain ⟨⟨op, k⟩, hrun, rfl⟩ := map_eq_ok_iff.1 h
    exact ⟨k, reads_readPipeline hrun⟩
  · rintro ⟨k, h⟩
    exact map_eq_ok_iff.2 ⟨(op, k), h.run, rfl⟩

end Operation

end DiceTally
