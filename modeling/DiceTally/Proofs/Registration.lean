import DiceTally.Definition
import DiceTally.Proofs.Except
import DiceTally.Proofs.Registry
import Mathlib

/-!
# Registering names

A call is accepted if its name is acceptable and no call before it has taken the name (`Registry.accepts_iff`).  So a
registry holds, for each acceptable name, what the first call with this name gives (`Registry.get?_registerEach_iff`).
Definitions are registered if all of them can be read and their names are acceptable and differ
(`Definition.exists_registerAll_iff`), whatever their order.
-/

namespace DiceTally

/-- What a name must be to be registered. -/
structure Acceptable (name : String) : Prop where
  ne_empty : name ≠ ""
  not_reserved : Token.isReserved name = false
  not_integer : Value.ofText? name = none
  not_decimal : Decimal.ofText? name = none
  one_word : ∀ c ∈ name.toList, isBlank c = false ∧ Token.isBracketChar c = false

theorem splitsApart_eq_false_iff {name : String} :
    splitsApart name = false ↔ ∀ c ∈ name.toList, isBlank c = false ∧ Token.isBracketChar c = false := by
  simp [splitsApart, List.any_eq_false]

theorem isNumeric_eq_false_iff {t : String} :
    isNumeric t = false ↔ Value.ofText? t = none ∧ Decimal.ofText? t = none := by
  simp [isNumeric]

namespace Registry

variable {r r' : Registry} {name : String} {callable : Callable} {calls : List (String × Callable)}

/-! ### One call -/

theorem contains_eq_false_iff : r.contains name = false ↔ r.get? name = none := by
  simp [contains]

/-- A registry takes a name that is acceptable and free. -/
theorem register_eq_ok_iff_acceptable :
    r.register name callable = .ok r' ↔
      Acceptable name ∧ r.get? name = none ∧ r' = ⟨(name, callable) :: r.entries⟩ := by
  rw [register_eq_ok_iff, splitsApart_eq_false_iff, isNumeric_eq_false_iff, contains_eq_false_iff]
  constructor
  · rintro ⟨hne, hreserved, hword, ⟨hinteger, hdecimal⟩, hfree, hr⟩
    exact ⟨⟨hne, hreserved, hinteger, hdecimal, hword⟩, hfree, hr⟩
  · rintro ⟨⟨hne, hreserved, hinteger, hdecimal, hword⟩, hfree, hr⟩
    exact ⟨hne, hreserved, hword, ⟨hinteger, hdecimal⟩, hfree, hr⟩

theorem exists_register_iff :
    (∃ r', r.register name callable = .ok r') ↔ Acceptable name ∧ r.get? name = none := by
  constructor
  · rintro ⟨r', h⟩
    obtain ⟨hname, hfree, -⟩ := register_eq_ok_iff_acceptable.1 h
    exact ⟨hname, hfree⟩
  · rintro ⟨hname, hfree⟩
    exact ⟨_, register_eq_ok_iff_acceptable.2 ⟨hname, hfree, rfl⟩⟩

/-! ### Sequences of calls -/

theorem registerEach_append (r : Registry) (before after : List (String × Callable)) :
    r.registerEach (before ++ after) = (r.registerEach before).registerEach after := by
  induction before generalizing r with
  | nil => rfl
  | cons call before ih =>
    rw [List.cons_append, registerEach, registerEach]
    split
    · exact ih _
    · exact ih _

/-- A name stands for what it stood for at first, or else for what the first call with this name gives. -/
theorem get?_registerEach_iff :
    (r.registerEach calls).get? name = some callable ↔
      r.get? name = some callable ∨
        r.get? name = none ∧ Acceptable name ∧ calls.lookup name = some callable := by
  induction calls generalizing r with
  | nil => simp [registerEach]
  | cons call calls ih =>
    obtain ⟨first, given⟩ := call
    rw [registerEach, lookup_cons_eq_ite]
    split
    · rename_i r' hregister
      obtain ⟨hname, hfree, rfl⟩ := register_eq_ok_iff_acceptable.1 hregister
      rw [ih, get?_cons]
      by_cases h : name = first
      · simp [h, hname, hfree]
      · simp [h]
    · rename_i e hregister
      rw [ih]
      by_cases h : name = first
      · have hrefused : ¬∃ r', r.register first given = .ok r' := by simp [hregister]
        rw [exists_register_iff, ← h] at hrefused
        have hnot (x : Prop) : ¬(r.get? name = none ∧ Acceptable name ∧ x) :=
          fun hx => hrefused ⟨hx.2.1, hx.1⟩
        simp [hnot]
      · simp [h]

/-- After the calls in front of it, a call with this name is accepted. -/
def Accepts (before : List (String × Callable)) (call : String × Callable) : Prop :=
  ∃ r, (empty.registerEach before).register call.1 call.2 = .ok r

theorem accepts_iff {call : String × Callable} :
    Accepts calls call ↔ Acceptable call.1 ∧ calls.lookup call.1 = none := by
  rw [Accepts, exists_register_iff]
  refine and_congr_right fun hname => ?_
  simp only [Option.eq_none_iff_forall_ne_some, ne_eq, get?_registerEach_iff, get?_empty, hname]
  simp

/-- A name stands for what the one accepted call with this name gives. -/
theorem get?_iff_accepts :
    (empty.registerEach calls).get? name = some callable ↔
      ∃ before after, calls = before ++ (name, callable) :: after ∧ Accepts before (name, callable) := by
  simp only [get?_registerEach_iff, get?_empty, accepts_iff, List.lookup_eq_some_iff, List.lookup_eq_none_iff]
  simp only [reduceCtorEq, false_or, true_and]
  constructor
  · rintro ⟨hname, before, after, hcalls, hbefore⟩
    exact ⟨before, after, hcalls, hname, hbefore⟩
  · rintro ⟨before, after, hcalls, hname, hbefore⟩
    exact ⟨hname, before, after, hcalls, hbefore⟩

/-- No two calls with one name are accepted. -/
theorem eq_of_accepts {before after before' after' : List (String × Callable)} {call call' : String × Callable}
    (h : before ++ call :: after = before' ++ call' :: after') (hname : call.1 = call'.1)
    (haccepts : Accepts before call) (haccepts' : Accepts before' call') :
    before = before' ∧ call = call' ∧ after = after' := by
  have hfirst := List.lookup_eq_none_iff.1 (accepts_iff.1 haccepts).2
  have hfirst' := List.lookup_eq_none_iff.1 (accepts_iff.1 haccepts').2
  -- the call that comes later would find the name taken
  have hlater {as bs cs : List (String × Callable)} {c d : String × Callable} (hcons : c :: bs = as ++ d :: cs)
      (htaken : ∀ p ∈ as, (d.1 != p.1) = true) (hsame : c.1 = d.1) : as = [] := by
    cases as with
    | nil => rfl
    | cons a as =>
      obtain ⟨rfl, -⟩ := List.cons.inj hcons
      have := htaken c List.mem_cons_self
      simp [hsame] at this
  rcases List.append_eq_append_iff.1 h with ⟨as, rfl, hrest⟩ | ⟨as, rfl, hrest⟩
  · obtain rfl := hlater hrest (fun p hp => hfirst' p (List.mem_append_right _ hp)) hname
    simpa using hrest
  · obtain rfl := hlater hrest (fun p hp => hfirst p (List.mem_append_right _ hp)) hname.symm
    simpa [eq_comm] using hrest

/-- A refused call leaves no trace. -/
theorem registerEach_of_refused {before : List (String × Callable)} {call : String × Callable} {e : RegistryError}
    (h : (empty.registerEach before).register call.1 call.2 = .error e) (after : List (String × Callable)) :
    empty.registerEach (before ++ call :: after) = empty.registerEach (before ++ after) := by
  rw [registerEach_append, registerEach_append, registerEach, h]

/-! ### The names of a registry -/

theorem mem_names_iff : name ∈ r.names ↔ ∃ callable, r.get? name = some callable := by
  rw [names, List.mem_mergeSort, List.mem_map, ← Option.isSome_iff_exists, get?, List.lookup_isSome_iff]
  refine exists_congr fun entry => and_congr_right fun _ => ?_
  rw [beq_iff_eq, eq_comm]

theorem nodup_names_iff : r.names.Nodup ↔ (r.entries.map Prod.fst).Nodup :=
  (List.mergeSort_perm _ _).nodup_iff

theorem nodup_register (hr : r.names.Nodup) (h : r.register name callable = .ok r') : r'.names.Nodup := by
  obtain ⟨-, hfree, rfl⟩ := register_eq_ok_iff_acceptable.1 h
  rw [nodup_names_iff] at hr ⊢
  refine List.nodup_cons.2 ⟨fun hmem => ?_, hr⟩
  have hname : name ∈ r.names := List.mem_mergeSort.2 hmem
  obtain ⟨callable, hget⟩ := mem_names_iff.1 hname
  rw [hfree] at hget
  cases hget

theorem nodup_registerEach (hr : r.names.Nodup) (calls : List (String × Callable)) :
    (r.registerEach calls).names.Nodup := by
  induction calls generalizing r with
  | nil => exact hr
  | cons call calls ih =>
    unfold registerEach
    split
    · exact ih (nodup_register hr ‹_›)
    · exact ih hr

theorem acceptable_of_mem_names (h : name ∈ (empty.registerEach calls).names) : Acceptable name := by
  obtain ⟨callable, hget⟩ := mem_names_iff.1 h
  rcases get?_registerEach_iff.1 hget with hempty | ⟨-, hname, -⟩
  · cases hempty
  · exact hname

end Registry

/-! ### Definitions -/

namespace Definition

variable {options : ParseOptions} {definitions : List Definition} {r r' : Registry}

/-- The definition stands for this operation. -/
def Defines (options : ParseOptions) (d : Definition) (op : Operation) : Prop :=
  Operation.parse ⟨.empty, options⟩ [d.pipeline] = .ok op

theorem register_eq_ok_iff {d : Definition} :
    d.register options r = .ok r' ↔ ∃ op, d.Defines options op ∧ Acceptable d.name ∧ r.get? d.name = none ∧
      r' = ⟨(d.name, .defined op) :: r.entries⟩ := by
  rw [register, bind_eq_ok_iff]
  refine exists_congr fun op => ?_
  rw [parse, mapError_eq_ok_iff, mapError_eq_ok_iff, Registry.register_eq_ok_iff_acceptable, Defines]

theorem registerAll_cons_eq_ok_iff {d : Definition} :
    registerAll options r (d :: definitions) = .ok r' ↔
      ∃ op, d.Defines options op ∧ Acceptable d.name ∧ r.get? d.name = none ∧
        registerAll options ⟨(d.name, .defined op) :: r.entries⟩ definitions = .ok r' := by
  rw [registerAll, List.foldlM_cons, bind_eq_ok_iff]
  constructor
  · rintro ⟨next, hd, h⟩
    obtain ⟨op, hop, hname, hfree, rfl⟩ := register_eq_ok_iff.1 hd
    exact ⟨op, hop, hname, hfree, h⟩
  · rintro ⟨op, hop, hname, hfree, h⟩
    exact ⟨_, register_eq_ok_iff.2 ⟨op, hop, hname, hfree, rfl⟩, h⟩

/-- Definitions are registered if all of them can be read and have names that are acceptable, free and different. -/
theorem exists_registerAll_iff :
    (∃ r', registerAll options r definitions = .ok r') ↔
      (∀ d ∈ definitions, (∃ op, d.Defines options op) ∧ Acceptable d.name ∧ r.get? d.name = none) ∧
        (definitions.map Definition.name).Nodup := by
  induction definitions generalizing r with
  | nil => simp [registerAll, pure, Except.pure]
  | cons d definitions ih =>
    have hfree (op : Operation) (other : Definition) :
        Registry.get? ⟨(d.name, .defined op) :: r.entries⟩ other.name = none ↔
          other.name ≠ d.name ∧ r.get? other.name = none := by
      rw [Registry.get?_cons]
      split <;> simp [*]
    simp only [registerAll_cons_eq_ok_iff, exists_comm (α := Registry), exists_and_left, ih, hfree]
    rw [List.forall_mem_cons, List.map_cons, List.nodup_cons, List.mem_map]
    constructor
    · rintro ⟨op, hop, hname, hd, hall, hnodup⟩
      refine ⟨⟨⟨⟨op, hop⟩, hname, hd⟩, fun other h => ?_⟩, ?_, hnodup⟩
      · obtain ⟨hother, hacceptable, -, hget⟩ := hall other h
        exact ⟨hother, hacceptable, hget⟩
      · rintro ⟨other, h, heq⟩
        exact (hall other h).2.2.1 heq
    · rintro ⟨⟨⟨⟨op, hop⟩, hname, hd⟩, hall⟩, hnew, hnodup⟩
      refine ⟨op, hop, hname, hd, fun other h => ?_, hnodup⟩
      obtain ⟨hother, hacceptable, hget⟩ := hall other h
      exact ⟨hother, hacceptable, fun heq => hnew ⟨other, h, heq⟩, hget⟩

/-- Each name stands for what it stood for at first, or for its definition. -/
theorem get?_of_registerAll (h : registerAll options r definitions = .ok r') {name : String} {callable : Callable} :
    r'.get? name = some callable ↔ r.get? name = some callable ∨
      ∃ d ∈ definitions, d.name = name ∧ ∃ op, d.Defines options op ∧ callable = .defined op := by
  induction definitions generalizing r with
  | nil =>
    cases h
    simp
  | cons d definitions ih =>
    obtain ⟨op, hop, -, hfree, hrest⟩ := registerAll_cons_eq_ok_iff.1 h
    have hunique (op' : Operation) : d.Defines options op' ↔ op' = op := by
      rw [Defines, hop, Except.ok.injEq, eq_comm]
    rw [ih hrest, Registry.get?_cons]
    simp only [List.exists_mem_cons_iff, hunique, exists_eq_left]
    by_cases hname : name = d.name
    · simp [hname, hfree, eq_comm]
    · simp [hname, Ne.symm hname]

/-- The order of the definitions matters neither for success nor for what the names stand for. -/
theorem registerAll_perm {others : List Definition} (h : definitions.Perm others) :
    ((∃ r, registerAll options .empty definitions = .ok r) ↔ ∃ r, registerAll options .empty others = .ok r) ∧
      ∀ r r', registerAll options .empty definitions = .ok r → registerAll options .empty others = .ok r' →
        ∀ name, r.get? name = r'.get? name := by
  constructor
  · rw [exists_registerAll_iff, exists_registerAll_iff, (h.map Definition.name).nodup_iff]
    simp only [h.mem_iff]
  · intro r r' hr hr' name
    refine Option.ext fun callable => ?_
    rw [get?_of_registerAll hr, get?_of_registerAll hr']
    simp only [h.mem_iff]

end Definition

/-! ### Registration as a whole -/

/-- A registry holds what the accepted ones among some calls have given, one callable for each name. -/
structure Registry.Records (calls : List (String × Callable)) (r : Registry) : Prop where
  acceptable : ∀ name ∈ r.names, Acceptable name
  distinct : r.names.Nodup
  get?_iff : ∀ name callable, r.get? name = some callable ↔
    ∃ before after, calls = before ++ (name, callable) :: after ∧ Accepts before (name, callable)
  once : ∀ before call after before' call' after', calls = before ++ call :: after →
    calls = before' ++ call' :: after' → call.1 = call'.1 → Accepts before call → Accepts before' call' →
      before = before' ∧ call = call' ∧ after = after'

/-- What registering does.  After any calls the registry records the accepted ones, and without a refused call it is the
same.  Definitions are registered exactly if all of them can be read with the built-in operations and their names are
acceptable and differ; their order does not matter, and then each name stands for its own pipeline. -/
theorem registration_laws (calls : List (String × Callable)) (options : ParseOptions) (definitions : List Definition) :
    (Registry.empty.registerEach calls).Records calls ∧
      (∀ before call after e, calls = before ++ call :: after →
        (Registry.empty.registerEach before).register call.1 call.2 = .error e →
          Registry.empty.registerEach calls = Registry.empty.registerEach (before ++ after)) ∧
      ((∃ r, Definition.registerAll options .empty definitions = .ok r) ↔
        (∀ d ∈ definitions, (∃ op, d.Defines options op) ∧ Acceptable d.name) ∧
          (definitions.map Definition.name).Nodup) ∧
      (∀ others, definitions.Perm others →
        ((∃ r, Definition.registerAll options .empty definitions = .ok r) ↔
          ∃ r, Definition.registerAll options .empty others = .ok r) ∧
        ∀ r r', Definition.registerAll options .empty definitions = .ok r →
          Definition.registerAll options .empty others = .ok r' → ∀ name, r.get? name = r'.get? name) ∧
      ∀ r, Definition.registerAll options .empty definitions = .ok r →
        ∀ d ∈ definitions, ∃ op, d.Defines options op ∧ r.get? d.name = some (.defined op) := by
  refine ⟨?records, ?refused, ?definitions, fun others => Definition.registerAll_perm, ?resolves⟩
  case records =>
    have hempty : Registry.empty.names.Nodup := Registry.nodup_names_iff.2 List.nodup_nil
    refine ⟨fun name => Registry.acceptable_of_mem_names, Registry.nodup_registerEach hempty calls,
      fun name callable => Registry.get?_iff_accepts, ?_⟩
    intro before call after before' call' after' hcalls hcalls' hname haccepts haccepts'
    exact Registry.eq_of_accepts (hcalls ▸ hcalls') hname haccepts haccepts'
  case refused =>
    rintro before call after e rfl h
    exact Registry.registerEach_of_refused h after
  case definitions =>
    rw [Definition.exists_registerAll_iff]
    simp only [Registry.get?_empty, and_true]
  case resolves =>
    intro r h d hd
    obtain ⟨⟨op, hop⟩, -⟩ := (Definition.exists_registerAll_iff.1 ⟨r, h⟩).1 d hd
    exact ⟨op, hop, (Definition.get?_of_registerAll h).2 (.inr ⟨d, hd, rfl, op, hop, rfl⟩)⟩

/-- A name that is taken twice, a word of the language and a number. -/
def turnCalls : List (String × Callable) :=
  [("turn", .native fun dice _ => .ok dice.reverse), ("sum", .native fun dice _ => .ok dice),
    ("turn", .native fun _ _ => .ok []), ("2e3", .native fun dice _ => .ok dice)]

def lowAndHigh : List Definition :=
  [⟨"low", "ops.toml", "sort select 0", none⟩, ⟨"high", "ops.toml", "max", none⟩]

theorem registration_laws_turn :
    "turn" ∈ (Registry.empty.registerEach turnCalls).names ∧ Acceptable "turn" ∧
      (Registry.empty.registerEach turnCalls).get? "turn" = some (.native fun dice _ => .ok dice.reverse) ∧
      Registry.empty.registerEach turnCalls =
        Registry.empty.registerEach (turnCalls.take 2 ++ turnCalls.drop 3) ∧
      ∃ r r', Definition.registerAll ⟨true, true⟩ .empty lowAndHigh = .ok r ∧
        Definition.registerAll ⟨true, true⟩ .empty lowAndHigh.reverse = .ok r' ∧ (∀ name, r.get? name = r'.get? name) ∧
        ∃ op, Definition.Defines ⟨true, true⟩ ⟨"low", "ops.toml", "sort select 0", none⟩ op ∧
          r.get? "low" = some (.defined op) := by
  obtain ⟨hrecords, hrefused, hdefinitions, horder, hresolves⟩ := registration_laws turnCalls ⟨true, true⟩ lowAndHigh
  have hturn : "turn" ∈ (Registry.empty.registerEach turnCalls).names :=
    Registry.mem_names_iff.2 ⟨_, rfl⟩
  have hread : ∀ d ∈ lowAndHigh, (∃ op, d.Defines ⟨true, true⟩ op) ∧ Acceptable d.name := by
    intro d hd
    simp only [lowAndHigh, List.mem_cons, List.not_mem_nil, or_false] at hd
    rcases hd with rfl | rfl
    · exact ⟨exists_eq_ok_of_isOk (by cbv), by decide, by decide, by decide, by decide,
        splitsApart_eq_false_iff.1 (by decide)⟩
    · exact ⟨exists_eq_ok_of_isOk (by cbv), by decide, by decide, by decide, by decide,
        splitsApart_eq_false_iff.1 (by decide)⟩
  have hall := hdefinitions.2 ⟨hread, by decide⟩
  obtain ⟨hboth, hsame⟩ := horder _ (List.reverse_perm _).symm
  obtain ⟨r, hr⟩ := hall
  obtain ⟨r', hr'⟩ := hboth.1 ⟨r, hr⟩
  exact ⟨hturn, hrecords.acceptable _ hturn, rfl, hrefused _ _ _ _ rfl rfl, r, r', hr, hr', hsame r r' hr hr',
    hresolves r hr _ List.mem_cons_self⟩

end DiceTally
