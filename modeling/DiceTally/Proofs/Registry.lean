import DiceTally.Pipeline.Parser

/-!
# Registries that can be built

A registry grows by registering names one after the other, from an empty one.  What is registered has a name that
stays one token and is no word of the language and no number (`NamesFree`), and a named pipeline has been read with
the built-in operations only (`Built.entry`).
-/

namespace DiceTally

/-- A number or a word of the language. -/
def IsPlainWord (t : String) : Prop := isNumeric t = true ∨ Token.isReserved t = true

theorem lookup_cons_eq_ite {β : Type} (key other : String) (value : β) (entries : List (String × β)) :
    ((key, value) :: entries).lookup other = if other = key then some value else entries.lookup other := by
  rw [List.lookup_cons]
  by_cases h : other = key
  · rw [beq_iff_eq.2 h, if_pos h]
  · rw [beq_eq_false_iff_ne.2 h, if_neg h]

namespace Registry

/-- The registries that registering functions of the host and named pipelines leads to. -/
inductive Built : Registry → Prop where
  | empty : Built empty
  | native {r r' : Registry} {name : String} {function : NativeFunction} (hr : Built r)
    (h : r.register name (.native function) = .ok r') : Built r'
  | defined {r r' : Registry} {name : String} {pipeline : Operation} {options : ParseOptions} {words : List String}
    (hr : Built r) (hparse : Operation.parse ⟨.empty, options⟩ words = .ok pipeline)
    (h : r.register name (.defined pipeline) = .ok r') : Built r'

/-- What holds of every name and of what it stands for. -/
structure Entry (name : String) (callable : Callable) : Prop where
  name_ne : name ≠ ""
  not_reserved : Token.isReserved name = false
  not_splitsApart : splitsApart name = false
  not_numeric : isNumeric name = false
  parsed : ∀ pipeline, callable = .defined pipeline →
    ∃ options words, Operation.parse ⟨.empty, options⟩ words = .ok pipeline

theorem get?_empty (name : String) : empty.get? name = none := rfl

theorem get?_cons (r : Registry) (name other : String) (callable : Callable) :
    get? ⟨(name, callable) :: r.entries⟩ other = if other = name then some callable else r.get? other :=
  lookup_cons_eq_ite name other callable r.entries

theorem register_eq_ok_iff {r r' : Registry} {name : String} {callable : Callable} :
    r.register name callable = .ok r' ↔ name ≠ "" ∧ Token.isReserved name = false ∧ splitsApart name = false ∧
      isNumeric name = false ∧ r.contains name = false ∧ r' = ⟨(name, callable) :: r.entries⟩ := by
  unfold register
  by_cases h₁ : name = ""
  · simp [h₁]
  · rw [if_neg (by simpa using h₁)]
    cases h₂ : Token.isReserved name with
    | true => simp
    | false =>
      cases h₃ : splitsApart name with
      | true => simp
      | false =>
        cases h₄ : isNumeric name with
        | true => simp
        | false =>
          cases h₅ : r.contains name with
          | true => simp
          | false => simp [h₁, eq_comm]

/-- One more registration keeps what holds of every name. -/
theorem entry_of_register {r r' : Registry} {name : String} {callable : Callable}
    (h : r.register name callable = .ok r') (hr : ∀ n c, r.get? n = some c → Entry n c)
    (hparsed : ∀ pipeline, callable = .defined pipeline →
      ∃ options words, Operation.parse ⟨.empty, options⟩ words = .ok pipeline) :
    ∀ n c, r'.get? n = some c → Entry n c := by
  obtain ⟨hne, hreserved, hsplits, hnumeric, -, rfl⟩ := register_eq_ok_iff.1 h
  intro n c hget
  rw [get?_cons] at hget
  split at hget
  · rename_i hname
    cases hget
    rw [hname]
    exact ⟨hne, hreserved, hsplits, hnumeric, hparsed⟩
  · exact hr n c hget

theorem Built.entry {r : Registry} (hr : Built r) {name : String} {callable : Callable}
    (h : r.get? name = some callable) : Entry name callable := by
  induction hr generalizing name callable with
  | empty => cases h
  | native _ hregister ih => exact entry_of_register hregister (fun _ _ => ih) (by simp) name callable h
  | defined _ hparse hregister ih =>
    refine entry_of_register hregister (fun _ _ => ih) ?_ name callable h
    intro pipeline hpipeline
    cases hpipeline
    exact ⟨_, _, hparse⟩

/-- Every named pipeline has been read with the built-in operations only. -/
def Parsed (r : Registry) : Prop :=
  ∀ name pipeline, r.get? name = some (.defined pipeline) →
    ∃ options words, Operation.parse ⟨.empty, options⟩ words = .ok pipeline

theorem Built.parsed {r : Registry} (hr : Built r) : r.Parsed := fun _ pipeline h => (hr.entry h).parsed pipeline rfl

/-! ### Names that stay free -/

/-- The registry after a sequence of calls; a call that is refused changes nothing. -/
def registerEach (r : Registry) : List (String × Callable) → Registry
  | [] => r
  | (name, callable) :: calls =>
    match r.register name callable with
    | .ok r' => r'.registerEach calls
    | .error _ => r.registerEach calls

/-- No number and no word of the language is registered. -/
def NamesFree (r : Registry) : Prop := ∀ t, IsPlainWord t → r.get? t = none

theorem namesFree_empty : empty.NamesFree := fun t _ => get?_empty t

theorem NamesFree.register {r r' : Registry} (hr : r.NamesFree) {name : String} {callable : Callable}
    (h : r.register name callable = .ok r') : r'.NamesFree := by
  obtain ⟨-, hreserved, -, hnumeric, -, rfl⟩ := register_eq_ok_iff.1 h
  intro t ht
  rw [get?_cons]
  split
  · rename_i heq
    subst heq
    simp [IsPlainWord, hreserved, hnumeric] at ht
  · exact hr t ht

theorem NamesFree.registerEach {r : Registry} (hr : r.NamesFree) (calls : List (String × Callable)) :
    (r.registerEach calls).NamesFree := by
  induction calls generalizing r with
  | nil => exact hr
  | cons call calls ih =>
    unfold Registry.registerEach
    split
    · exact ih (hr.register ‹_›)
    · exact ih hr

theorem Built.namesFree {r : Registry} (hr : Built r) : r.NamesFree := by
  induction hr with
  | empty => exact namesFree_empty
  | native _ hregister ih => exact ih.register hregister
  | defined _ _ hregister ih => exact ih.register hregister

theorem NamesFree.contains {r : Registry} (hr : r.NamesFree) {t : String} (ht : IsPlainWord t) :
    r.contains t = false := by
  rw [Registry.contains, hr t ht]
  rfl

theorem contains_eq_true_iff {r : Registry} {name : String} :
    r.contains name = true ↔ ∃ callable, r.get? name = some callable := by
  unfold contains
  exact Option.isSome_iff_exists

end Registry

end DiceTally
