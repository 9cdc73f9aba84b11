import DiceTally.Memo
import DiceTally.Operation.Eval

/-!
# Evaluation with caches

`Operation.run` evaluates an operation like `Operation.eval` but keeps the results of `memoized` nodes.  The
caches live in a `Store`: those of the operation itself, and those of every named pipeline, which are shared by
all its calls.  Caches are kept when an evaluation fails.
-/

namespace DiceTally

/-- The caches of an operation and of the named pipelines it calls. -/
structure Store where
  caches : List MemoCache
  /-- the caches of the named pipelines that have been called -/
  definitions : List (String × List MemoCache)
  /-- the capacity of the caches of a named pipeline -/
  capacity : Option Nat

namespace Operation

/-- An empty cache for every number that an operation uses. -/
def freshCaches (op : Operation) (capacity : Option Nat) : List MemoCache :=
  List.replicate op.memoSlots (MemoCache.new capacity)

end Operation

namespace Store

/-- The store in which the evaluation of an operation starts. -/
def new (op : Operation) (capacity : Option Nat) : Store :=
  ⟨op.freshCaches capacity, [], capacity⟩

/-- Gives an operation the caches of an earlier evaluation; missing ones are empty and unbounded. -/
def handOver (s : Store) (op : Operation) (caches : List MemoCache) : Store :=
  { s with caches := caches ++ List.replicate (op.memoSlots - caches.length) (MemoCache.new none) }

/-- The counts over the caches of the operation itself. -/
def stats (s : Store) : MemoStats := MemoStats.sum s.caches

def definitionCaches (s : Store) (name : String) (pipeline : Operation) : List MemoCache :=
  (s.definitions.lookup name).getD (pipeline.freshCaches s.capacity)

/-- Asks a cache for a result; a number without a cache has none. -/
def get (s : Store) (slot : Nat) (input : Tuple) : Option Tuple × Store :=
  match s.caches[slot]? with
  | none => (none, s)
  | some cache =>
    let (found, cache) := cache.get input
    (found, { s with caches := s.caches.set slot cache })

def insert (s : Store) (slot : Nat) (input output : Tuple) : Store :=
  { s with caches := s.caches.modify slot fun cache => cache.insert input output }

end Store

def setCaches (name : String) (caches : List MemoCache) :
    List (String × List MemoCache) → List (String × List MemoCache)
  | [] => [(name, caches)]
  | (n, c) :: rest => if n = name then (name, caches) :: rest else (n, c) :: setCaches name caches rest

/-- An evaluation that may use and fill the caches. -/
abbrev Cached := ExceptT EvalError (StateM Store)

/-- An evaluation that leaves the caches alone. -/
def Cached.ofExcept {α : Type} (result : Except EvalError α) : Cached α :=
  ExceptT.mk (pure result)

/-- Runs a named pipeline on its own caches. -/
def withDefinition (name : String) (pipeline : Operation) (body : Cached Tuple) : Cached Tuple :=
  ExceptT.mk fun s =>
    let (result, after) := body.run { s with caches := s.definitionCaches name pipeline }
    (result, { after with caches := s.caches, definitions := setCaches name after.caches after.definitions })

def Cached.mapError (f : EvalError → EvalError) (body : Cached Tuple) : Cached Tuple :=
  ExceptT.mk fun s =>
    let (result, after) := body.run s
    (result.mapError f, after)

namespace Operation

/-- The result of an operation on a tuple, results of earlier evaluations being used. -/
def run : Operation → Tuple → Cached Tuple
  | primitive step, dice => .ofExcept (step.apply dice)
  | sliceApply size inner outer, dice => do
    let results ← (blocks size dice).mapM fun block => inner.run block
    outer.run results.flatten
  | conditional condition taken otherwise, dice => do
    let t ← taken.run dice
    let f ← otherwise.run dice
    .ofExcept (merge condition dice t f)
  | native name params function, dice => .ofExcept ((function dice params).mapError (.custom name))
  | defined name params pipeline, dice =>
    if params.isEmpty then
      (withDefinition name pipeline (pipeline.run dice)).mapError fun e => .custom name e.message
    else throw (.custom name (parametersRefused name params.length))
  | andThen first next, dice => do
    let middle ← first.run dice
    next.run middle
  | validated inner, dice => (inner.run dice).mapError (.within inner.render dice)
  | memoized slot inner, dice => do
    match ← modifyGet fun (s : Store) => s.get slot dice with
    | some output => return output
    | none =>
      let output ← inner.run dice
      modify fun (s : Store) => s.insert slot dice output
      return output

def apply (op : Operation) (dice : Tuple) (s : Store) : Except EvalError Tuple × Store :=
  (op.run dice).run s

end Operation

end DiceTally
