import DiceTally.Operation.Cached
import DiceTally.Outcome.Basic

/-!
# Tallying

`tally` applies an operation to every outcome and adds up the weights by result.  It ends at the first outcome on
which the operation fails.
-/

namespace DiceTally

/-- Adds the results of at most `n` outcomes to a distribution. -/
def tallyFrom (op : Operation) :
    Nat → Outcomes → Distribution → Store → Except EvalError Distribution × Store
  | 0, _, counts, store => (.ok counts, store)
  | n + 1, outcomes, counts, store =>
    match outcomes.next? with
    | none => (.ok counts, store)
    | some ((dice, weight), rest) =>
      match op.apply dice store with
      | (.ok key, store) => tallyFrom op n rest (counts.add key weight) store
      | (.error e, store) => (.error e, store)

/-- The distribution of the results of an operation over all outcomes. -/
def tally (op : Operation) (outcomes : Outcomes) (store : Store) : Except EvalError Distribution × Store :=
  tallyFrom op outcomes.left outcomes .empty store

end DiceTally
