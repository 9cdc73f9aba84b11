import DiceTally.Decimal.Arithmetic
import Std.Data.TreeMap

/-!
# Distributions

A distribution keeps the added weight of every result, in the order of the results.  A weight that grows out of
range stays at the largest number.
-/

namespace DiceTally

/-- The weight of every result. -/
structure Distribution where
  counts : Std.TreeMap Tuple Decimal

namespace Distribution

def empty : Distribution := ⟨∅⟩

instance : Inhabited Distribution := ⟨empty⟩

def get? (d : Distribution) (key : Tuple) : Option Decimal := d.counts[key]?

def size (d : Distribution) : Nat := d.counts.size

def isEmpty (d : Distribution) : Bool := d.counts.isEmpty

def add (d : Distribution) (key : Tuple) (weight : Decimal) : Distribution :=
  ⟨d.counts.insert key (((d.get? key).getD Decimal.zero).addSaturating weight)⟩

/-- The results with their weights, in order. -/
def entries (d : Distribution) : List (Tuple × Decimal) := d.counts.toList

/-- The distribution of weighted results, repeated results being added up. -/
def ofList (outcomes : List (Tuple × Decimal)) : Distribution :=
  outcomes.foldl (fun d (key, weight) => d.add key weight) empty

def total (d : Distribution) : Decimal :=
  d.entries.foldl (fun sum (_, weight) => sum.addSaturating weight) Decimal.zero

/-- Whether one entry has the smaller weight, or the same weight and the smaller result. -/
def weightOrder (a b : Tuple × Decimal) : Bool :=
  ((a.2.compare b.2).then (compare a.1 b.1)).isLE

def byWeight (d : Distribution) : List (Tuple × Decimal) :=
  d.entries.mergeSort weightOrder

def isWhole (d : Distribution) : Bool :=
  d.entries.all fun (_, weight) => weight.isWhole

end Distribution

end DiceTally
