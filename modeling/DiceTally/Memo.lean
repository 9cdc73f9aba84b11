import DiceTally.Value
import Std.Data.TreeMap

/-!
# Caches of results

A `MemoCache` keeps the results of one stage by their inputs and counts how often it was asked with and without
success.  A cache with a capacity is emptied when a result comes in and it is full; one with capacity zero keeps
nothing.
-/

namespace DiceTally

/-- The results kept for one stage.  The counts of hits and misses have no bound here; counted in 64 bits they would
start again from zero after `2 ^ 64` requests. -/
structure MemoCache where
  entries : Std.TreeMap Tuple Tuple
  capacity : Option Nat
  hits : Nat
  misses : Nat

/-- Counts over several caches. -/
structure MemoStats where
  hits : Nat
  misses : Nat
  entries : Nat
  deriving DecidableEq, Repr

namespace MemoCache

def new (capacity : Option Nat) : MemoCache := ⟨∅, capacity, 0, 0⟩

instance : Inhabited MemoCache := ⟨new none⟩

def size (c : MemoCache) : Nat := c.entries.size

def isEmpty (c : MemoCache) : Bool := c.entries.isEmpty

/-- The result kept for an input, and the cache with the request counted. -/
def get (c : MemoCache) (input : Tuple) : Option Tuple × MemoCache :=
  match c.entries[input]? with
  | some output => (some output, { c with hits := c.hits + 1 })
  | none => (none, { c with misses := c.misses + 1 })

def insert (c : MemoCache) (input output : Tuple) : MemoCache :=
  match c.capacity with
  | none => { c with entries := c.entries.insert input output }
  | some 0 => c
  | some capacity =>
    let kept := if capacity ≤ c.size then ∅ else c.entries
    { c with entries := kept.insert input output }

end MemoCache

def MemoStats.sum (caches : List MemoCache) : MemoStats :=
  ⟨sumOf (caches.map (·.hits)), sumOf (caches.map (·.misses)), sumOf (caches.map (·.size))⟩

end DiceTally
