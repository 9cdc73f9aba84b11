/-!
# Odometers

An odometer shows one entry of each of several lists and runs through all combinations, the last list fastest.
`Odometer.next?` gives the entries shown and the odometer moved on; past the last combination there is nothing
more to show.
-/

namespace DiceTally

/-- A list of one or more entries with a present entry and the entries after it. -/
structure Wheel (α : Type) where
  first : α
  others : List α
  shown : α
  later : List α

namespace Wheel

variable {α : Type}

def ofList? : List α → Option (Wheel α)
  | [] => none
  | x :: xs => some ⟨x, xs, x, xs⟩

def size (w : Wheel α) : Nat := w.others.length + 1

/-- The wheel at its first entry again. -/
def reset (w : Wheel α) : Wheel α := ⟨w.first, w.others, w.first, w.others⟩

def next? (w : Wheel α) : Option (Wheel α) :=
  match w.later with
  | [] => none
  | x :: xs => some { w with shown := x, later := xs }

end Wheel

/-- The wheels at the next combination; the wheels after the one that moves start again. -/
def advance {α : Type} : List (Wheel α) → Option (List (Wheel α))
  | [] => none
  | w :: ws =>
    match advance ws with
    | some moved => some (w :: moved)
    | none => w.next?.map fun moved => moved :: ws.map Wheel.reset

/-- Wheels in front of their present combination, or none when all combinations have been shown. -/
structure Odometer (α : Type) where
  wheels : Option (List (Wheel α))

namespace Odometer

variable {α : Type}

def finished : Odometer α := ⟨none⟩

/-- The odometer over the given lists; an empty list leaves nothing to show. -/
def ofLists (lists : List (List α)) : Odometer α := ⟨lists.mapM Wheel.ofList?⟩

/-- The present combination and the odometer after it. -/
def next? (o : Odometer α) : Option (List α × Odometer α) :=
  o.wheels.map fun ws => (ws.map (·.shown), ⟨advance ws⟩)

/-- The number of combinations of some wheels from the present one on. -/
def countFrom : List (Wheel α) → Nat
  | [] => 1
  | w :: ws => w.later.length * ws.foldr (·.size * ·) 1 + countFrom ws

/-- The number of combinations still to be shown. -/
def left (o : Odometer α) : Nat :=
  match o.wheels with
  | none => 0
  | some ws => countFrom ws

end Odometer

end DiceTally
