import DiceTally.Distribution
import DiceTally.Decimal.Text

/-!
# Charts

A distribution is shown with one line per result: the result, its share in percent or its weight, and a bar whose
length is proportional to the share.  Results and numbers are right-aligned, so that all bars start in one column.
-/

namespace DiceTally

inductive SortOrder where
  | key
  | value
  deriving DecidableEq, Repr

structure ChartOptions where
  /-- bar characters per percent; none hides the bars -/
  barSize : Nat
  barChar : String
  /-- what stands in front of each bar -/
  barLead : String
  decimalPlaces : Nat
  sort : SortOrder
  showCounts : Bool
  deriving DecidableEq, Repr

def ChartOptions.default : ChartOptions := ⟨2, "=", "|", 2, .key, false⟩

instance : Inhabited ChartOptions := ⟨.default⟩

namespace Chart

/-- The share of a weight in percent. -/
def percent (count total : Decimal) : Decimal :=
  if total.isZero then Decimal.zero
  else
    let scaledFirst := (count.mul? Decimal.hundred).bind fun scaled => scaled.div? total
    let dividedFirst := (count.div? total).bind fun ratio => ratio.mul? Decimal.hundred
    (scaledFirst.or dividedFirst).getD Decimal.zero

/-- The entries in the order of the lines. -/
def ordered (options : ChartOptions) (d : Distribution) : List (Tuple × Decimal) :=
  match options.sort with
  | .key => d.entries
  | .value => d.byWeight

/-- The width of the widest value of any result. -/
def valueWidth (entries : List (Tuple × Decimal)) : Nat :=
  (entries.flatMap fun (key, _) => key.map fun v => v.text.length).foldl Nat.max 0

/-- The number of values of the longest result. -/
def arity (entries : List (Tuple × Decimal)) : Nat :=
  (entries.map fun (key, _) => key.length).foldl Nat.max 0

def keyWidth (entries : List (Tuple × Decimal)) : Nat :=
  arity entries * valueWidth entries + (arity entries - 1)

/-- A weight as text; whole weights have no digits after the point. -/
def countText (options : ChartOptions) (whole : Bool) (count : Decimal) : String :=
  if whole then count.trunc.text else count.fixed options.decimalPlaces

def countWidth (options : ChartOptions) (whole : Bool) (entries : List (Tuple × Decimal)) : Nat :=
  (entries.map fun (_, count) => (countText options whole count).length).foldl Nat.max 0

/-- The number of bar characters for a share; none for a share below zero. -/
def barLength (options : ChartOptions) (share : Decimal) : Nat :=
  match (Decimal.ofInt? options.barSize).bind share.mul? with
  | some product =>
    let n := product.round .floor
    if 0 ≤ n ∧ n < bound64 then n.toNat else 0
  | none => 0

/-- The bar for a share, with what stands in front of it.  Its length has no bound here but that of `barLength`: neither
memory nor the number of bytes that a text can have is looked at. -/
def bar (options : ChartOptions) (share : Decimal) : String :=
  if options.barSize = 0 then ""
  else options.barLead ++ String.join (List.replicate (barLength options share) options.barChar)

/-- A result, its values aligned with those of the other lines. -/
def keyText (width : Nat) (key : Tuple) : String :=
  ",".intercalate (key.map fun v => padLeft width v.text)

/-- The lines of the chart.  Memory sets no bound to them here, nor do the limits that formatting has for a width or a
number of decimal places. -/
def lines (options : ChartOptions) (d : Distribution) : List String :=
  let total := d.total
  let entries := ordered options d
  let whole := d.isWhole
  let keyWidth := keyWidth entries
  let valueWidth := valueWidth entries
  let countWidth := countWidth options whole entries
  entries.map fun (key, count) =>
    let share := percent count total
    let number :=
      if options.showCounts then padLeft countWidth (countText options whole count)
      else padLeft (4 + options.decimalPlaces) (share.fixed options.decimalPlaces) ++ " %"
    trimEnd (padLeft keyWidth (keyText valueWidth key) ++ ": " ++ number ++ " " ++ bar options share)

end Chart

end DiceTally
