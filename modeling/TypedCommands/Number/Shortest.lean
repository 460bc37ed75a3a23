import TypedCommands.Number.Binary64

/-! The fewest decimal digits that read back as a finite positive number. All comparisons are made
on integers: values are counted in `2 ^ (-1075) * 10 ^ (-360)`, so that the bounds of a rounding
interval and the points of every decimal grid in question are whole. -/
namespace TypedCommands.Binary64

/-- Every rounding interval holds a point of the decimal grid with this many places. -/
def places : Nat := 360

/-- The decimal `digits * 10 ^ (exponent - places)`. -/
structure Digits where
  digits : Nat
  exponent : Nat
  deriving DecidableEq

/-- The reals that round to a magnitude: between the midpoints to its neighbours, which belong to
the interval when the magnitude is even. -/
structure Interval where
  low : Nat
  high : Nat
  closed : Bool

def interval (magnitude : Nat) : Interval where
  low := (units (magnitude - 1) + units magnitude) * powerOfTen places
  high := (units magnitude + units (magnitude + 1)) * powerOfTen places
  closed := decide (magnitude % 2 = 0)

def Interval.contains (i : Interval) (x : Nat) : Bool :=
  if i.closed then decide (i.low ≤ x) && decide (x ≤ i.high)
  else decide (i.low < x) && decide (x < i.high)

/-- The point nearest to `x` on the grid of multiples of `step`, of the two points around `x` and
within the interval; the upper one at a tie. -/
def gridPoint? (i : Interval) (x step : Nat) : Option Nat :=
  let below := x / step
  let above := below + 1
  match i.contains (below * step), i.contains (above * step) with
  | true, true => some (if x - below * step < above * step - x then below else above)
  | true, false => some below
  | false, true => some above
  | false, false => none

/-- The first grid with a point in the interval, from `exponent` down to the finest. -/
def search (i : Interval) (x : Nat) : Nat → Digits
  | 0 => ⟨(gridPoint? i x (1 <<< 1075)).getD (x >>> 1075), 0⟩
  | e + 1 =>
    match gridPoint? i x (powerOfTen (e + 1) <<< 1075) with
    | some d => ⟨d, e + 1⟩
    | none => search i x e

/-- How many decimal digits a number has. -/
def digitCount (n : Nat) : Nat := (Nat.toDigits 10 n).length

/-- The shortest decimal that reads back as the magnitude, the nearest of those. -/
def shortest (magnitude : Nat) : Digits :=
  let x := 2 * units magnitude * powerOfTen places
  search (interval magnitude) x (digitCount (x >>> 1075))

example : shortest (ofDecimal false 3 (-1)).magnitude = ⟨3, 359⟩ := by decide +kernel
example : shortest 1 = ⟨5, 36⟩ := by decide +kernel
example : shortest (ofDecimal false 1 23).magnitude = ⟨1, 383⟩ := by decide +kernel

end TypedCommands.Binary64
