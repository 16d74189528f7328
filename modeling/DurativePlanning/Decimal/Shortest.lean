import DurativePlanning.Decimal.Binary

/-!
# The Fewest Digits that Read Back

Among the decimals that round to a given double, `Shortest.ofFinite` finds one with the fewest
digits, and of those the nearest; a `Tie` decides between two equally near. The decimals that round
to `m * 2 ^ e` fill an interval around it, half way to either neighbour; its ends belong to it when
`m` is even. A decimal grid has a point in the interval exactly when one of the two grid points next
to the double lies in it, so the search looks at those two on ever finer grids.

* `Shortest.Interval`: the interval of one double, scaled to whole numbers.
* `Shortest.ofFinite`: the digits and the decimal exponent of a positive double.
-/

namespace DurativePlanning.Shortest

/-- A positive decimal `digits * 10 ^ exponent`. -/
structure Decimal where
  digits : Nat
  exponent : Int
  deriving DecidableEq, Repr

/-- The reals that round to a double, as fractions over one denominator. -/
structure Interval where
  low : Nat
  middle : Nat
  high : Nat
  denominator : Nat
  /-- Whether the two ends round to the double as well. -/
  closed : Bool

/-- The interval of `m * 2 ^ e`. Below a power of two the neighbours lie half as far apart, so the
lower end is nearer there, unless the double has the least exponent. -/
def Interval.ofFinite (significand : Nat) (exponent : Int) : Interval :=
  let atPower := significand = 1 <<< 52 ∧ -1074 < exponent
  let scale := 1 <<< exponent.toNat
  { low := (4 * significand - (if atPower then 1 else 2)) * scale
    middle := 4 * significand * scale
    high := (4 * significand + 2) * scale
    denominator := 4 * Binary.denominator exponent
    closed := significand % 2 = 0 }

/-- Whether the fraction `numerator / denominator` lies in the interval. -/
def Interval.contains (i : Interval) (numerator denominator : Nat) : Bool :=
  let x := numerator * i.denominator
  let low := i.low * denominator
  let high := i.high * denominator
  if i.closed then decide (low ≤ x ∧ x ≤ high) else decide (low < x ∧ x < high)

/-- The point of the grid `10 ^ exponent` that lies in the interval and is nearest to its double,
when there is one; of two equally near points the one that `tie` takes. -/
def Interval.gridPoint? (i : Interval) (tie : Tie) (exponent : Int) : Option Nat :=
  let up := Nat.pow 10 exponent.toNat
  let down := Nat.pow 10 (-exponent).toNat
  let below := i.middle * down / (i.denominator * up)
  let nearest := roundDiv tie (i.middle * down) (i.denominator * up)
  let other := if nearest = below then below + 1 else below
  if i.contains (nearest * up) down then some nearest
  else if i.contains (other * up) down then some other
  else none

/-- The first grid with a point in the interval, going from the grid `10 ^ exponent` to finer ones;
`steps` bounds how many are tried. -/
def Interval.firstPoint (i : Interval) (tie : Tie) : (steps : Nat) → (exponent : Int) → Decimal
  | 0, exponent =>
    let up := Nat.pow 10 exponent.toNat
    let down := Nat.pow 10 (-exponent).toNat
    ⟨i.middle * down / (i.denominator * up), exponent⟩
  | steps + 1, exponent =>
    match i.gridPoint? tie exponent with
    | some digits =>
      if digits = 0 then firstPoint i tie steps (exponent - 1) else ⟨digits, exponent⟩
    | none => firstPoint i tie steps (exponent - 1)

/-- The decimal with the fewest digits that rounds to `m * 2 ^ e`, for a positive `m`; of two
equally near ones the one that `tie` takes. The coarsest grid tried is the least power of ten above
the double, and seventeen digits always suffice. -/
def ofFinite (tie : Tie) (significand : Nat) (exponent : Int) : Decimal :=
  let size : Int := (Nat.log2 significand : Int) + exponent
  let start : Int := (size + 1) * 30103 / 100000 + 1
  (Interval.ofFinite significand exponent).firstPoint tie 24 start

end DurativePlanning.Shortest
