import GraphQuery.Decimal.Binary64

/-!
The fewest decimal digits that read back as a given binary number and, of those, the nearest to it.
All comparisons are between exact natural numbers.
-/

namespace GraphQuery.Decimal

/-- The numerators of a magnitude and of the ends of the interval that rounds to it. -/
structure Interval where
  low : Nat
  value : Nat
  high : Nat
  denominator : Nat
  closed : Bool

/--
The interval of a positive finite number. The gap below a power of two is half the gap above it, and
an end rounds to the number exactly when its significand is even.
-/
def interval (x : Binary64) : Interval :=
  let quarter := x.exponent - 2
  let unit := Nat.pow 2 quarter.toNat
  let below := if x.fraction = 0 ∧ 1 < x.biasedExponent then 1 else 2
  { low := (4 * x.significand - below) * unit
    value := 4 * x.significand * unit
    high := (4 * x.significand + 2) * unit
    denominator := Nat.pow 2 (-quarter).toNat
    closed := x.significand % 2 == 0 }

def digitCount (n : Nat) : Nat :=
  (Nat.toDigits 10 n).length

/-- The greatest `k` with `10 ^ k` at most the quotient of two positive numbers. -/
def decimalExponent (numerator denominator : Nat) : Int :=
  if denominator ≤ numerator then (digitCount (numerator / denominator) : Int) - 1
  else -(digitCount ((denominator - 1) / numerator) : Int)

namespace Interval

/-- The multiple of `10 ^ step` nearest to the value, if one lies in the interval; a tie goes up. -/
def onGrid? (range : Interval) (step : Int) : Option Nat :=
  let finer := Nat.pow 10 (-step).toNat
  let gap := range.denominator * Nat.pow 10 step.toNat
  let value := range.value * finer
  let below := value / gap
  let above := below + 1
  let belowFits :=
    if range.closed then decide (range.low * finer ≤ below * gap)
    else decide (range.low * finer < below * gap)
  let aboveFits :=
    if range.closed then decide (above * gap ≤ range.high * finer)
    else decide (above * gap < range.high * finer)
  if belowFits && (!aboveFits || decide (value - below * gap < above * gap - value)) then some below
  else if aboveFits then some above
  else none

end Interval

/-- The number `0.d₁d₂… * 10 ^ point`, with no zero at either end of its digits. -/
structure Digits where
  digits : List Char
  point : Int

def dropTrailingZeros (digits : List Char) : List Char :=
  (digits.reverse.dropWhile (· == '0')).reverse

/-- The shortest digits of a positive finite number: seventeen always suffice. -/
def shortest (x : Binary64) : Digits :=
  let range := interval x
  let leading := decimalExponent range.value range.denominator
  let found := (List.range' 1 17).findSome? fun (count : Nat) =>
    let step := leading + 1 - count
    (range.onGrid? step).map fun multiple => (multiple, step)
  let (multiple, step) := found.getD (0, 0)
  let digits := Nat.toDigits 10 multiple
  { digits := dropTrailingZeros digits
    point := (digits.length : Int) + step }

end GraphQuery.Decimal
