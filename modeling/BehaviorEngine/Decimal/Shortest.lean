import BehaviorEngine.Decimal.Parts

/-!
Decimals as text is written: with the fewest digits from which the value can be read back, and of
several such numerals the one nearest to the value, in positional notation whatever the size.

The candidates are the points of a grid of a power of ten. A point reads back as the value if it
lies between the midpoints to the two neighbouring values, the midpoints included for an even
significand. The coarsest grid with such a point gives the fewest digits, and on every grid a
point nearest to the value is one of the two around it.
-/

namespace BehaviorEngine

namespace Decimal

/-- The reals that round to a value, scaled to integers: the value is `value / unit`, and the
interval reaches from `low / unit` to `high / unit`. -/
structure Interval where
  low : Nat
  value : Nat
  high : Nat
  unit : Nat
  closed : Bool
  deriving Repr

/-- The interval of `significand · 2 ^ exponent`. The neighbour below a power of two is only half
as far as the one above, unless it is in the lowest range. -/
def Interval.of (significand : Nat) (exponent : Int) : Interval :=
  let scale := 1 <<< exponent.toNat
  let below := if significand = 1 <<< 52 ∧ -1074 < exponent then 1 else 2
  { low := (4 * significand - below) * scale
    value := 4 * significand * scale
    high := (4 * significand + 2) * scale
    unit := 4 <<< (-exponent).toNat
    closed := significand % 2 = 0 }

/-- Whether `numerator / denominator` reads back as the value. -/
def Interval.contains (i : Interval) (numerator denominator : Nat) : Bool :=
  let low := i.low * denominator
  let high := i.high * denominator
  let point := numerator * i.unit
  if i.closed then low ≤ point && point ≤ high else low < point && point < high

/-- The point nearest to the value on the grid of `10 ^ exponent` that reads back as the value; of
two equally near ones the upper. -/
def Interval.point? (i : Interval) (exponent : Int) : Option Nat :=
  let up := Nat.pow 10 exponent.toNat
  let down := Nat.pow 10 (-exponent).toNat
  let floor := i.value * down / (i.unit * up)
  let distanceBelow := i.value * down - floor * up * i.unit
  let distanceAbove := (floor + 1) * up * i.unit - i.value * down
  let below := i.contains (floor * up) down
  let above := i.contains ((floor + 1) * up) down
  if above && (!below || distanceAbove ≤ distanceBelow) then some (floor + 1)
  else if below then some floor
  else none

/-- An exponent whose power of ten is larger than every number that rounds to
`significand · 2 ^ exponent`: a bit is a little more than three tenths of a digit. -/
def gridAbove (significand : Nat) (exponent : Int) : Int :=
  (Nat.log2 significand + 1 + exponent) * 30103 / 100000 + 2

/-- The fewest digits that read back, and the exponent of the last one. -/
def shortest (significand : Nat) (exponent : Int) : Nat × Int :=
  let interval := Interval.of significand exponent
  let top := gridAbove significand exponent
  let found := (List.range 24).findSome? fun (n : Nat) =>
    (interval.point? (top - n)).map fun digits => (digits, top - n)
  found.getD (0, 0)

/-- `digits · 10 ^ exponent` in positional notation, with a point only before a fraction. -/
def positional (digits : Nat) (exponent : Int) : String :=
  let text := Nat.toDigits 10 digits
  if 0 ≤ exponent then String.ofList (text ++ List.replicate exponent.toNat '0')
  else
    let places := (-exponent).toNat
    let padded := List.replicate (places + 1 - text.length) '0' ++ text
    let whole := padded.length - places
    String.ofList (padded.take whole ++ '.' :: padded.drop whole)

/-- The text of a magnitude. -/
def magnitudeText (significand : Nat) (exponent : Int) : String :=
  if significand = 0 then "0"
  else
    let s := shortest significand exponent
    positional s.1 s.2

/-- The text of a decimal: zero keeps its sign, infinities are words, and so is what is no number,
whatever its sign. -/
def text (x : Decimal) : String :=
  match x.parts with
  | .finite negative significand exponent =>
    (if negative then "-" else "") ++ magnitudeText significand exponent
  | .infinite negative => if negative then "-inf" else "inf"
  | .notANumber => "NaN"

end Decimal

end BehaviorEngine
