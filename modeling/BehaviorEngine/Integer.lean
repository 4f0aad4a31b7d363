/-!
Integers written in decimal digits: counts, which may carry a plus sign and have to fit into 64
bits, and the signed 32-bit values of enumeration elements. Nothing but ASCII digits may follow
the sign, and there has to be one.
-/

namespace BehaviorEngine

namespace Integer

/-- The value of an ASCII digit. -/
def digit? (c : Char) : Option Nat :=
  if c.isDigit then some (c.toNat - '0'.toNat) else none

/-- The number that the digits denote after a first part of value `acc`. -/
def digits? : Nat → List Char → Option Nat
  | acc, [] => some acc
  | acc, c :: cs => (digit? c).bind fun n => digits? (10 * acc + n) cs

/-- The number denoted by one or more digits. -/
def natural? : List Char → Option Nat
  | [] => none
  | c :: cs => digits? 0 (c :: cs)

/-- A number with an optional plus sign. -/
def unsigned? : List Char → Option Nat
  | '+' :: cs => natural? cs
  | cs => natural? cs

/-- A number with an optional sign. -/
def signed? : List Char → Option Int
  | '+' :: cs => (natural? cs).map Int.ofNat
  | '-' :: cs => (natural? cs).map fun n => -(n : Int)
  | cs => (natural? cs).map Int.ofNat

/-- The largest count. -/
def maxCount : Nat := UInt64.size - 1

end Integer

open Integer

/-- A count: an unsigned number of at most 64 bits. -/
def readCount? (text : String) : Option Nat :=
  (unsigned? text.toList).filter (· ≤ maxCount)

/-- An element value: a signed number of at most 32 bits. -/
def readElementValue? (text : String) : Option Int32 :=
  (signed? text.toList).bind fun n =>
    if Int32.minValue.toInt ≤ n ∧ n ≤ Int32.maxValue.toInt then some (Int32.ofInt n) else none

end BehaviorEngine
