/-!
Decimals: binary64 values as their bits, so that a decimal equals itself even where it is no
number, and the two zeros differ. Arithmetic and order are those of binary64. Values that are no
numbers have a sign too: an operation hands on the sign of an operand that is no number, of two
that of the first one, and has a negative result where the operation itself is invalid.
-/

namespace BehaviorEngine

/-- A binary64 value. -/
structure Decimal where
  bits : UInt64
  deriving DecidableEq, Repr

namespace Decimal

/-- The decimal as an operand of arithmetic. -/
def toFloat (x : Decimal) : Float := Float.ofBits x.bits

/-- The decimal of a result of arithmetic that is a number. -/
def ofFloat (x : Float) : Decimal := ⟨x.toBits⟩

/-- The decimal nearest to a natural number. -/
def ofNat (n : Nat) : Decimal := ofFloat (Float.ofNat n)

/-- The decimal nearest to an integer. -/
def ofInt (n : Int) : Decimal := ofFloat (Float.ofInt n)

instance (n : Nat) : OfNat Decimal n := ⟨ofNat n⟩

instance : Inhabited Decimal := ⟨0⟩

/-- The positive infinity. -/
def infinity : Decimal := ⟨0x7FF0000000000000⟩

/-- The positive value that is no number. -/
def notANumber : Decimal := ⟨0x7FF8000000000000⟩

/-- The bit of the sign. -/
def signBit : UInt64 := 0x8000000000000000

instance : Neg Decimal := ⟨fun x => ⟨x.bits ^^^ signBit⟩⟩

/-- Whether a decimal is no number, of either sign. -/
def isNotANumber (x : Decimal) : Bool := x.toFloat.isNaN

/-- The result of arithmetic on two decimals. -/
def combine (op : Float → Float → Float) (x y : Decimal) : Decimal :=
  if x.isNotANumber then x
  else if y.isNotANumber then y
  else
    let result := op x.toFloat y.toFloat
    if result.isNaN then -notANumber else ofFloat result

instance : Add Decimal := ⟨combine (· + ·)⟩
instance : Sub Decimal := ⟨combine (· - ·)⟩
instance : Mul Decimal := ⟨combine (· * ·)⟩
instance : Div Decimal := ⟨combine (· / ·)⟩

/-- Whether two decimals are equal as numbers, as the two zeros are. -/
def equals (x y : Decimal) : Bool := x.toFloat == y.toFloat

/-- Whether a decimal is smaller than another one. -/
def isBelow (x y : Decimal) : Bool := x.toFloat < y.toFloat

/-- Whether a decimal is smaller than another one or equal to it. -/
def isAtMost (x y : Decimal) : Bool := x.toFloat ≤ y.toFloat

end Decimal

end BehaviorEngine
