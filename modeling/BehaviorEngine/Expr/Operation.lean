import BehaviorEngine.Expr.Basic
import BehaviorEngine.Decimal.Parts

/-!
The values of operations on decimals. None of them fails: a division by zero divides by a small
number instead, and a remainder by zero is zero.
-/

namespace BehaviorEngine

/-- What stands in for a divisor of zero. -/
def smallDivisor : Decimal := .ofFloat 1e-7

/-- The integer of a decimal cut off toward zero, held within 64 bits. -/
def wholePart (x : Decimal) : Int := x.truncate Int64.minValue.toInt Int64.maxValue.toInt

/-- The remainder of the whole parts, with the sign of the dividend. -/
def wholeRemainder (x y : Decimal) : Decimal :=
  if wholePart y = 0 then 0 else .ofInt ((wholePart x).tmod (wholePart y))

/-- The value of an operation. -/
def ArithmeticOp.apply : ArithmeticOp → Decimal → Decimal → Decimal
  | add, x, y => x + y
  | sub, x, y => x - y
  | mul, x, y => x * y
  | div, x, y => if y.equals 0 then x / smallDivisor else x / y
  | mod, x, y => wholeRemainder x y

/-- Whether a comparison holds. -/
def RelationalOp.holds : RelationalOp → Decimal → Decimal → Bool
  | eq, x, y => x.equals y
  | ne, x, y => !x.equals y
  | lt, x, y => x.isBelow y
  | le, x, y => x.isAtMost y
  | gt, x, y => y.isBelow x
  | ge, x, y => y.isAtMost x

/-- The value of an operand for which a connective goes on to the next one, and the value of the
connective of no operands. -/
def Connective.unit : Connective → Bool
  | and => true
  | or => false

end BehaviorEngine
