import BehaviorEngine.Decimal.Basic

/-!
The exact value of a binary64 decimal: its sign, and its magnitude as a natural number of units
that are powers of two. Everything that is written or computed digit by digit starts from here.
-/

namespace BehaviorEngine

namespace Decimal

/-- A binary64 value taken apart. -/
inductive Parts where
  /-- The magnitude is `significand · 2 ^ exponent`. -/
  | finite (negative : Bool) (significand : Nat) (exponent : Int)
  | infinite (negative : Bool)
  | notANumber
  deriving DecidableEq, Repr

/-- The parts of the value with the given bits: 1 bit for the sign, 11 for the exponent, and 52 of
the significand, whose leading bit is implied unless all bits of the exponent are zero. -/
def Parts.ofBits (bits : Nat) : Parts :=
  let negative := (bits >>> 63) % 2 == 1
  let field : Nat := (bits >>> 52) % 2048
  let fraction := bits % (1 <<< 52)
  if field = 0 then .finite negative fraction (-1074)
  else if field < 2047 then .finite negative ((1 <<< 52) + fraction) ((field : Int) - 1075)
  else if fraction = 0 then .infinite negative
  else .notANumber

/-- The parts of a value. -/
def parts (x : Decimal) : Parts := Parts.ofBits x.bits.toNat

/-- Whether a value is neither infinite nor no number. -/
def isFinite (x : Decimal) : Bool :=
  match x.parts with
  | .finite .. => true
  | _ => false

/-- The integer of a value, cut off toward zero, and held between `low` and `high`; no number
gives zero. -/
def truncate (low high : Int) (x : Decimal) : Int :=
  match x.parts with
  | .finite negative significand exponent =>
    let magnitude : Nat :=
      if 0 ≤ exponent then significand <<< exponent.toNat
      else significand >>> (-exponent).toNat
    max low (min high (if negative then -(magnitude : Int) else magnitude))
  | .infinite negative => if negative then low else high
  | .notANumber => 0

end Decimal

end BehaviorEngine
