import BehaviorEngine.Decimal.Basic
import BehaviorEngine.Integer

/-!
Decimals as text is read: an optional sign and then either a numeral, which is digits with at
most one point among or beside them and an optional power of ten, or one of the words for
infinity and for no number, in any case of letters. A numeral denotes the nearest binary64 value,
of two equally near ones the one with the even significand. A minus sign turns over the sign of
whatever follows it, zero and no number included.
-/

namespace BehaviorEngine

namespace Decimal

open Integer

/-- A numeral without its sign: `mantissa` units of `10 ^ exponent`. -/
structure Numeral where
  mantissa : Nat
  exponent : Int
  deriving DecidableEq, Repr

/-- What text of a decimal denotes before it is rounded, the sign apart. -/
inductive Magnitude where
  | finite (numeral : Numeral)
  | infinite
  | notANumber
  deriving DecidableEq, Repr

/-- The power of ten that ends a numeral: nothing, or a letter `e` and a signed number. -/
def exponent? : List Char → Option Int
  | [] => some 0
  | c :: cs => if c = 'e' ∨ c = 'E' then signed? cs else none

/-- The digits in front of the first other character, and the rest. -/
def spanDigits (cs : List Char) : List Char × List Char :=
  (cs.takeWhile Char.isDigit, cs.dropWhile Char.isDigit)

/-- The digits behind a point, and the rest; no digits where there is no point. -/
def fraction : List Char → List Char × List Char
  | '.' :: cs => spanDigits cs
  | cs => ([], cs)

/-- A numeral: at least one digit before or behind the point. -/
def numeral? (cs : List Char) : Option Numeral :=
  let whole := spanDigits cs
  let part := fraction whole.2
  (natural? (whole.1 ++ part.1)).bind fun mantissa =>
    (exponent? part.2).map fun e => ⟨mantissa, e - part.1.length⟩

/-- The magnitude that text without a sign denotes. -/
def magnitude? (cs : List Char) : Option Magnitude :=
  let word := String.ofList (cs.map Char.toLower)
  if word = "inf" ∨ word = "infinity" then some .infinite
  else if word = "nan" then some .notANumber
  else (numeral? cs).map .finite

/-- Number of decimal digits of a number, at least one. -/
def digitCount (n : Nat) : Nat := (Nat.toDigits 10 n).length

/-- The nearest binary64 value. Numerals whose leading digit stands far outside the range of
binary64 are decided by its place, so that no power of ten larger than needed is computed. -/
def Numeral.round (n : Numeral) : Decimal :=
  let places : Int := n.exponent + digitCount n.mantissa
  if n.mantissa = 0 ∨ places < -400 then 0
  else if 400 < places then infinity
  else ofFloat (Float.ofScientific n.mantissa (n.exponent < 0) n.exponent.natAbs)

/-- The binary64 value of a magnitude. -/
def Magnitude.round : Magnitude → Decimal
  | .finite n => n.round
  | .infinite => infinity
  | .notANumber => Decimal.notANumber

/-- The decimal that text denotes. -/
def ofChars? : List Char → Option Decimal
  | '+' :: cs => (magnitude? cs).map Magnitude.round
  | '-' :: cs => (magnitude? cs).map fun m => -m.round
  | cs => (magnitude? cs).map Magnitude.round

end Decimal

/-- The decimal that text denotes, infinities and no number included. -/
def readDecimal? (text : String) : Option Decimal := Decimal.ofChars? text.toList

end BehaviorEngine
