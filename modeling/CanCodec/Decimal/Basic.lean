/-! # Decimal numbers

A `Decimal` is what a decimal text denotes, and `Decimal.toFloat` is the double
that such a text is read as. -/

namespace CanCodec

/-- The number `coefficient · 10 ^ exponent`, with its sign kept apart so that
there are two zeros. -/
structure Decimal where
  negative : Bool
  coefficient : Nat
  exponent : Int
  deriving Repr, DecidableEq

namespace Decimal

/-- The double nearest to a decimal, with an even last bit when two are equally near. -/
def toFloat (decimal : Decimal) : Float :=
  let magnitude :=
    Float.ofScientific decimal.coefficient (decimal.exponent < 0) decimal.exponent.natAbs
  if decimal.negative then -magnitude else magnitude

def digitsValue (digits : List Char) : Nat :=
  digits.foldl (fun value digit => value * 10 + (digit.toNat - '0'.toNat)) 0

def digitsOf (value : Nat) : List Char := Nat.toDigits 10 value

example : digitsValue (digitsOf 1903) = 1903 := by decide

end Decimal

end CanCodec
