import CanCodec.Decimal.Shortest

/-! # Writing doubles

Doubles are written in three styles. They share the choice of digits and differ in
where an exponent takes over, how it is written, and whether a whole number keeps
its point. -/

namespace CanCodec

structure FloatStyle where
  /-- The places of the point at which a number is written without exponent:
  the number lies between `10 ^ (place - 1)` and `10 ^ place`. -/
  positional : Int → Bool
  /-- Whether a whole number written without exponent ends in `.0`. -/
  keepsPoint : Bool
  /-- Whether a positive exponent has a plus sign. -/
  signsExponent : Bool
  /-- Which of two equally near digit strings is taken. -/
  tie : Tie

namespace FloatStyle

/-- Plain numbers never have an exponent, and whole ones have no point. -/
def plain : FloatStyle where
  positional _ := true
  keepsPoint := false
  signsExponent := false
  tie := .away

/-- Literals always have a point or an exponent; the exponent takes over outside
`10 ^ -4 ≤ |x| < 10 ^ 16`. -/
def literal : FloatStyle where
  positional place := -3 ≤ place && place ≤ 16
  keepsPoint := true
  signsExponent := false
  tie := .away

/-- Numbers in JSON keep their point; the exponent takes over outside
`10 ^ -5 ≤ |x| < 10 ^ 16` and is signed. -/
def json : FloatStyle where
  positional place := -4 ≤ place && place ≤ 16
  keepsPoint := true
  signsExponent := true
  tie := .even

def writePositional (keepsPoint : Bool) (digits : List Char) (place : Int) : List Char :=
  if place ≤ 0 then '0' :: '.' :: (List.replicate place.natAbs '0' ++ digits)
  else
    let whole := place.toNat
    if digits.length ≤ whole then
      digits ++ List.replicate (whole - digits.length) '0' ++ if keepsPoint then ['.', '0'] else []
    else digits.take whole ++ '.' :: digits.drop whole

def writeExponential (signsExponent : Bool) (digits : List Char) (place : Int) : List Char :=
  let power := place - 1
  let fraction := digits.drop 1
  digits.take 1 ++ (if fraction.isEmpty then [] else '.' :: fraction) ++
    'e' :: ((if power < 0 then ['-'] else if signsExponent then ['+'] else []) ++
      Decimal.digitsOf power.natAbs)

def dropTrailingZeros (digits : List Char) : List Char :=
  (digits.reverse.dropWhile (· == '0')).reverse

def writeMagnitude (style : FloatStyle) (coefficient : Nat) (exponent : Int) : List Char :=
  if coefficient = 0 then if style.keepsPoint then ['0', '.', '0'] else ['0']
  else
    let digits := Decimal.digitsOf coefficient
    let place := exponent + digits.length
    let significant := dropTrailingZeros digits
    if style.positional place then writePositional style.keepsPoint significant place
    else writeExponential style.signsExponent significant place

def writeDecimal (style : FloatStyle) (decimal : Decimal) : List Char :=
  (if decimal.negative then ['-'] else []) ++
    writeMagnitude style decimal.coefficient decimal.exponent

def write (style : FloatStyle) (value : Float) : String :=
  match Decimal.shapeOf style.tie value with
  | .notANumber => "NaN"
  | .infinite negative => if negative then "-inf" else "inf"
  | .finite decimal => String.ofList (writeDecimal style decimal)

example : plain.writeDecimal ⟨false, 1, -7⟩ = "0.0000001".toList := by decide
example : plain.writeDecimal ⟨true, 0, 0⟩ = "-0".toList := by decide
example : literal.writeDecimal ⟨false, 12345, 12⟩ = "1.2345e16".toList := by decide
example : literal.writeDecimal ⟨false, 25, 1⟩ = "250.0".toList := by decide
example : json.writeDecimal ⟨false, 255, 15⟩ = "2.55e+17".toList := by decide
example : json.writeDecimal ⟨true, 32, -1⟩ = "-3.2".toList := by decide

end FloatStyle

end CanCodec
