import CanCodec.Json.Basic

/-! # The number grammar of JSON -/

namespace CanCodec.Json

structure NumberText where
  negative : Bool
  leading : List Char
  fraction : Option (List Char)
  exponent : Option Int
  deriving Repr, DecidableEq

def readDigits (characters : List Char) : Option (List Char × List Char) :=
  let digits := characters.takeWhile Char.isDigit
  if digits.isEmpty then none else some (digits, characters.dropWhile Char.isDigit)

def readLeading : List Char → Option (List Char × List Char)
  | '0' :: rest => if (rest.head?.any Char.isDigit) then none else some (['0'], rest)
  | characters => readDigits characters

def readFraction : List Char → Option (Option (List Char) × List Char)
  | '.' :: rest => (readDigits rest).map fun (digits, rest) => (some digits, rest)
  | characters => some (none, characters)

def readPower (negative : Bool) (characters : List Char) : Option (Option Int × List Char) :=
  (readDigits characters).map fun (digits, rest) =>
    let magnitude : Int := Decimal.digitsValue digits
    (some (if negative then -magnitude else magnitude), rest)

def readExponent : List Char → Option (Option Int × List Char)
  | [] => some (none, [])
  | mark :: rest =>
      if mark = 'e' ∨ mark = 'E' then
        match rest with
        | '-' :: rest => readPower true rest
        | '+' :: rest => readPower false rest
        | rest => readPower false rest
      else some (none, mark :: rest)

def readMagnitude (negative : Bool) (characters : List Char) :
    Option (NumberText × List Char) := do
  let (leading, rest) ← readLeading characters
  let (fraction, rest) ← readFraction rest
  let (exponent, rest) ← readExponent rest
  return (⟨negative, leading, fraction, exponent⟩, rest)

def readNumberText : List Char → Option (NumberText × List Char)
  | '-' :: rest => readMagnitude true rest
  | characters => readMagnitude false characters

namespace NumberText

def toDecimal (number : NumberText) : Decimal where
  negative := number.negative
  coefficient := Decimal.digitsValue (number.leading ++ number.fraction.getD [])
  exponent := number.exponent.getD 0 - ((number.fraction.getD []).length : Int)

/-- The whole number that a text without point and exponent denotes, if it fits
64 bits. There is no negative whole zero. -/
def whole? (number : NumberText) : Option Int :=
  if number.fraction.isNone ∧ number.exponent.isNone then
    let magnitude := Decimal.digitsValue number.leading
    if number.negative then
      if 0 < magnitude ∧ magnitude ≤ Nat.pow 2 63 then some (-(magnitude : Int)) else none
    else if magnitude < Nat.pow 2 64 then some magnitude else none
  else none

/-- The value of a number; one beyond the doubles is refused. -/
def toJson (number : NumberText) : Option Json :=
  match number.whole? with
  | some value => some (.whole value)
  | none =>
      let value := number.toDecimal.toFloat
      if value.isFinite then some (.real value) else none

end NumberText

def readNumber (characters : List Char) : Option (Json × List Char) := do
  let (number, rest) ← readNumberText characters
  let value ← number.toJson
  return (value, rest)

end CanCodec.Json
