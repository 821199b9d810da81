/-! # Reading whole numbers of a bounded range

A numeral is an optional sign and at least one digit. Digits are read from the
left, and the first defect met decides the answer: a character that is no digit,
or the digit at which the value leaves the range. -/

namespace CanCodec.Text

inductive NumeralProblem
  | empty
  | badDigit
  | tooLarge
  | tooSmall
  deriving Repr, DecidableEq

def NumeralProblem.message : NumeralProblem → String
  | .empty => "cannot parse integer from empty string"
  | .badDigit => "invalid digit found in string"
  | .tooLarge => "number too large to fit in target type"
  | .tooSmall => "number too small to fit in target type"

/-- The value of a digit below `radix`; letters of either case count from ten. -/
def digitValue? (radix : Nat) (character : Char) : Option Nat :=
  let value? :=
    if character.isDigit then some (character.toNat - '0'.toNat)
    else if character.isLower then some (character.toNat - 'a'.toNat + 10)
    else if character.isUpper then some (character.toNat - 'A'.toNat + 10)
    else none
  value?.filter (· < radix)

/-- Read digits after `value`, refusing a value above `limit` with `overflow`. -/
def readDigits (radix limit : Nat) (overflow : NumeralProblem) (value : Nat) :
    List Char → Except NumeralProblem Nat
  | [] => .ok value
  | character :: rest =>
      match digitValue? radix character with
      | none => .error .badDigit
      | some digit =>
          let value := value * radix + digit
          if limit < value then .error overflow else readDigits radix limit overflow value rest

/-- Read a natural number up to `limit`. A plus sign may stand before it. -/
def readNatural (radix limit : Nat) : List Char → Except NumeralProblem Nat
  | [] => .error .empty
  | ['+'] => .error .badDigit
  | '+' :: rest => readDigits radix limit .tooLarge 0 rest
  | characters => readDigits radix limit .tooLarge 0 characters

/-- Read an integer between `-(limit + 1)` and `limit`. Either sign may stand before it. -/
def readInteger (radix limit : Nat) : List Char → Except NumeralProblem Int
  | ['-'] => .error .badDigit
  | '-' :: rest =>
      (readDigits radix (limit + 1) .tooSmall 0 rest).map fun magnitude => -(magnitude : Int)
  | characters => (readNatural radix limit characters).map fun magnitude => (magnitude : Int)

example : readInteger 10 127 "-128".toList = .ok (-128) := rfl
example : readInteger 10 127 "+127".toList = .ok 127 := rfl
example : readInteger 10 127 "128x".toList = .error .tooLarge := rfl
example : readInteger 10 127 "12x8".toList = .error .badDigit := rfl
example : readNatural 16 255 "fF".toList = .ok 255 := rfl
example : readNatural 10 255 "-1".toList = .error .badDigit := rfl

end CanCodec.Text
