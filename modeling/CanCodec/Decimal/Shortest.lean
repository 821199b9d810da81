import CanCodec.Decimal.Basic

/-! # The shortest decimal of a double

A finite double that is not zero is `m · 2 ^ q`. Among the decimals that are read
back as that double, `Decimal.shortest` takes one with the fewest digits and of
those the one nearest to the double. -/

namespace CanCodec

inductive Tie
  | away
  | even
  deriving Repr, DecidableEq

structure Fraction where
  numerator : Nat
  denominator : Nat
  deriving Repr, DecidableEq

namespace Fraction

def ofBinary (mantissa : Nat) (exponent : Int) : Fraction :=
  if exponent < 0 then ⟨mantissa, Nat.pow 2 exponent.natAbs⟩
  else ⟨mantissa * Nat.pow 2 exponent.natAbs, 1⟩

/-- The least `p` with the fraction below `10 ^ p`: the place of the decimal point
relative to the first digit. -/
def pointPlace (value : Fraction) : Int :=
  if value.denominator ≤ value.numerator then
    ((Decimal.digitsOf (value.numerator / value.denominator)).length : Int)
  else
    let gap := (value.denominator - 1) / value.numerator
    1 - if gap = 0 then 0 else ((Decimal.digitsOf gap).length : Int)

def scaleTen (value : Fraction) (power : Int) : Fraction :=
  if power < 0 then ⟨value.numerator, value.denominator * Nat.pow 10 power.natAbs⟩
  else ⟨value.numerator * Nat.pow 10 power.natAbs, value.denominator⟩

def neighbours (tie : Tie) (value : Fraction) : List Nat :=
  let below := value.numerator / value.denominator
  let rest := value.numerator % value.denominator
  if rest = 0 then [below]
  else
    let upFirst :=
      match compare (2 * rest) value.denominator, tie with
      | .lt, _ => false
      | .gt, _ => true
      | .eq, .away => true
      | .eq, .even => below % 2 = 1
    if upFirst then [below + 1, below] else [below, below + 1]

example : neighbours .even ⟨5, 2⟩ = [2, 3] := by decide
example : neighbours .away ⟨5, 2⟩ = [3, 2] := by decide

end Fraction

namespace Decimal

def candidates (tie : Tie) (value : Fraction) (point : Int) (count : Nat) : List Decimal :=
  ((value.scaleTen (count - point)).neighbours tie).map fun coefficient =>
    ⟨false, coefficient, point - count⟩

/-- The first candidate that is read back as `target`, trying `count` digits, then one
more, and so on for `tries` counts; `none` when there is none. -/
def search (tie : Tie) (target : Float) (value : Fraction) (point : Int) :
    (tries : Nat) → (count : Nat) → Option Decimal
  | 0, _ => none
  | tries + 1, count =>
      match (candidates tie value point count).find? fun decimal =>
          decimal.toFloat.toBits == target.toBits with
      | some decimal => some decimal
      | none => search tie target value point tries (count + 1)

def exactly (value : Fraction) : Decimal :=
  let places := Nat.log2 value.denominator
  ⟨false, value.numerator * Nat.pow 5 places, -(places : Int)⟩

/-- A shortest decimal of the positive double `mantissa · 2 ^ exponent`. Seventeen
digits tell any two doubles apart; the full expansion stands behind them. -/
def shortestPositive (tie : Tie) (mantissa : Nat) (exponent : Int) (target : Float) : Decimal :=
  let value := Fraction.ofBinary mantissa exponent
  (search tie target value value.pointPlace 17 1).getD (exactly value)

inductive Shape
  | notANumber
  | infinite (negative : Bool)
  | finite (decimal : Decimal)
  deriving Repr, DecidableEq

def isNegative : Float.Model.UnpackedFloat.Sign → Bool
  | .negative => true
  | .positive => false

def shapeOf (tie : Tie) (value : Float) : Shape :=
  match value.toModel.unpack with
  | .notANumber => .notANumber
  | .infinity sign => .infinite (isNegative sign)
  | .zero sign => .finite ⟨isNegative sign, 0, 0⟩
  | .finite sign mantissa exponent _ =>
      let magnitude := if isNegative sign then -value else value
      .finite
        { shortestPositive tie mantissa exponent magnitude with negative := isNegative sign }

end Decimal

end CanCodec
