import CanCodec.Signal

/-! # Raw and physical values

Conversions are written over any arithmetic that can round to a whole number, so that
the same rules run on doubles and can be read over exact numbers. -/

namespace CanCodec

/-- The arithmetic of physical values. A comparison with something that is not a number
is false, and what is not a number rounds to zero. -/
class Quantity (α : Type) extends Add α, Sub α, Mul α, Div α where
  ofInt : Int → α
  isNumber : α → Bool
  less : α → α → Bool
  atMost : α → α → Bool
  /-- The nearest whole number; a half goes away from zero. -/
  nearest : α → Int

/-! ## Doubles -/

/-- The whole number nearest to `mantissa · 2 ^ exponent`; a half goes up. -/
def nearestNatural (mantissa : Nat) (exponent : Int) : Nat :=
  if exponent < 0 then
    (2 * mantissa + Nat.pow 2 exponent.natAbs) / Nat.pow 2 (exponent.natAbs + 1)
  else mantissa * Nat.pow 2 exponent.natAbs

/-- The whole number nearest to a double. An infinity counts as the power of two that is
just past the doubles. -/
def nearestInt (value : Float) : Int :=
  match value.toModel.unpack with
  | .notANumber => 0
  | .infinity .positive => Nat.pow 2 1024
  | .infinity .negative => -(Nat.pow 2 1024 : Int)
  | .zero _ => 0
  | .finite .positive mantissa exponent _ => nearestNatural mantissa exponent
  | .finite .negative mantissa exponent _ => -(nearestNatural mantissa exponent : Int)

instance : Quantity Float where
  ofInt := Float.ofInt
  isNumber value := !value.isNaN
  less first second := first < second
  atMost first second := first ≤ second
  nearest := nearestInt

/-! ## Candidates

A raw value is sought among the integers of 128 bits before it is clamped to a
signal's range. -/

def candidateRange : RawRange := ⟨-(Nat.pow 2 127 : Int), (Nat.pow 2 127 : Int) - 1⟩

/-- A raw value, if 128 bits can hold it. -/
def candidate? (raw : Int) : Option Int :=
  if candidateRange.contains raw then some raw else none

namespace Conversion

variable {α : Type} [Quantity α]

open Quantity

def toPhysical (linear : Linear α) (raw : Int) : α := ofInt raw * linear.scale + linear.offset

/-- Move a value into declared bounds, the minimum first. A bound that is not a number
moves nothing. -/
def moveInto (bounds : Bounds α) (physical : α) : α :=
  let raised :=
    match bounds.minimum with
    | some minimum => if less physical minimum then minimum else physical
    | none => physical
  match bounds.maximum with
  | some maximum => if less maximum raised then maximum else raised
  | none => raised

def isConsistent (bounds : Bounds α) : Bool :=
  match bounds.minimum, bounds.maximum with
  | some minimum, some maximum => atMost minimum maximum
  | _, _ => true

def isWithin (bounds : Bounds α) (physical : α) : Bool :=
  bounds.minimum.all (fun minimum => atMost minimum physical) &&
    bounds.maximum.all (fun maximum => atMost physical maximum)

def step (linear : Linear α) : Int := if less (ofInt 0) linear.scale then 1 else -1

/-- Step back when a candidate has been rounded past the maximum. The step overflows if it
leaves the candidates. -/
def stepDown (linear : Linear α) (bounds : Bounds α) (raw : Int) : Option Int :=
  match bounds.maximum with
  | some maximum =>
      if less maximum (toPhysical linear raw) && isConsistent bounds then
        candidate? (raw - step linear)
      else some raw
  | none => some raw

def stepUp (linear : Linear α) (bounds : Bounds α) (raw : Int) : Option Int :=
  match bounds.minimum with
  | some minimum =>
      if less (toPhysical linear raw) minimum && isConsistent bounds then
        candidate? (raw + step linear)
      else some raw
  | none => some raw

def candidate (linear : Linear α) (bounds : Bounds α) (physical : α) : Int :=
  candidateRange.clamp
    (nearest ((moveInto bounds physical - linear.offset) / linear.scale))

/-- The nearest candidate, stepped back inside the declared bounds, unless a step overflows.
What is not a number counts as raw zero. -/
def corrected (linear : Linear α) (bounds : Bounds α) (physical : α) : Option Int :=
  if isNumber physical then do
    let lowered ← stepDown linear bounds (candidate linear bounds physical)
    stepUp linear bounds lowered
  else some 0

/-- The raw value of a physical value, clamped to `range`, unless a step overflows. -/
def toRaw (range : RawRange) (linear : Linear α) (bounds : Bounds α) (physical : α) :
    Option Int :=
  (corrected linear bounds physical).map range.clamp

end Conversion

namespace Signal

def toPhysical (signal : Signal) (raw : Int) : Float :=
  Conversion.toPhysical signal.linear raw

def toRaw (signal : Signal) (physical : Float) : Option Int :=
  Conversion.toRaw signal.range signal.linear signal.bounds physical

def isInRange (signal : Signal) (physical : Float) : Bool :=
  Conversion.isWithin signal.bounds physical

end Signal

end CanCodec
