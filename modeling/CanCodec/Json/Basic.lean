import CanCodec.OrderedMap
import CanCodec.Decimal.Basic

/-! # JSON values

Numbers are whole numbers or doubles, as their text says: a number without point
and exponent is whole when it fits 64 bits, every other number is a double. The
entries of an object keep their order. -/

namespace CanCodec

inductive Json where
  | null
  | bool (value : Bool)
  | whole (value : Int)
  | real (value : Float)
  | text (value : String)
  | array (elements : List Json)
  | object (entries : List (String × Json))

namespace Json

def member? (key : String) (entries : List (String × Json)) : Option Json :=
  lookupKey key entries

def text? : Json → Option String
  | .text value => some value
  | _ => none

def bool? : Json → Option Bool
  | .bool value => some value
  | _ => none

def array? : Json → Option (List Json)
  | .array elements => some elements
  | _ => none

def object? : Json → Option (List (String × Json))
  | .object entries => some entries
  | _ => none

def natural? : Json → Option Nat
  | .whole value => if 0 ≤ value then some value.toNat else none
  | _ => none

def integer? : Json → Option Int
  | .whole value =>
      if -(Nat.pow 2 63 : Int) ≤ value ∧ value < Nat.pow 2 63 then some value else none
  | _ => none

def real? : Json → Option Float
  | .whole value => some (Float.ofInt value)
  | .real value => some value
  | _ => none

end Json

end CanCodec
