import CanCodec.Decimal.Style
import CanCodec.Storage

/-! # C constants -/

namespace CanCodec.C

/-- A floating constant: the literal style, with a point added where it has none. -/
def floatLiteral (value : Float) : String :=
  let characters := (FloatStyle.literal.write value).toList
  if characters.any fun character => character = '.' ∨ character = 'e' ∨ character = 'E' then
    String.ofList characters
  else String.ofList (characters ++ ['.', '0'])

inductive IntegerLiteral
  | min64
  | min32
  /-- A decimal constant, negated if the value is, with `ll` if it is long. -/
  | signed (value : Int) (long : Bool)
  /-- A decimal constant with `u`, or `ull` if it is long. -/
  | unsigned (value : Int) (long : Bool)
  deriving Repr, DecidableEq

namespace IntegerLiteral

/-- The literal of a value of an integer type. The smallest integers have no decimal
constant that can be negated. -/
def ofValue (primitive : Primitive) (value : Int) : IntegerLiteral :=
  let long := 32 < primitive.bits
  if primitive.signed then
    if value = -(Nat.pow 2 63 : Int) then .min64
    else if value = -(Nat.pow 2 31 : Int) then .min32
    else .signed value long
  else .unsigned value long

def text : IntegerLiteral → String
  | .min64 => "INT64_MIN"
  | .min32 => "INT32_MIN"
  | .signed value long => toString value ++ if long then "ll" else ""
  | .unsigned value long => toString value ++ if long then "ull" else "u"

end IntegerLiteral

example : (IntegerLiteral.ofValue (.ofBits 12 true) (-2048)).text = "-2048" := by decide
example : (IntegerLiteral.ofValue (.ofBits 64 true) (-9223372036854775808)).text = "INT64_MIN" := by
  decide
example : (IntegerLiteral.ofValue (.ofBits 8 false) 255).text = "255u" := by decide

end CanCodec.C
