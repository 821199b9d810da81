import CanCodec.C.Syntax

/-! # Transfers between values and bytes

Generated code moves the bits of a segment with one shift and one mask. Shared helper
functions do this, one for each direction of the move, direction of the shift and width
of the value. -/

namespace CanCodec.C

structure Transfer where
  direction : Direction
  amount : Nat
  mask : Byte
  deriving Repr, DecidableEq

namespace Transfer

def ofPacking (segment : Segment) : Transfer :=
  if segment.valueOffset ≤ segment.bitOffset then
    ⟨.left, segment.bitOffset - segment.valueOffset, segment.mask⟩
  else ⟨.right, segment.valueOffset - segment.bitOffset, segment.mask⟩

def ofUnpacking (segment : Segment) : Transfer :=
  if segment.bitOffset ≤ segment.valueOffset then
    ⟨.left, segment.valueOffset - segment.bitOffset, segment.mask⟩
  else ⟨.right, segment.bitOffset - segment.valueOffset, segment.mask⟩

end Transfer

/-! ## Helper functions -/

def byteType : Primitive := ⟨.w8, false⟩

def unsignedType (width : Width) : Primitive := ⟨width, false⟩

def widthSuffix (width : Width) : String := "u" ++ toString width.bits

def packHelperName (direction : Direction) (width : Width) : String :=
  s!"can_endec_pack_{direction.name}_shift_{widthSuffix width}"

def unpackHelperName (direction : Direction) (width : Width) : String :=
  s!"can_endec_unpack_{direction.name}_shift_{widthSuffix width}"

def helperParameters (type : Primitive) : List Parameter :=
  [⟨type, "value"⟩, ⟨byteType, "shift"⟩, ⟨byteType, "mask"⟩]

def packHelper (direction : Direction) (width : Width) : Function where
  result := byteType
  name := packHelperName direction width
  parameters := helperParameters (unsignedType width)
  body :=
    .cast byteType (.binary .and
      (.cast byteType
        (.binary (.shift direction) (.read (.named "value")) (.read (.named "shift"))))
      (.read (.named "mask")))

def unpackHelper (direction : Direction) (width : Width) : Function where
  result := unsignedType width
  name := unpackHelperName direction width
  parameters := helperParameters byteType
  body :=
    .cast (unsignedType width) (.binary (.shift direction)
      (.cast (unsignedType width) (.binary .and (.read (.named "value")) (.read (.named "mask"))))
      (.read (.named "shift")))

example : (unpackHelper .right .w32).body.text =
    "(uint32_t)((uint32_t)(value & mask) >> shift)" := by decide

def widths : List Width := [.w8, .w16, .w32, .w64]

def helpers : List Function :=
  widths.map (packHelper .left) ++ widths.map (packHelper .right) ++
    widths.map (unpackHelper .left) ++ widths.map (unpackHelper .right)

def helpersText : String :=
  "#ifndef CAN_ENDEC_HELPERS\n#define CAN_ENDEC_HELPERS\n\n" ++
    "\n".intercalate (helpers.map Function.text) ++ "\n#endif /* CAN_ENDEC_HELPERS */"

/-! ## Calls -/

def Transfer.arguments (transfer : Transfer) : List Expression :=
  [.literal { value := transfer.amount },
    .literal { value := transfer.mask.toNat, digits := .hexadecimalByte }]

def packCall (raw : Object) (width : Width) (segment : Segment) : Call :=
  let transfer := Transfer.ofPacking segment
  ⟨packHelperName transfer.direction width, .read raw :: transfer.arguments⟩

def unpackCall (width : Width) (segment : Segment) : Call :=
  let transfer := Transfer.ofUnpacking segment
  ⟨unpackHelperName transfer.direction width,
    .read (.element "src_p" segment.byteIndex) :: transfer.arguments⟩

def packStatement (raw : Object) (width : Width) (segment : Segment) : Statement :=
  .assign
    { target := .element "dst_p" segment.byteIndex
      operator := some .or
      source := .result (packCall raw width segment) }

/-- The statements that gather a variable from its segments: the first assigns, the
others add bits. -/
def gatherStatements (raw : Object) (width : Width) : List Segment → List Statement
  | [] => []
  | first :: rest =>
      .assign { target := raw, source := .result (unpackCall width first) } ::
        rest.map fun segment =>
          .assign
            { target := raw, operator := some .or, source := .result (unpackCall width segment) }

/-! ## Sign extension -/

/-- The sign bit of a signed field that is narrower than its type, and the bits that a
set sign bit brings with it. -/
structure SignExtension where
  signBit : Nat
  extension : Nat
  deriving Repr, DecidableEq

def SignExtension.ofField? (field : Field) : Option SignExtension :=
  let length := field.signal.length
  if field.signal.signed ∧ length < field.primitive.bits then
    some ⟨Nat.pow 2 (length - 1), Nat.pow 2 field.primitive.bits - Nat.pow 2 length⟩
  else none

def maskConstant (primitive : Primitive) (value : Nat) : Constant where
  value := value
  digits := .hexadecimal
  long := decide (32 < primitive.bits)

def extendStatements (raw : Object) (field : Field) : List Statement :=
  match SignExtension.ofField? field with
  | none => []
  | some sign =>
      let signBit := .literal (maskConstant field.primitive sign.signBit)
      let extension := .literal (maskConstant field.primitive sign.extension)
      [.test (.binary .notEqual (.binary .and (.read raw) signBit) (.literal { value := 0 }))
        { target := raw, operator := some .or, source := .value extension }]

end CanCodec.C
