import CanCodec.C.Control
import CanCodec.C.Declarations
import CanCodec.C.Transfer

/-! # Functions that pack and unpack a record -/

namespace CanCodec.C

def rawVariable (signal : Signal) : Object := .named (memberName signal ++ "_raw")

def rawVariables (fields : List Field) : Document :=
  fields.map fun field =>
    .code s!"    {field.primitive.unsigned.cName} {(rawVariable field.signal).text};"

def sizeTest (options : Options) (message : Message) (rest : Block) : Block :=
  .test (.less (.variable "size") (.symbol (lengthMacro options message)))
    (.give (.failure .invalid)) rest

def packStatements (field : Field) : List Statement :=
  let raw := rawVariable field.signal
  .assign
      { target := raw
        source := .value
          (.cast field.primitive.unsigned (.read (.member "src_p" (memberName field.signal)))) } ::
    field.segments.map (packStatement raw field.primitive.width)

def packField (field : Field) : Document :=
  .blank :: (packStatements field).map fun statement => .code statement.text

def clearItems (options : Options) (message : Message) : Document :=
  if message.length = 0 then []
  else [.code s!"    memset(&dst_p[0], 0, {(lengthMacro options message).name});"]

def packProcedure (options : Options) (codec : Codec) : Procedure where
  signature :=
    { result := .int
      name := packName options codec.message
      parameters :=
        [⟨.pointer "uint8_t", "dst_p"⟩,
          ⟨.pointer s!"const struct {recordTag options codec.message}", "src_p"⟩,
          ⟨.size, "size"⟩] }
  body :=
    .plain (rawVariables codec.fields ++
        if codec.fields.isEmpty then [.code "    (void)src_p;"] else []) <|
    .blank <|
    sizeTest options codec.message <|
    .blank <|
    .plain (clearItems options codec.message ++ codec.fields.flatMap packField) <|
    .blank <|
    .give (.symbol (lengthMacro options codec.message))

def packFunction (options : Options) (codec : Codec) : Document :=
  let procedure := packProcedure options codec
  .doc "" [docLine s!"Pack message {codec.message.name}.", docBreak,
      docLine "@return Size of packed data, or negative error code."] ::
    procedure.document ("static inline " ++ procedure.signature.tallText) ++ [.blank]

def rawStatements (field : Field) : List Statement :=
  let raw := rawVariable field.signal
  gatherStatements raw field.primitive.width field.segments ++ extendStatements raw field

def memberExpression (field : Field) : Expression :=
  .cast field.primitive (.read (rawVariable field.signal))

def unpackStatements (field : Field) : List Statement :=
  rawStatements field ++
    [.assign
      { target := .member "dst_p" (memberName field.signal)
        source := .value (memberExpression field) }]

def unpackField (field : Field) : Document :=
  .blank :: (unpackStatements field).map fun statement => .code statement.text

def unpackProcedure (options : Options) (codec : Codec) : Procedure where
  signature :=
    { result := .int
      name := unpackName options codec.message
      parameters :=
        [⟨.pointer s!"struct {recordTag options codec.message}", "dst_p"⟩,
          ⟨.pointer "const uint8_t", "src_p"⟩, ⟨.size, "size"⟩] }
  body :=
    .plain (rawVariables codec.fields ++
        if codec.fields.isEmpty then [.code "    (void)dst_p;\n    (void)src_p;"] else []) <|
    .blank <|
    sizeTest options codec.message <|
    .plain (codec.fields.flatMap unpackField) <|
    .blank <|
    .give .zero

def unpackFunction (options : Options) (codec : Codec) : Document :=
  let procedure := unpackProcedure options codec
  .doc "" [docLine s!"Unpack message {codec.message.name}.", docBreak,
      docLine "@return zero(0) or negative error code."] ::
    procedure.document ("static inline " ++ procedure.signature.tallText) ++ [.blank]

end CanCodec.C
