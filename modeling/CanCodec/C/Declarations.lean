import CanCodec.C.Literal
import CanCodec.C.Naming
import CanCodec.C.Syntax

/-! # Macros and records of a message -/

namespace CanCodec.C

/-! ## Macros -/

structure Macro where
  name : String
  body : String
  deriving Repr, DecidableEq

def Macro.text (constant : Macro) : String := s!"#define {constant.name} ({constant.body})"

def choiceMacros (stem : String) (signal : Signal) : List Macro :=
  match signal.choices with
  | none => []
  | some choices => choices.entries.map fun entry =>
      { name := s!"{stem}_{Identifier.upper signal.name}_{Identifier.upper entry.2}_CHOICE"
        body := (IntegerLiteral.ofValue (.ofBits signal.length signal.signed) entry.1).text }

def ConstantMacro.definition (constant : ConstantMacro) : Macro :=
  ⟨constant.name, constant.constant.text⟩

def frameIdMacro (options : Options) (message : Message) : ConstantMacro where
  name := macroName options message ++ "_FRAME_ID"
  constant := { value := message.frameId, digits := .hexadecimalByte }

def lengthMacro (options : Options) (message : Message) : ConstantMacro where
  name := macroName options message ++ "_LENGTH"
  constant := { value := message.length }

def messageMacros (options : Options) (message : Message) : List Macro :=
  let stem := macroName options message
  [(frameIdMacro options message).definition, (lengthMacro options message).definition,
    ⟨stem ++ "_IS_EXTENDED", if message.extended then "1" else "0"⟩] ++
  (message.cycleTime.map fun period =>
    Macro.mk (stem ++ "_CYCLE_TIME_MS") s!"{period}u").toList ++
  message.signals.flatMap (choiceMacros stem)

def macroItems (options : Options) (message : Message) : Document :=
  .remark s!"Frame ids, lengths and choices of {message.name}." ::
    (messageMacros options message).map fun constant => .code constant.text

/-! ## Records -/

structure Member where
  type : Primitive
  name : String
  bits : Option Nat
  deriving Repr, DecidableEq

def Member.text (member : Member) : String :=
  match member.bits with
  | some bits => s!"    {member.type.cName} {member.name} : {bits};"
  | none => s!"    {member.type.cName} {member.name};"

def fieldMember (packed : Bool) (field : Field) : Member where
  type := field.primitive
  name := memberName field.signal
  bits := if packed then some field.storageBits else none

def rangeText (signal : Signal) : String :=
  let raw := s!"Range: {signal.range.low}..{signal.range.high}"
  match signal.bounds.minimum, signal.bounds.maximum with
  | some minimum, some maximum =>
      let low := FloatStyle.plain.write minimum
      let high := FloatStyle.plain.write maximum
      let unit := signal.unit.getD "-"
      s!"{raw} ({low}..{high} {unit})"
  | _, _ => raw

def memberDoc (field : Field) : Item :=
  let signal := field.signal
  .doc "    "
    ((signal.comment.map fun comment => [docLine comment, docBreak]).getD [] ++
      [docLine (rangeText signal),
        docLine s!"Scale: {FloatStyle.plain.write signal.linear.scale}",
        docLine s!"Offset: {FloatStyle.plain.write signal.linear.offset}",
        docLine s!"Layout: start {signal.start}, length {signal.length}, {signal.byteOrder.name}"] ++
      if field.storageClass = .enumerated then [docLine "Choices: see *_CHOICE macros."] else [])

def memberItems (packed : Bool) (field : Field) : Document :=
  [memberDoc field, .code (fieldMember packed field).text]

def memberList (packed : Bool) : List Field → Document
  | [] => [.doc "    " [docLine "Dummy signal in empty message."], .code "    uint8_t dummy;"]
  | [field] => memberItems packed field
  | field :: rest => memberItems packed field ++ .blank :: memberList packed rest

def recordDoc (codec : Codec) : Item :=
  let message := codec.message
  .doc ""
    ([docLine s!"Signals in message {message.name}.", docBreak] ++
      (message.comment.map fun comment => [docLine comment, docBreak]).getD [] ++
      (if message.senders.isEmpty then []
        else [docLine ("Senders: " ++ ", ".intercalate message.senders)]) ++
      [docLine s!"Record storage: {codec.layout.sizeBytes} bytes.", docBreak,
        docLine "All signal values are as on the CAN bus."])

def recordItems (options : Options) (codec : Codec) : Document :=
  [recordDoc codec, .code s!"struct {recordTag options codec.message} \x7b"] ++
    memberList codec.layout.packed codec.fields ++ [.code "\x7d;"]

end CanCodec.C
