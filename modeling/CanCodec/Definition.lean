import CanCodec.Codebook
import CanCodec.Text.Identifier
import CanCodec.Text.Lines

/-! # Interchange definitions

One `.msg` definition for each message. Free text stands in lines that start with `#`;
the other lines declare constants and fields. -/

namespace CanCodec.Definition

inductive Line
  | blank
  /-- A line of free text. -/
  | note (text : String)
  | constant (type name value : String)
  | field (type name : String) (default : Option String)
  deriving Repr, DecidableEq

def Line.text : Line → String
  | .blank => "\n"
  | .note text => "# " ++ text ++ "\n"
  | .constant type name value => s!"{type} {name}={value}\n"
  | .field type name none => s!"{type} {name}\n"
  | .field type name (some value) => s!"{type} {name} {value}\n"

def noteLines (text : Option String) : List Line :=
  ((text.map Text.lines).getD []).map Line.note

def boundsLines (bounds : Bounds Float) : List Line :=
  let plain := FloatStyle.plain.write
  match bounds.minimum, bounds.maximum with
  | some minimum, some maximum => [.note s!"Range: {plain minimum}..{plain maximum}"]
  | some minimum, none => [.note s!"Minimum: {plain minimum}"]
  | none, some maximum => [.note s!"Maximum: {plain maximum}"]
  | none, none => []

def fieldName (signal : Signal) : String := Identifier.ofCamel signal.name

def fieldType (field : Field) : String :=
  match field.storageClass with
  | .physical => "float64"
  | .raw | .enumerated => field.primitive.msgName

def constantLines (field : Field) : List Line :=
  let stem := Identifier.upper (fieldName field.signal)
  match field.signal.choices with
  | none => []
  | some choices => choices.entries.map fun entry =>
      .constant field.primitive.msgName s!"{stem}_{Identifier.upper entry.2}" (toString entry.1)

def defaultText (field : Field) : Option String :=
  field.signal.initial.map fun initial =>
    match field.storageClass with
    | .physical => FloatStyle.literal.write (field.signal.toPhysical initial)
    | .raw | .enumerated => toString initial

def fieldLines (field : Field) : List Line :=
  let signal := field.signal
  [.blank] ++ noteLines signal.comment ++
    (signal.unit.map fun unit => Line.note s!"Unit: {unit}").toList ++
    boundsLines signal.bounds ++ constantLines field ++
    [.field (fieldType field) (fieldName signal) (defaultText field)]

def headLines (message : Message) : List Line :=
  let extended := if message.extended then ", extended" else ""
  let frameId := Text.hex message.frameId
  [.note s!"{message.name} (frame id 0x{frameId}{extended}, {message.length} bytes)"] ++
    noteLines message.comment ++
    (message.cycleTime.map fun period => Line.note s!"Cycle time: {period} ms").toList

def lines (codec : Codec) : List Line :=
  headLines codec.message ++ codec.fields.flatMap fieldLines

def text (codec : Codec) : String := String.join ((lines codec).map Line.text)

def stem (codec : Codec) : String := Identifier.pascal codec.name

/-- The definitions of a codebook by name. Of two messages with one name the later one
counts. -/
def all (codebook : Codebook) : OrderedMap String String :=
  .ofList (codebook.codecs.map fun codec => (stem codec, text codec))

end CanCodec.Definition
