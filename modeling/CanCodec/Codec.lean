import CanCodec.Event
import CanCodec.Record
import CanCodec.Storage

/-! # Codecs

A codec turns records into payloads and back along the bit plan of its message. -/

namespace CanCodec

abbrev Payload := List Byte

/-! ## Words in a payload -/

namespace Payload

def zeros (length : Nat) : Payload := List.replicate length 0

def putSegment (word : Word) (payload : Payload) (segment : Segment) : Payload :=
  payload.modify segment.byteIndex (· ||| segment.pack word)

def put (payload : Payload) (segments : List Segment) (word : Word) : Payload :=
  segments.foldl (putSegment word) payload

def gather (payload : Payload) (segments : List Segment) : Word :=
  segments.foldl
    (fun word segment => word ||| segment.unpack (payload.getD segment.byteIndex 0)) 0

end Payload

/-- The raw value that the bits of a word denote: two's complement of the signal's length
if it is signed. -/
def Signal.interpret (signal : Signal) (word : Word) : Int :=
  if signal.signed then (word.setWidth (min signal.length 64)).toInt else word.toNat

namespace Field

def write (payload : Payload) (field : Field) (raw : Int) : Payload :=
  payload.put field.segments (BitVec.ofInt 64 raw)

def read (payload : Payload) (field : Field) : Int :=
  field.signal.interpret (payload.gather field.segments)

end Field

/-! ## Codecs of messages -/

structure Codec where
  message : Message
  layout : RecordLayout

namespace Codec

def plan (message : Message) (packed strict : Bool) : Except LayoutFault Codec :=
  (Frame.planMessage message strict).map fun placed =>
    ⟨message, .ofPlan message.name packed placed⟩

def frameId (codec : Codec) : Nat := codec.message.frameId

def name (codec : Codec) : String := codec.message.name

def wireLength (codec : Codec) : Nat := codec.message.length

def fields (codec : Codec) : List Field := codec.layout.fields

def rawValues (codec : Codec) (record : Record) : Except (Failure Fault) (List Int) :=
  codec.fields.mapM fun field => field.signal.rawOf record

/-- The payload that carries a record. Names that no signal has are ignored. -/
def encode (codec : Codec) (record : Record) : Except (Failure Fault) Payload :=
  (codec.rawValues record).map fun raws =>
    (codec.fields.zip raws).foldl (fun payload entry => entry.1.write payload entry.2)
      (Payload.zeros codec.wireLength)

def checkLength (codec : Codec) (payload : Payload) : Except Fault Unit :=
  if payload.length < codec.wireLength then
    .error (.truncated codec.frameId codec.wireLength payload.length)
  else .ok ()

def decodeRaw (codec : Codec) (payload : Payload) : Except Fault (OrderedMap String Int) :=
  (codec.checkLength payload).map fun _ =>
    .ofList (codec.fields.map fun field => (field.name, field.read payload))

/-- The record that a payload carries. Bytes after the message are ignored. -/
def decode (codec : Codec) (payload : Payload) : Except Fault Record :=
  (codec.checkLength payload).map fun _ =>
    .ofList (codec.fields.map fun field =>
      (field.name, field.signal.present (field.read payload)))

/-! ## Warnings -/

def givenEvents (message : String) (signal : Signal) : FieldValue → List Event
  | .real physical =>
      if signal.isInRange physical then [] else [.clamped message signal.name physical]
  | .integer _ => []
  | .choice _ => []

def sentEvents (message : String) (signal : Signal) (raw : Int) : FieldValue → List Event
  | .integer requested =>
      if signal.isUnscaled && requested != raw then
        [.saturated message signal.name requested raw]
      else []
  | .real _ => []
  | .choice _ => []

/-- What is reported while the fields of a record are encoded, up to the first field
that cannot be. -/
def fieldEvents (message : String) (record : Record) : List Field → List Event
  | [] => []
  | field :: rest =>
      let given := (record.get? field.name).toList
      given.flatMap (givenEvents message field.signal) ++
        match field.signal.rawOf record with
        | .error _ => []
        | .ok raw =>
            given.flatMap (sentEvents message field.signal raw) ++
              fieldEvents message record rest

def encodeEvents (codec : Codec) (record : Record) : List Event :=
  fieldEvents codec.name record codec.fields

end Codec

end CanCodec
