import CanCodec.Frame.Plan

/-! # Record storage

How the signals of a message are stored side by side in a record: in whole integers,
each at a multiple of its width, or packed bit by bit. -/

namespace CanCodec

inductive Width
  | w8
  | w16
  | w32
  | w64
  deriving Repr, DecidableEq

def Width.bits : Width → Nat
  | .w8 => 8
  | .w16 => 16
  | .w32 => 32
  | .w64 => 64

structure Primitive where
  width : Width
  signed : Bool
  deriving Repr, DecidableEq

namespace Primitive

def ofBits (length : Nat) (signed : Bool) : Primitive where
  width := if length ≤ 8 then .w8 else if length ≤ 16 then .w16 else if length ≤ 32 then .w32
    else .w64
  signed := signed

def bits (primitive : Primitive) : Nat := primitive.width.bits

def byteLength (primitive : Primitive) : Nat := primitive.bits / 8

def unsigned (primitive : Primitive) : Primitive := { primitive with signed := false }

def msgName (primitive : Primitive) : String :=
  (if primitive.signed then "int" else "uint") ++ toString primitive.bits

def cName (primitive : Primitive) : String := primitive.msgName ++ "_t"

example : (ofBits 9 true).cName = "int16_t" := by decide

end Primitive

inductive StorageClass
  /-- Itself. -/
  | raw
  /-- One of several choices. -/
  | enumerated
  /-- A scaled physical value. -/
  | physical
  deriving Repr, DecidableEq

def StorageClass.ofSignal (signal : Signal) : StorageClass :=
  if signal.choices.any fun choices => !choices.isEmpty then .enumerated
  else if signal.isUnscaled then .raw
  else .physical

/-! ## Layouts -/

/-- The storage of one signal: `storageBits` bits from bit `offset` of the record on. -/
structure Field where
  /-- The place of the signal in its message. -/
  index : Nat
  signal : Signal
  segments : List Segment
  storageBits : Nat
  offset : Nat

namespace Field

def name (field : Field) : String := field.signal.name

def primitive (field : Field) : Primitive :=
  .ofBits field.signal.length field.signal.signed

def storageClass (field : Field) : StorageClass := .ofSignal field.signal

def stop (field : Field) : Nat := field.offset + field.storageBits

end Field

structure RecordLayout where
  message : String
  fields : List Field
  sizeBytes : Nat
  packed : Bool

namespace RecordLayout

def ceilDiv (value unit : Nat) : Nat := (value + unit - 1) / unit

/-- The least multiple of `unit` that is not below `value`. -/
def alignUp (value unit : Nat) : Nat := ceilDiv value unit * unit

def layField (packed : Bool) (cursor index : Nat) (placed : Frame.Placed) : Field :=
  let bits := (Primitive.ofBits placed.signal.length placed.signal.signed).bits
  { index
    signal := placed.signal
    segments := placed.segments
    storageBits := if packed then placed.signal.length else bits
    offset := if packed then cursor else alignUp cursor bits }

def layFields (packed : Bool) : (cursor index : Nat) → List Frame.Placed → List Field
  | _, _, [] => []
  | cursor, index, placed :: rest =>
      let field := layField packed cursor index placed
      field :: layFields packed field.stop (index + 1) rest

def stop (fields : List Field) : Nat := fields.foldl (fun _ field => field.stop) 0

def alignment (fields : List Field) : Nat :=
  fields.foldl (fun widest field => max widest field.primitive.bits) 8

/-- The layout of a planned message. A layout of whole integers ends at a multiple of
its widest integer. -/
def ofPlan (message : String) (packed : Bool) (placed : List Frame.Placed) : RecordLayout :=
  let fields := layFields packed 0 0 placed
  { message
    fields
    sizeBytes :=
      ceilDiv (if packed then stop fields else alignUp (stop fields) (alignment fields)) 8
    packed }

def field? (layout : RecordLayout) (name : String) : Option Field :=
  layout.fields.find? fun field => field.name = name

end RecordLayout

end CanCodec
