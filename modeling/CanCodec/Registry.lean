import CanCodec.Codebook

/-! # Registries

A registry finds the codec of a frame id. -/

namespace CanCodec

structure Registry where
  codecs : AscendingMap Nat Codec := .empty
  skipped : List LayoutFault := []

namespace Registry

def empty : Registry := {}

def register (registry : Registry) (codec : Codec) : Registry :=
  { registry with codecs := registry.codecs.insert codec.frameId codec }

def ofCodebook (codebook : Codebook) : Registry :=
  codebook.codecs.foldl register { skipped := codebook.skipped }

def ofSchema (schema : Schema) (options : Options) : Except Fault Registry :=
  (Codebook.plan schema options).map ofCodebook

def codec (registry : Registry) (frameId : Nat) : Except Fault Codec :=
  match registry.codecs.get? frameId with
  | some codec => .ok codec
  | none => .error (.unknownFrame frameId)

def send (registry : Registry) (frameId : Nat) (record : Record) :
    Except (Failure Fault) Payload := do
  (← (registry.codec frameId).mapError .fault).encode record

def receive (registry : Registry) (frameId : Nat) (payload : Payload) :
    Except Fault Record := do
  (← registry.codec frameId).decode payload

def sendEvents (registry : Registry) (frameId : Nat) (record : Record) : List Event :=
  match registry.codec frameId with
  | .ok codec => codec.encodeEvents record
  | .error _ => []

def frameIds (registry : Registry) : List Nat := registry.codecs.keys

def size (registry : Registry) : Nat := registry.codecs.size

def isEmpty (registry : Registry) : Bool := registry.codecs.isEmpty

end Registry

end CanCodec
