import CanCodec.Codec
import CanCodec.Schema

/-! # Codebooks

A codebook holds the codecs of a schema in catalog order. A strict plan takes every
message or fails; a lenient plan leaves out the messages with a signal that has no
place, and remembers why. -/

namespace CanCodec

structure Options where
  /-- What every generated C identifier starts with. -/
  database : String := "can"
  /-- Store signals bit by bit. -/
  packed : Bool := false
  /-- Fail instead of leaving out a message. -/
  strict : Bool := true
  deriving Repr, DecidableEq

structure Codebook where
  codecs : List Codec
  skipped : List LayoutFault

namespace Codebook

def planAll (packed : Bool) (messages : List Message) : Except LayoutFault (List Codec) :=
  messages.mapM fun message => Codec.plan message packed true

/-- Plan a schema strictly. Choices are checked before any layout. -/
def planStrict (schema : Schema) (packed : Bool) : Except Fault Codebook :=
  match schema.choiceViolation? with
  | some fault => .error fault
  | none =>
      match planAll packed schema.messages with
      | .error fault => .error (.layout fault)
      | .ok codecs => .ok ⟨codecs, []⟩

def planSome (packed : Bool) : List Message → Codebook
  | [] => ⟨[], []⟩
  | message :: rest =>
      let others := planSome packed rest
      match Codec.plan message packed false with
      | .ok codec => { others with codecs := codec :: others.codecs }
      | .error fault => { others with skipped := fault :: others.skipped }

def plan (schema : Schema) (options : Options) : Except Fault Codebook :=
  if options.strict then planStrict schema options.packed
  else .ok (planSome options.packed schema.messages)

def events (codebook : Codebook) : List Event := codebook.skipped.map Event.leftOut

end Codebook

end CanCodec
