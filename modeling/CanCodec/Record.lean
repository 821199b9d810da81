import CanCodec.Conversion
import CanCodec.Fault
import CanCodec.Json.Basic

/-! # Records

A record holds the presented values of a message's signals under their names. -/

namespace CanCodec

inductive FieldValue
  /-- A whole number: the raw value of an unscaled signal. -/
  | integer (value : Int)
  /-- The physical value of a scaled signal. -/
  | real (value : Float)
  | choice (name : String)
  deriving DecidableEq

abbrev Record := OrderedMap String FieldValue

namespace Signal

/-- The raw value of a choice; of several choices with one name the smallest counts. -/
def choiceRaw? (signal : Signal) (name : String) : Option Int := do
  let choices ← signal.choices
  let entry ← choices.entries.find? fun entry => entry.2 = name
  return entry.1

def choiceName? (signal : Signal) (raw : Int) : Option String :=
  signal.choices.bind fun choices => choices.get? raw

/-- Present a raw value: by its name if it has one, else as it is or converted. -/
def present (signal : Signal) (raw : Int) : FieldValue :=
  match signal.choiceName? raw with
  | some name => .choice name
  | none => if signal.isUnscaled then .integer raw else .real (signal.toPhysical raw)

def encodeChoice (signal : Signal) (name : String) : Except Fault Int :=
  match signal.choiceRaw? name with
  | some raw => .ok raw
  | none => .error (.unknownChoice signal.name name)

def encodeReal (signal : Signal) (physical : Float) : Except (Failure Fault) Int :=
  match signal.toRaw physical with
  | some raw => .ok raw
  | none => .error .overflow

def encode (signal : Signal) : FieldValue → Except (Failure Fault) Int
  | .integer value =>
      if signal.isUnscaled then .ok (signal.range.clamp value)
      else signal.encodeReal (Float.ofInt value)
  | .real value => signal.encodeReal value
  | .choice name => (signal.encodeChoice name).mapError .fault

def initialRaw (signal : Signal) : Int := signal.range.clamp (signal.initial.getD 0)

def rawOf (signal : Signal) (record : Record) : Except (Failure Fault) Int :=
  match record.get? signal.name with
  | some value => signal.encode value
  | none => .ok signal.initialRaw

end Signal

/-! ## JSON form -/

def FieldValue.toJson : FieldValue → Json
  | .integer value => .whole value
  | .real value => .real value
  | .choice name => .text name

def recordJson (record : Record) : Json :=
  .object (record.entries.map fun entry => (entry.1, entry.2.toJson))

end CanCodec
