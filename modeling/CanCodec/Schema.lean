import CanCodec.Fault

/-! # Schemas

A `Schema` is a catalog in which no message breaks a rule of CAN frames or of
signals. Frame ids are distinct over standard and extended frames together. The rules
are tried message by message, in a fixed order within each message, and the first one
broken is reported. -/

namespace CanCodec

/-- The first rule that a signal breaks: its scale before its length. -/
def Signal.violation? (message : String) (signal : Signal) : Option Fault :=
  if signal.linear.scale == 0 || !signal.linear.scale.isFinite then
    some (.badScale message signal.name)
  else if signal.length = 0 ∨ 64 < signal.length then
    some (.badLength message signal.name signal.length)
  else none

def Message.violation? (earlier : List Message) (message : Message) : Option Fault :=
  if message.idLimit < message.frameId then
    some (.badMessage message.name (.idRange message.frameId message.extended))
  else if Message.maxLength < message.length then
    some (.badMessage message.name (.payloadLength message.length))
  else
    match earlier.find? fun other => other.frameId = message.frameId with
    | some other => some (.duplicateFrame message.frameId other.name message.name)
    | none => message.signals.findSome? (Signal.violation? message.name)

def firstViolation : (earlier : List Message) → List Message → Option Fault
  | _, [] => none
  | earlier, message :: rest =>
      match message.violation? earlier with
      | some fault => some fault
      | none => firstViolation (message :: earlier) rest

structure Schema where
  version : Option String
  messages : List Message
  sound : firstViolation [] messages = none

namespace Schema

def accept (version : Option String) (messages : List Message) : Except Fault Schema :=
  match sound : firstViolation [] messages with
  | none => .ok ⟨version, messages, sound⟩
  | some fault => .error fault

end Schema

/-! ## Choices in range -/

/-- The smallest choice that a signal's bits cannot carry. -/
def Signal.choiceViolation? (message : String) (signal : Signal) : Option Fault := do
  let choices ← signal.choices
  let entry ← choices.entries.find? fun entry => !signal.range.contains entry.1
  return .badChoice message signal.name entry.1 entry.2

def Schema.choiceViolation? (schema : Schema) : Option Fault :=
  schema.messages.findSome? fun message =>
    message.signals.findSome? (Signal.choiceViolation? message.name)

end CanCodec
