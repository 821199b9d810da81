import CanCodec.Fault
import CanCodec.Decimal.Style

/-! # Events

What a run reports beside its result. An event is shown as a headline and named
details. -/

namespace CanCodec

inductive Severity
  | info
  | warning
  deriving Repr, DecidableEq

inductive Event
  /-- A physical value outside the declared bounds was sent as the bound. -/
  | clamped (message signal : String) (physical : Float)
  /-- A whole number outside the signal's range was sent as the nearest in range. -/
  | saturated (message signal : String) (requested raw : Int)
  /-- A message was left out because a signal has no place in it. -/
  | leftOut (fault : LayoutFault)
  | wroteRecords (header directory : String) (messages skipped : Nat)
  | wroteTransceiver (directory : String) (messages skipped : Nat)
  | wroteDefinitions (directory : String) (files : Nat)

namespace Event

def severity : Event → Severity
  | .clamped .. | .saturated .. | .leftOut .. => .warning
  | .wroteRecords .. | .wroteTransceiver .. | .wroteDefinitions .. => .info

def headline : Event → String
  | .clamped .. => "value clamped to declared range"
  | .saturated .. => "value saturated to signal range"
  | .leftOut .. => "skipping message"
  | .wroteRecords header directory messages skipped =>
      s!"Generated {header} in {directory} for {messages} message(s), {skipped} skipped."
  | .wroteTransceiver directory messages skipped =>
      s!"Generated transceiver in {directory} for {messages} message(s), {skipped} skipped."
  | .wroteDefinitions directory files => s!"Generated {files} .msg file(s) in {directory}."

def details : Event → List (String × String)
  | .clamped message signal physical =>
      [("message", message), ("signal", signal), ("physical", FloatStyle.plain.write physical)]
  | .saturated message signal requested raw =>
      [("message", message), ("signal", signal), ("requested", toString requested),
        ("raw", toString raw)]
  | .leftOut fault => [("message", fault.message), ("error", fault.text)]
  | .wroteRecords .. | .wroteTransceiver .. | .wroteDefinitions .. => []

end Event

end CanCodec
