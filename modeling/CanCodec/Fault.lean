import CanCodec.Message
import CanCodec.Text.Hexadecimal

/-! # Faults

Every way in which a catalog, a layout or a coding step is refused is a constructor;
its wording is one function. -/

namespace CanCodec

inductive LayoutReason
  /-- The bits from `start` up to `stop` do not fit `available` bits. -/
  | exceeds (start stop available : Nat)
  /-- A bit of byte `byte` already belongs to the signal `other`. -/
  | overlaps (other : String) (byte : Nat)
  deriving Repr, DecidableEq

structure LayoutFault where
  message : String
  signal : String
  reason : LayoutReason
  deriving Repr, DecidableEq

inductive MessageReason
  | idRange (frameId : Nat) (extended : Bool)
  | payloadLength (length : Nat)
  deriving Repr, DecidableEq

inductive Fault
  | layout (fault : LayoutFault)
  | truncated (frameId expected actual : Nat)
  | unknownFrame (frameId : Nat)
  | badMessage (message : String) (reason : MessageReason)
  /-- A scale that is zero or not finite. -/
  | badScale (message signal : String)
  | badLength (message signal : String) (length : Nat)
  /-- A choice that the signal's bits cannot carry. -/
  | badChoice (message signal : String) (value : Int) (name : String)
  | unknownChoice (signal name : String)
  | duplicateFrame (frameId : Nat) (first second : String)
  deriving Repr, DecidableEq

/-- Why a computation has no result: it is refused, or an integer of the machine overflows
and the program stops. -/
inductive Failure (ε : Type)
  | fault (fault : ε)
  | overflow
  deriving Repr, DecidableEq

def LayoutReason.text : LayoutReason → String
  | .exceeds start stop available => s!"bits {start}..{stop} exceed the {available} bit frame"
  | .overlaps other byte => s!"overlaps signal '{other}' in byte {byte}"

def LayoutFault.text (fault : LayoutFault) : String :=
  s!"layout overflow in message '{fault.message}', signal '{fault.signal}': {fault.reason.text}"

def MessageReason.text : MessageReason → String
  | .idRange frameId extended =>
      "frame id 0x" ++ Text.hex frameId ++ " exceeds the " ++
        (if extended then "29 bit" else "11 bit") ++ " id range"
  | .payloadLength length =>
      s!"length {length} exceeds the {Message.maxLength} byte CAN FD payload"

def Fault.text : Fault → String
  | .layout fault => fault.text
  | .truncated frameId expected actual =>
      "truncated frame 0x" ++ Text.hex frameId ++
        s!": expected {expected} bytes, got {actual}"
  | .unknownFrame frameId => "unknown message with frame id 0x" ++ Text.hex frameId
  | .badMessage message reason => s!"invalid message '{message}': {reason.text}"
  | .badScale message signal =>
      s!"signal '{signal}' in message '{message}' has a scale of zero"
  | .badLength message signal length =>
      s!"invalid signal '{signal}' in message '{message}': bit length {length} is outside 1..=64"
  | .badChoice message signal value name =>
      s!"choice {value} ('{name}') of signal '{signal}' in message '{message}' is not representable"
  | .unknownChoice signal name => s!"signal '{signal}' has no choice named '{name}'"
  | .duplicateFrame frameId first second =>
      "frame id 0x" ++ Text.hex frameId ++ s!" is used by both '{first}' and '{second}'"

end CanCodec
