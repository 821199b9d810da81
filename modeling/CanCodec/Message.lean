import CanCodec.Signal

/-! # Messages -/

namespace CanCodec

structure Message where
  frameId : Nat
  extended : Bool := false
  name : String
  /-- The payload length in bytes. -/
  length : Nat
  signals : List Signal
  comment : Option String := none
  senders : List String := []
  /-- The sending period in milliseconds. -/
  cycleTime : Option Nat := none

namespace Message

def maxStandardId : Nat := 0x7ff

def maxExtendedId : Nat := 0x1fffffff

def maxLength : Nat := 64

def idLimit (message : Message) : Nat :=
  if message.extended then maxExtendedId else maxStandardId

end Message

end CanCodec
