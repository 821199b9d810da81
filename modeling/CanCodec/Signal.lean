import CanCodec.AscendingMap

/-! # Signals

A signal is one bit-addressed field of a message. Its bits carry a raw integer; its
linear conversion and its choices say how that integer is presented. -/

namespace CanCodec

inductive ByteOrder
  /-- Numbers run upward from bit 0 of byte 0, and a signal starts at its least
  significant bit. -/
  | littleEndian
  /-- Numbers run in network order from bit 7 of byte 0, and a signal starts at its
  most significant bit. -/
  | bigEndian
  deriving Repr, DecidableEq

def ByteOrder.name : ByteOrder → String
  | .littleEndian => "little_endian"
  | .bigEndian => "big_endian"

structure Linear (α : Type) where
  scale : α
  offset : α
  deriving DecidableEq

structure Bounds (α : Type) where
  minimum : Option α := none
  maximum : Option α := none
  deriving DecidableEq

abbrev Choices := AscendingMap Int String

structure Signal where
  name : String
  start : Nat
  length : Nat
  byteOrder : ByteOrder
  signed : Bool := false
  linear : Linear Float := ⟨1, 0⟩
  bounds : Bounds Float := {}
  /-- The raw value sent when a record leaves the signal unset. -/
  initial : Option Int := none
  unit : Option String := none
  comment : Option String := none
  choices : Option Choices := none

namespace Signal

/-- Raw and physical values coincide. -/
def isUnscaled (signal : Signal) : Bool :=
  signal.linear.scale == 1 && signal.linear.offset == 0

end Signal

/-! ## Raw ranges -/

structure RawRange where
  low : Int
  high : Int
  deriving Repr, DecidableEq

namespace RawRange

/-- The range of `length` bits, counted as at least one and at most 64. -/
def ofBits (length : Nat) (signed : Bool) : RawRange :=
  let width := max 1 (min length 64)
  if signed then ⟨-(Nat.pow 2 (width - 1) : Int), (Nat.pow 2 (width - 1) : Int) - 1⟩
  else ⟨0, (Nat.pow 2 width : Int) - 1⟩

def clamp (range : RawRange) (raw : Int) : Int := max range.low (min raw range.high)

def contains (range : RawRange) (raw : Int) : Bool := range.low ≤ raw && raw ≤ range.high

example : ofBits 12 true = ⟨-2048, 2047⟩ := by decide
example : ofBits 64 false = ⟨0, 18446744073709551615⟩ := by decide

end RawRange

def Signal.range (signal : Signal) : RawRange := .ofBits signal.length signal.signed

end CanCodec
