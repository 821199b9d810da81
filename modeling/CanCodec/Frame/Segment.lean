import CanCodec.Text.Hexadecimal

/-! # Segments

A segment is a run of bits within one byte of a payload. It carries a run of bits of a
raw value, and both runs have the same order. -/

namespace CanCodec

/-- The 64 bits in which a raw value travels, in two's complement. -/
abbrev Word := BitVec 64

/-- `bitCount` bits from bit `bitOffset` of byte `byteIndex` carry the bits of a raw
value from bit `valueOffset` on. -/
structure Segment where
  byteIndex : Nat
  bitOffset : Nat
  bitCount : Nat
  valueOffset : Nat
  deriving Repr, DecidableEq

namespace Segment

def mask (segment : Segment) : Byte :=
  BitVec.ofNat 8 (Nat.pow 2 segment.bitCount - 1) <<< segment.bitOffset

def pack (segment : Segment) (word : Word) : Byte :=
  ((word >>> segment.valueOffset).setWidth 8 <<< segment.bitOffset) &&& segment.mask

def unpack (segment : Segment) (byte : Byte) : Word :=
  ((byte &&& segment.mask) >>> segment.bitOffset).setWidth 64 <<< segment.valueOffset

example : mask ⟨0, 4, 4, 8⟩ = 0xf0 := by decide
example : pack ⟨0, 4, 4, 8⟩ 0xa00 = 0xa0 := by decide
example : unpack ⟨0, 4, 4, 8⟩ 0xa5 = 0xa00 := by decide

end Segment

end CanCodec
