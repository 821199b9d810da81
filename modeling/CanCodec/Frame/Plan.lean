import CanCodec.Fault
import CanCodec.Frame.Segment

/-! # Bit plans

A signal occupies consecutive positions of its payload. Both byte orders number the
positions of byte `b` from `8 · b` to `8 · b + 7`; they differ in the direction within a
byte. A plan walks over the bytes of a signal and takes one segment from each. In a strict
plan no bit belongs to two signals. -/

namespace CanCodec

namespace Frame

/-- Where a walk over a signal stands: at a bit of a byte, with some bits to go. -/
structure Cursor where
  byteIndex : Nat
  bit : Fin 8
  remaining : Nat
  deriving Repr, DecidableEq

namespace Cursor

/-- A little-endian walk climbs from the least significant bit; a big-endian walk descends
from the most significant one. -/
def start (signal : Signal) : Cursor where
  byteIndex := signal.start / 8
  bit :=
    match signal.byteOrder with
    | .littleEndian => ⟨signal.start % 8, Nat.mod_lt _ (Nat.zero_lt_succ 7)⟩
    | .bigEndian => ⟨7 - signal.start % 8, Nat.lt_succ_of_le (Nat.sub_le _ _)⟩
  remaining := signal.length

def count (order : ByteOrder) (cursor : Cursor) : Nat :=
  match order with
  | .littleEndian => min (8 - cursor.bit.val) cursor.remaining
  | .bigEndian => min (cursor.bit.val + 1) cursor.remaining

/-- The segment that a walk takes from its byte. Value offsets are kept in eight bits. -/
def segment (signal : Signal) (cursor : Cursor) : Segment :=
  let count := cursor.count signal.byteOrder
  match signal.byteOrder with
  | .littleEndian =>
      { byteIndex := cursor.byteIndex
        bitOffset := cursor.bit
        bitCount := count
        valueOffset := (signal.length - cursor.remaining) % 256 }
  | .bigEndian =>
      { byteIndex := cursor.byteIndex
        bitOffset := cursor.bit + 1 - count
        bitCount := count
        valueOffset := (cursor.remaining - count) % 256 }

def next (order : ByteOrder) (cursor : Cursor) : Cursor where
  byteIndex := cursor.byteIndex + 1
  bit :=
    match order with
    | .littleEndian => 0
    | .bigEndian => 7
  remaining := cursor.remaining - cursor.count order

theorem remaining_next_lt {cursor : Cursor} (order : ByteOrder)
    (unfinished : cursor.remaining ≠ 0) : (cursor.next order).remaining < cursor.remaining := by
  have inByte := cursor.bit.isLt
  cases order with
  | littleEndian =>
      change cursor.remaining - min (8 - cursor.bit.val) cursor.remaining < cursor.remaining
      omega
  | bigEndian =>
      change cursor.remaining - min (cursor.bit.val + 1) cursor.remaining < cursor.remaining
      omega

end Cursor

@[semireducible] def walk (signal : Signal) (cursor : Cursor) : List Segment :=
  if cursor.remaining = 0 then []
  else cursor.segment signal :: walk signal (cursor.next signal.byteOrder)
termination_by cursor.remaining
decreasing_by exact Cursor.remaining_next_lt signal.byteOrder ‹_›

def planWithin (message : String) (available : Nat) (signal : Signal) :
    Except LayoutFault (List Segment) :=
  let stop := signal.start + signal.length
  if signal.length = 0 ∨ available < stop then
    .error ⟨message, signal.name, .exceeds signal.start stop available⟩
  else .ok (walk signal (Cursor.start signal))

/-- The number of bits of a message, if 64 bits can hold it. -/
def bitCount? (messageLength : Nat) : Option Nat :=
  let count := 8 * messageLength
  if count < Nat.pow 2 64 then some count else none

def planSignal (message : String) (messageLength : Nat) (signal : Signal) :
    Except (Failure LayoutFault) (List Segment) :=
  match bitCount? messageLength with
  | some available => (planWithin message available signal).mapError .fault
  | none => .error .overflow

/-! ## Overlaps -/

structure Placed where
  signal : Signal
  segments : List Segment

def holds (byte bit : Nat) (segment : Segment) : Bool :=
  segment.byteIndex = byte && segment.bitOffset ≤ bit &&
    bit < segment.bitOffset + segment.bitCount

def owner? (placed : List Placed) (byte bit : Nat) : Option Signal :=
  (placed.find? fun earlier => earlier.segments.any (holds byte bit)).map Placed.signal

/-- The owner of the lowest bit of a segment that already has one. -/
def segmentOverlap? (placed : List Placed) (segment : Segment) : Option LayoutReason :=
  (List.range' segment.bitOffset segment.bitCount).findSome? fun bit =>
    (owner? placed segment.byteIndex bit).map fun other =>
      .overlaps other.name segment.byteIndex

def overlap? (placed : List Placed) (segments : List Segment) : Option LayoutReason :=
  segments.findSome? (segmentOverlap? placed)

/-- Place one more signal. A strict placing refuses a bit that has an owner. No memory holds
the owners of more bits than 64 bits can count, so the bits are counted without bound. -/
def place (message : Message) (strict : Bool) (placed : List Placed) (signal : Signal) :
    Except LayoutFault Placed :=
  match planWithin message.name (8 * message.length) signal with
  | .error fault => .error fault
  | .ok segments =>
      match if strict then overlap? placed segments else none with
      | some reason => .error ⟨message.name, signal.name, reason⟩
      | none => .ok ⟨signal, segments⟩

def placeAll (message : Message) (strict : Bool) :
    (placed : List Placed) → List Signal → Except LayoutFault (List Placed)
  | placed, [] => .ok placed
  | placed, signal :: rest =>
      match place message strict placed signal with
      | .error fault => .error fault
      | .ok next => placeAll message strict (placed ++ [next]) rest

def planMessage (message : Message) (strict : Bool) : Except LayoutFault (List Placed) :=
  placeAll message strict [] message.signals

/-! ## Sawtooth numbering -/

/-- The network-order position of a bit that is counted upward from the least
significant bit of each byte. -/
def ofSawtooth (position : Nat) : Nat := 8 * (position / 8) + (7 - position % 8)

example : [7, 0, 15].map ofSawtooth = [0, 7, 8] := by decide

end Frame

end CanCodec
