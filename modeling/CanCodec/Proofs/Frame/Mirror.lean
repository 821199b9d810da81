import Mathlib.Data.List.Forall2
import CanCodec.Proofs.Frame.Overlap
import CanCodec.Proofs.Payload

/-! # Mirrored byte orders

The two byte orders are each other's mirror image. Walks over a signal that differ in the
byte order go from byte to byte in step, and in each byte one of them stands where the other
stands when the byte is read in reverse. -/

namespace CanCodec

def Payload.mirror (payload : Payload) : Payload := payload.map BitVec.reverse

/-- The lowest `length` bits of a word in reverse. -/
def Word.mirror (length : Nat) (word : Word) : Word := (word.setWidth length).reverse.setWidth 64

example : Payload.mirror [0x01, 0x34] = [0x80, 0x2c] := by decide
example : Word.mirror 12 0x1a5 = 0xa58 := by decide

/-! ## Words and payloads -/

theorem Payload.getD_mirror (payload : Payload) (index : Nat) :
    payload.mirror.getD index 0 = (payload.getD index 0).reverse := by
  have zero : (0 : Byte).reverse = 0 := by decide
  rw [mirror, List.getD_eq_getElem?_getD, List.getD_eq_getElem?_getD, List.getElem?_map]
  cases payload[index]? with
  | none => exact zero.symm
  | some byte => rfl

theorem Word.getLsbD_mirror {length : Nat} (narrow : length ≤ 64) (word : Word) (index : Nat) :
    (mirror length word).getLsbD index =
      (decide (index < length) && word.getLsbD (length - 1 - index)) := by
  rw [mirror, BitVec.getLsbD_setWidth, BitVec.getLsbD_reverse, BitVec.getMsbD,
    BitVec.getLsbD_setWidth]
  by_cases within : index < length
  · have inWord : index < 64 := by omega
    have source : length - 1 - index < length := by omega
    simp [within, inWord, source]
  · simp [within]

theorem Word.mirror_zero {length : Nat} (narrow : length ≤ 64) : mirror length 0 = 0 := by
  apply BitVec.eq_of_getLsbD_eq
  intro index _
  simp [getLsbD_mirror narrow]

theorem Word.mirror_or {length : Nat} (narrow : length ≤ 64) (first second : Word) :
    mirror length (first ||| second) = mirror length first ||| mirror length second := by
  apply BitVec.eq_of_getLsbD_eq
  intro index _
  simp only [BitVec.getLsbD_or, getLsbD_mirror narrow]
  rw [Bool.and_or_distrib_left]

/-! ## Segments -/

/-- Two segments of one byte of which each becomes the other when the bits of the byte and the
`length` bits of the value are read in reverse. -/
structure Segment.Mirrors (length : Nat) (first second : Segment) : Prop where
  byteIndex : second.byteIndex = first.byteIndex
  bitCount : second.bitCount = first.bitCount
  bitOffset : second.bitOffset + first.bitOffset + first.bitCount = 8
  valueOffset : second.valueOffset + first.valueOffset + first.bitCount = length

theorem Segment.Mirrors.unpack {length : Nat} {first second : Segment}
    (mirrors : first.Mirrors length second) (narrow : length ≤ 64) (byte : Byte) :
    second.unpack byte = Word.mirror length (first.unpack byte.reverse) := by
  rcases mirrors with ⟨_, bitCount, bitOffset, valueOffset⟩
  apply BitVec.eq_of_getLsbD_eq
  intro index _
  rw [getLsbD_unpack byte index (by omega) (by omega), Word.getLsbD_mirror narrow,
    getLsbD_unpack byte.reverse _ (by omega) (by omega), BitVec.getLsbD_reverse, BitVec.getMsbD,
    bitCount]
  by_cases carried : second.valueOffset ≤ index ∧ index < second.valueOffset + first.bitCount
  · have within : index < length := by omega
    have image : first.valueOffset ≤ length - 1 - index ∧
        length - 1 - index < first.valueOffset + first.bitCount := by omega
    have inByte : first.bitOffset + (length - 1 - index - first.valueOffset) < 8 := by omega
    have source : 8 - 1 - (first.bitOffset + (length - 1 - index - first.valueOffset)) =
        second.bitOffset + (index - second.valueOffset) := by omega
    rw [decide_eq_true carried, decide_eq_true within, decide_eq_true image,
      decide_eq_true inByte, source]
    simp only [Bool.true_and]
  · rw [decide_eq_false carried, Bool.false_and]
    by_cases within : index < length
    · have image : ¬ (first.valueOffset ≤ length - 1 - index ∧
          length - 1 - index < first.valueOffset + first.bitCount) := by omega
      rw [decide_eq_false image, Bool.false_and, Bool.and_false]
    · rw [decide_eq_false within, Bool.false_and]

theorem Payload.gather_mirror {length : Nat} {first second : List Segment}
    (mirrors : List.Forall₂ (Segment.Mirrors length) first second) (narrow : length ≤ 64)
    (payload : Payload) :
    payload.gather second = Word.mirror length (payload.mirror.gather first) := by
  -- The words gathered so far mirror each other, so the induction starts at any such pair.
  have gathered : ∀ word : Word,
      second.foldl (fun word segment =>
        word ||| segment.unpack (payload.getD segment.byteIndex 0)) (Word.mirror length word) =
      Word.mirror length (first.foldl (fun word segment =>
        word ||| segment.unpack (payload.mirror.getD segment.byteIndex 0)) word) := by
    induction mirrors with
    | nil => exact fun word => rfl
    | cons head tail induction =>
        intro word
        rw [List.foldl_cons, List.foldl_cons, ← induction, Word.mirror_or narrow,
          head.unpack narrow, head.byteIndex, getD_mirror]
  have start := gathered 0
  rw [Word.mirror_zero narrow] at start
  exact start

/-! ## Walks -/

def Signal.inOrder (signal : Signal) (order : ByteOrder) : Signal :=
  { signal with byteOrder := order }

namespace Frame

structure Cursor.Mirrors (first second : Cursor) : Prop where
  byteIndex : second.byteIndex = first.byteIndex
  bit : second.bit.val + first.bit.val = 7
  remaining : second.remaining = first.remaining

section

variable {signal : Signal} {first second : Cursor}

theorem Cursor.mirrors_start (signal : Signal) :
    (start (signal.inOrder .littleEndian)).Mirrors (start (signal.inOrder .bigEndian)) where
  byteIndex := rfl
  bit := by
    change 7 - signal.start % 8 + signal.start % 8 = 7
    omega
  remaining := rfl

theorem Cursor.Mirrors.count (mirrors : first.Mirrors second) :
    second.count .bigEndian = first.count .littleEndian := by
  have bit := mirrors.bit
  simp only [Cursor.count, mirrors.remaining]
  omega

theorem Cursor.Mirrors.next (mirrors : first.Mirrors second) :
    (first.next .littleEndian).Mirrors (second.next .bigEndian) where
  byteIndex := congrArg (· + 1) mirrors.byteIndex
  bit := rfl
  remaining := by
    simp only [Cursor.next, mirrors.count, mirrors.remaining]

theorem Cursor.Mirrors.segment (mirrors : first.Mirrors second) (narrow : signal.length ≤ 64)
    (left : first.remaining ≤ signal.length) :
    (first.segment (signal.inOrder .littleEndian)).Mirrors signal.length
      (second.segment (signal.inOrder .bigEndian)) := by
  have bit := mirrors.bit
  have count : first.count .littleEndian = min (8 - first.bit.val) first.remaining := rfl
  simp only [Cursor.segment, Signal.inOrder, mirrors.count, mirrors.remaining]
  exact ⟨mirrors.byteIndex, rfl, by dsimp only; omega, by dsimp only; omega⟩

/-- Walks that start at mirrored bits take mirrored segments, one for one. -/
theorem walk_mirrors (mirrors : first.Mirrors second) (narrow : signal.length ≤ 64)
    (left : first.remaining ≤ signal.length) :
    List.Forall₂ (Segment.Mirrors signal.length) (walk (signal.inOrder .littleEndian) first)
      (walk (signal.inOrder .bigEndian) second) := by
  induction first using walk.induct (signal.inOrder .littleEndian) generalizing second with
  | case1 first finished =>
      rw [walk, if_pos finished, walk, if_pos (mirrors.remaining.trans finished)]
      exact .nil
  | case2 first unfinished induction =>
      have shorter := Cursor.remaining_next_lt .littleEndian unfinished
      have alsoUnfinished : second.remaining ≠ 0 := by rwa [mirrors.remaining]
      rw [walk.eq_def _ first, if_neg unfinished, walk.eq_def _ second, if_neg alsoUnfinished]
      exact .cons (mirrors.segment narrow left)
        (induction mirrors.next (Nat.le_trans (Nat.le_of_lt shorter) left))

end

/-! ## Plans -/

/-- A signal can be planned in one byte order exactly when it can be in the other. The two plans
take mirrored segments of the same bytes, so that reading in one byte order is reading mirrored
bytes in the other and mirroring the value. -/
theorem planSignal_mirrors (message : String) (messageLength : Nat) (signal : Signal)
    (positive : 1 ≤ signal.length) (narrow : signal.length ≤ 64) :
    ((∃ big, planSignal message messageLength (signal.inOrder .bigEndian) = .ok big) ↔
      ∃ little, planSignal message messageLength (signal.inOrder .littleEndian) = .ok little) ∧
    ∀ little big,
      planSignal message messageLength (signal.inOrder .littleEndian) = .ok little →
      planSignal message messageLength (signal.inOrder .bigEndian) = .ok big →
      big.length = little.length ∧
      List.Forall₂ (Segment.Mirrors signal.length) little big ∧
      ∀ payload : Payload,
        payload.gather big = Word.mirror signal.length (payload.mirror.gather little) := by
  have plans : ∀ order plan, planSignal message messageLength (signal.inOrder order) = .ok plan ↔
      8 * messageLength < 2 ^ 64 ∧ signal.Fits messageLength ∧
        plan = segments (signal.inOrder order) :=
    fun order plan => planSignal_ok_iff
  have walks : ∀ order, walk (signal.inOrder order) (Cursor.start (signal.inOrder order)) =
      segments (signal.inOrder order) := fun order => walk_start positive
  simp only [plans, exists_and_left, exists_eq, and_true, true_and]
  rintro little big ⟨_, _, rfl⟩ ⟨_, _, rfl⟩
  have mirrors := walk_mirrors (Cursor.mirrors_start signal) narrow (Nat.le_refl signal.length)
  rw [walks, walks] at mirrors
  exact ⟨mirrors.length_eq.symm, mirrors, Payload.gather_mirror mirrors narrow⟩

def slantedSignal : Signal where
  name := "Yaw"
  start := 5
  length := 12
  byteOrder := .littleEndian

theorem planSignal_mirrors_slanted :
    (1 ≤ slantedSignal.length ∧ slantedSignal.length ≤ 64) ∧
      planSignal "Motion" 3 (slantedSignal.inOrder .littleEndian) =
        .ok [⟨0, 5, 3, 0⟩, ⟨1, 0, 8, 3⟩, ⟨2, 0, 1, 11⟩] ∧
      planSignal "Motion" 3 (slantedSignal.inOrder .bigEndian) =
        .ok [⟨0, 0, 3, 9⟩, ⟨1, 0, 8, 1⟩, ⟨2, 7, 1, 0⟩] ∧
      Payload.gather [0x05, 0xa7, 0x80] [⟨0, 0, 3, 9⟩, ⟨1, 0, 8, 1⟩, ⟨2, 7, 1, 0⟩] =
        Word.mirror 12 (Payload.gather [0xa0, 0xe5, 0x01]
          [⟨0, 5, 3, 0⟩, ⟨1, 0, 8, 3⟩, ⟨2, 0, 1, 11⟩]) := by
  have little : planSignal "Motion" 3 (slantedSignal.inOrder .littleEndian) =
      .ok [⟨0, 5, 3, 0⟩, ⟨1, 0, 8, 3⟩, ⟨2, 0, 1, 11⟩] := rfl
  have big : planSignal "Motion" 3 (slantedSignal.inOrder .bigEndian) =
      .ok [⟨0, 0, 3, 9⟩, ⟨1, 0, 8, 1⟩, ⟨2, 7, 1, 0⟩] := rfl
  have mirrored := planSignal_mirrors "Motion" 3 slantedSignal (by decide) (by decide)
  exact ⟨by decide, little, big, (mirrored.2 _ _ little big).2.2 [0x05, 0xa7, 0x80]⟩

end Frame

end CanCodec
