import CanCodec.Codec
import CanCodec.Proofs.Frame.Numbering

/-! # Bits of payloads

What packing, unpacking, putting and gathering do to single bits. -/

namespace CanCodec

namespace Segment

theorem getLsbD_mask (segment : Segment) (bit : Nat) :
    segment.mask.getLsbD bit =
      decide (bit < 8 ∧ segment.bitOffset ≤ bit ∧ bit < segment.bitOffset + segment.bitCount) := by
  rw [mask, Nat.pow_eq, BitVec.getLsbD_shiftLeft, BitVec.getLsbD_ofNat, Nat.testBit_two_pow_sub_one]
  grind

theorem getLsbD_pack {segment : Segment} (word : Word) (bit : Nat)
    (bound : segment.bitOffset + segment.bitCount ≤ 8) :
    (segment.pack word).getLsbD bit =
      (decide (segment.bitOffset ≤ bit ∧ bit < segment.bitOffset + segment.bitCount) &&
        word.getLsbD (segment.valueOffset + (bit - segment.bitOffset))) := by
  rw [pack, BitVec.getLsbD_and, getLsbD_mask, BitVec.getLsbD_shiftLeft, BitVec.getLsbD_setWidth,
    BitVec.getLsbD_ushiftRight]
  by_cases inside : segment.bitOffset ≤ bit ∧ bit < segment.bitOffset + segment.bitCount
  · have inByte : bit < 8 := by omega
    have shifted : bit - segment.bitOffset < 8 := by omega
    simp [inside, inByte, shifted]
  · simp [inside]

theorem getLsbD_unpack {segment : Segment} (byte : Byte) (index : Nat)
    (bound : segment.bitOffset + segment.bitCount ≤ 8)
    (valueBound : segment.valueOffset + segment.bitCount ≤ 64) :
    (segment.unpack byte).getLsbD index =
      (decide (segment.valueOffset ≤ index ∧ index < segment.valueOffset + segment.bitCount) &&
        byte.getLsbD (segment.bitOffset + (index - segment.valueOffset))) := by
  rw [unpack, BitVec.getLsbD_shiftLeft, BitVec.getLsbD_setWidth, BitVec.getLsbD_ushiftRight,
    BitVec.getLsbD_and, getLsbD_mask]
  by_cases inside : segment.valueOffset ≤ index ∧ index < segment.valueOffset + segment.bitCount
  · have inWord : index < 64 := by omega
    have shifted : index - segment.valueOffset < 64 := by omega
    have inByte : segment.bitOffset + (index - segment.valueOffset) < 8 := by omega
    have inSegment : index - segment.valueOffset < segment.bitCount := by omega
    simp [inside, inWord, shifted, inByte, inSegment]
  · by_cases lower : segment.valueOffset ≤ index
    · have outside : ¬ index - segment.valueOffset < segment.bitCount := by omega
      simp [inside, outside]
    · simp [lower]

theorem pack_bit_iff {segment : Segment} (word : Word) (bit : Nat)
    (bound : segment.bitOffset + segment.bitCount ≤ 8) :
    (segment.pack word).getLsbD bit = true ↔
      ∃ index, segment.Carries index ⟨segment.byteIndex, bit⟩ ∧ word.getLsbD index = true := by
  rw [getLsbD_pack word bit bound, Bool.and_eq_true, decide_eq_true_eq]
  constructor
  · intro packed
    rcases packed with ⟨inside, set⟩
    exact ⟨segment.valueOffset + (bit - segment.bitOffset),
      ⟨rfl, by omega, by omega, by dsimp only; omega⟩, set⟩
  · intro carried
    rcases carried with ⟨index, ⟨_, lower, upper, atBit⟩, set⟩
    dsimp only at atBit
    have source : segment.valueOffset + (bit - segment.bitOffset) = index := by omega
    rw [source]
    exact ⟨by omega, set⟩

theorem unpack_bit_iff {segment : Segment} (byte : Byte) (index : Nat)
    (bound : segment.bitOffset + segment.bitCount ≤ 8)
    (valueBound : segment.valueOffset + segment.bitCount ≤ 64) :
    (segment.unpack byte).getLsbD index = true ↔
      ∃ bit, segment.Carries index ⟨segment.byteIndex, bit⟩ ∧ byte.getLsbD bit = true := by
  rw [getLsbD_unpack byte index bound valueBound, Bool.and_eq_true, decide_eq_true_eq]
  constructor
  · intro unpacked
    rcases unpacked with ⟨inside, set⟩
    exact ⟨_, ⟨rfl, inside.1, inside.2, rfl⟩, set⟩
  · intro carried
    rcases carried with ⟨bit, ⟨_, lower, upper, atBit⟩, set⟩
    have sameBit : bit = segment.bitOffset + (index - segment.valueOffset) := atBit
    rw [← sameBit]
    exact ⟨⟨lower, upper⟩, set⟩

end Segment

namespace Payload

/-- The bit at a place. Beyond the end of a payload it is clear. -/
def bit (payload : Payload) (place : Place) : Bool :=
  (payload.getD place.byte 0).getLsbD place.bit

@[simp] theorem bit_zeros (length : Nat) (place : Place) : (zeros length).bit place = false := by
  rw [bit, zeros, List.getD_eq_getElem?_getD, List.getElem?_replicate]
  split <;> simp

theorem bit_append_left {payload : Payload} {place : Place} (extra : Payload)
    (within : place.byte < payload.length) : (payload ++ extra).bit place = payload.bit place := by
  rw [bit, bit, List.getD_eq_getElem?_getD, List.getD_eq_getElem?_getD,
    List.getElem?_append_left within]

/-! ## Putting -/

theorem put_cons (payload : Payload) (segment : Segment) (rest : List Segment) (word : Word) :
    payload.put (segment :: rest) word = (putSegment word payload segment).put rest word := rfl

@[simp] theorem length_putSegment (word : Word) (payload : Payload) (segment : Segment) :
    (putSegment word payload segment).length = payload.length := by
  rw [putSegment, List.length_modify]

@[simp] theorem length_put (payload : Payload) (segments : List Segment) (word : Word) :
    (payload.put segments word).length = payload.length := by
  induction segments generalizing payload with
  | nil => rfl
  | cons segment rest induction => rw [put_cons, induction, length_putSegment]

theorem getD_putSegment {payload : Payload} {segment : Segment} (word : Word) (index : Nat)
    (within : segment.byteIndex < payload.length) :
    (putSegment word payload segment).getD index 0 =
      if segment.byteIndex = index then payload.getD index 0 ||| segment.pack word
      else payload.getD index 0 := by
  rw [putSegment, List.getD_eq_getElem?_getD, List.getD_eq_getElem?_getD, List.getElem?_modify]
  by_cases same : segment.byteIndex = index
  · have present : index < payload.length := same ▸ within
    simp [same, List.getElem?_eq_getElem present]
  · simp [same]

theorem bit_putSegment {payload : Payload} {segment : Segment} (word : Word) (place : Place)
    (within : segment.byteIndex < payload.length) :
    (putSegment word payload segment).bit place =
      (payload.bit place ||
        (decide (segment.byteIndex = place.byte) && (segment.pack word).getLsbD place.bit)) := by
  rw [bit, bit, getD_putSegment word place.byte within]
  by_cases same : segment.byteIndex = place.byte
  · simp [same]
  · simp [same]

/-- Putting a word sets the places of its set bits and leaves all others as they are. -/
theorem bit_put {payload : Payload} {segments : List Segment} (word : Word) (place : Place)
    (bounded : ∀ segment ∈ segments, segment.bitOffset + segment.bitCount ≤ 8 ∧
      segment.byteIndex < payload.length) :
    (payload.put segments word).bit place = true ↔
      payload.bit place = true ∨
        ∃ index, (∃ segment ∈ segments, segment.Carries index place) ∧
          word.getLsbD index = true := by
  induction segments generalizing payload with
  | nil => simp [put]
  | cons segment rest induction =>
      have head := bounded segment List.mem_cons_self
      have tail : ∀ other ∈ rest, other.bitOffset + other.bitCount ≤ 8 ∧
          other.byteIndex < (putSegment word payload segment).length := by
        intro other member
        rw [length_putSegment]
        exact bounded other (List.mem_cons_of_mem segment member)
      rw [put_cons, induction tail, bit_putSegment word place head.2]
      have packed := Segment.pack_bit_iff word place.bit head.1
      simp only [Bool.or_eq_true, Bool.and_eq_true, decide_eq_true_eq, packed,
        List.mem_cons, exists_eq_or_imp]
      constructor
      · intro found
        rcases found with (before | ⟨inByte, index, carries, set⟩) | ⟨index, carried, set⟩
        · exact .inl before
        · rw [inByte] at carries
          exact .inr ⟨index, .inl carries, set⟩
        · exact .inr ⟨index, .inr carried, set⟩
      · intro found
        rcases found with before | ⟨index, carries | carried, set⟩
        · exact .inl (.inl before)
        · have inByte : segment.byteIndex = place.byte := carries.1
          rw [inByte]
          exact .inl (.inr ⟨rfl, index, carries, set⟩)
        · exact .inr ⟨index, carried, set⟩

/-! ## Gathering -/

theorem getLsbD_gather (payload : Payload) (segments : List Segment) (index : Nat)
    (bounded : ∀ segment ∈ segments, segment.bitOffset + segment.bitCount ≤ 8 ∧
      segment.valueOffset + segment.bitCount ≤ 64) :
    (payload.gather segments).getLsbD index = true ↔
      ∃ place, (∃ segment ∈ segments, segment.Carries index place) ∧
        payload.bit place = true := by
  have gathered : ∀ word : Word,
      (segments.foldl (fun word segment =>
        word ||| segment.unpack (payload.getD segment.byteIndex 0)) word).getLsbD index = true ↔
      word.getLsbD index = true ∨
        ∃ place, (∃ segment ∈ segments, segment.Carries index place) ∧
          payload.bit place = true := by
    induction segments with
    | nil => simp
    | cons segment rest induction =>
        intro word
        have head := bounded segment List.mem_cons_self
        have tail := induction fun other member =>
          bounded other (List.mem_cons_of_mem segment member)
        have unpacked := Segment.unpack_bit_iff (payload.getD segment.byteIndex 0) index
          head.1 head.2
        rw [List.foldl_cons, tail]
        simp only [BitVec.getLsbD_or, Bool.or_eq_true, unpacked, List.mem_cons, exists_eq_or_imp]
        constructor
        · intro found
          rcases found with (before | ⟨bit, carries, set⟩) | ⟨place, carried, set⟩
          · exact .inl before
          · exact .inr ⟨⟨segment.byteIndex, bit⟩, .inl carries, set⟩
          · exact .inr ⟨place, .inr carried, set⟩
        · intro found
          rcases found with before | ⟨place, carries | carried, set⟩
          · exact .inl (.inl before)
          · rcases place with ⟨byte, bit⟩
            obtain rfl : segment.byteIndex = byte := carries.1
            exact .inl (.inr ⟨bit, carries, set⟩)
          · exact .inr ⟨place, carried, set⟩
  simpa [gather] using gathered 0

end Payload

end CanCodec
