import CanCodec.Proofs.C.Arithmetic
import CanCodec.Proofs.Codec

/-! # Transfers in C

The calls of the helper functions move the bits of a segment as the codec does. -/

namespace CanCodec.C

/-! ## Moved bits -/

theorem bits_fit {width : Width} : 8 ≤ width.bits ∧ width.bits ≤ 64 := by
  cases width <;> decide

namespace Transfer

theorem ofPacking_amount_lt {segment : Segment} {width : Width} (positive : 0 < segment.bitCount)
    (bound : segment.bitOffset + segment.bitCount ≤ 8)
    (valueBound : segment.valueOffset + segment.bitCount ≤ width.bits) :
    (ofPacking segment).amount < width.bits := by
  have fit := @bits_fit width
  rw [ofPacking]
  split
  · change segment.bitOffset - segment.valueOffset < width.bits
    omega
  · change segment.valueOffset - segment.bitOffset < width.bits
    omega

theorem ofUnpacking_amount_lt {segment : Segment} {width : Width}
    (positive : 0 < segment.bitCount) (bound : segment.bitOffset + segment.bitCount ≤ 8)
    (valueBound : segment.valueOffset + segment.bitCount ≤ width.bits) :
    (ofUnpacking segment).amount < width.bits := by
  have fit := @bits_fit width
  rw [ofUnpacking]
  split
  · change segment.valueOffset - segment.bitOffset < width.bits
    omega
  · change segment.bitOffset - segment.valueOffset < width.bits
    omega

@[simp] theorem ofPacking_mask (segment : Segment) : (ofPacking segment).mask = segment.mask := by
  rw [ofPacking]
  split <;> rfl

@[simp] theorem ofUnpacking_mask (segment : Segment) :
    (ofUnpacking segment).mask = segment.mask := by
  rw [ofUnpacking]
  split <;> rfl

theorem getLsbD_move_ofPacking {width index : Nat} (segment : Segment) (bits : BitVec width)
    (within : index < width) :
    ((ofPacking segment).direction.move bits (ofPacking segment).amount).getLsbD index = true ↔
      ∃ source, bits.getLsbD source = true ∧
        source + segment.bitOffset = index + segment.valueOffset := by
  rw [Direction.getLsbD_move_iff _ _ _ within, ofPacking]
  by_cases upward : segment.valueOffset ≤ segment.bitOffset
  · simp only [if_pos upward]
    exact exists_congr fun source => and_congr_right fun _ => by omega
  · simp only [if_neg upward]
    exact exists_congr fun source => and_congr_right fun _ => by omega

theorem getLsbD_move_ofUnpacking {width index : Nat} (segment : Segment) (bits : BitVec width)
    (within : index < width) :
    ((ofUnpacking segment).direction.move bits (ofUnpacking segment).amount).getLsbD index =
        true ↔
      ∃ source, bits.getLsbD source = true ∧
        source + segment.valueOffset = index + segment.bitOffset := by
  rw [Direction.getLsbD_move_iff _ _ _ within, ofUnpacking]
  by_cases upward : segment.bitOffset ≤ segment.valueOffset
  · simp only [if_pos upward]
    exact exists_congr fun source => and_congr_right fun _ => by omega
  · simp only [if_neg upward]
    exact exists_congr fun source => and_congr_right fun _ => by omega

/-- One shift within the width of a variable brings the bits of a segment to their place
in the byte. -/
theorem move_ofPacking {segment : Segment} {width : Width} (word : Word)
    (bound : segment.bitOffset + segment.bitCount ≤ 8)
    (valueBound : segment.valueOffset + segment.bitCount ≤ width.bits) :
    ((ofPacking segment).direction.move (word.setWidth width.bits)
      (ofPacking segment).amount).setWidth 8 &&& segment.mask = segment.pack word := by
  have fit := @bits_fit width
  apply BitVec.eq_of_getLsbD_eq
  intro bit inByte
  have within : bit < width.bits := by omega
  rw [Bool.eq_iff_iff, Segment.getLsbD_pack word bit bound, BitVec.getLsbD_and,
    Segment.getLsbD_mask, BitVec.getLsbD_setWidth]
  simp only [Bool.and_eq_true, decide_eq_true_eq, inByte, true_and,
    getLsbD_move_ofPacking segment _ within, BitVec.getLsbD_setWidth]
  constructor
  · intro moved
    rcases moved with ⟨⟨source, ⟨_, set⟩, shifted⟩, inside⟩
    have sameSource : segment.valueOffset + (bit - segment.bitOffset) = source := by omega
    rw [sameSource]
    exact ⟨inside, set⟩
  · intro packed
    exact ⟨⟨_, ⟨by omega, packed.2⟩, by omega⟩, packed.1⟩

theorem move_ofUnpacking {segment : Segment} {width : Width} (byte : Byte)
    (bound : segment.bitOffset + segment.bitCount ≤ 8)
    (valueBound : segment.valueOffset + segment.bitCount ≤ width.bits) :
    (ofUnpacking segment).direction.move ((byte &&& segment.mask).setWidth width.bits)
      (ofUnpacking segment).amount = (segment.unpack byte).setWidth width.bits := by
  have fit := @bits_fit width
  apply BitVec.eq_of_getLsbD_eq
  intro index within
  rw [Bool.eq_iff_iff, getLsbD_move_ofUnpacking segment _ within, BitVec.getLsbD_setWidth,
    Segment.getLsbD_unpack byte index bound (by omega)]
  simp only [BitVec.getLsbD_setWidth, BitVec.getLsbD_and, Segment.getLsbD_mask, Bool.and_eq_true,
    decide_eq_true_eq, within, true_and]
  constructor
  · intro moved
    rcases moved with ⟨source, ⟨_, set, inside⟩, shifted⟩
    have sameSource : segment.bitOffset + (index - segment.valueOffset) = source := by omega
    rw [sameSource]
    exact ⟨by omega, set⟩
  · intro unpacked
    exact ⟨_, ⟨by omega, unpacked.2, by omega⟩, by omega⟩

end Transfer

/-! ## Helper functions -/

theorem ofArguments_helper (type : Primitive) (value amount mask : Value) :
    ∃ memory, Memory.ofArguments (helperParameters type) [value, amount, mask] = some memory ∧
      memory.value? (.named "value") = some (value.convert type) ∧
      memory.value? (.named "shift") = some (amount.convert byteType) ∧
      memory.value? (.named "mask") = some (mask.convert byteType) :=
  ⟨_, rfl, rfl, rfl, rfl⟩

theorem find?_packHelper (direction : Direction) (width : Width) :
    helpers.find? (fun function => function.name = packHelperName direction width) =
      some (packHelper direction width) := by
  cases direction <;> cases width <;> rfl

theorem find?_unpackHelper (direction : Direction) (width : Width) :
    helpers.find? (fun function => function.name = unpackHelperName direction width) =
      some (unpackHelper direction width) := by
  cases direction <;> cases width <;> rfl

theorem toInt_convert_byte {value : Value} {natural : Nat} (denotes : value.toInt = natural)
    (small : natural < 2 ^ 8) : (value.convert byteType).toInt = natural := by
  rw [Value.convert, Value.bitsAs_of_toInt_eq denotes]
  exact Value.toInt_ofInt small

section

variable {width : Width} {amount mask : Value} {count : Nat} {byte : Byte}

theorem apply_packHelper (direction : Direction) (bits : BitVec width.bits)
    (amountDenotes : amount.toInt = count) (maskDenotes : mask.toInt = byte.toNat)
    (within : count < width.bits) :
    (packHelper direction width).apply [.unsigned width bits, amount, mask] =
      some (.unsigned .w8 ((direction.move bits count).setWidth 8 &&& byte)) := by
  have fit := @bits_fit width
  have amountKept := toInt_convert_byte amountDenotes (show count < 2 ^ 8 by omega)
  rcases ofArguments_helper (unsignedType width) (.unsigned width bits) amount mask with
    ⟨memory, made, value, shift, masking⟩
  have valueKept := Value.convert_unsigned (Value.toInt_unsigned width bits)
  have maskKept : mask.convert byteType = .unsigned .w8 byte := Value.convert_unsigned maskDenotes
  rcases Operator.apply_shift .w8 direction bits amountKept within fit.1 with
    ⟨shifted, isShifted, narrowed⟩
  have narrowedByte : shifted.convert byteType =
      .unsigned .w8 ((direction.move bits count).setWidth 8) := narrowed
  rcases Operator.apply_and
    (Value.toInt_unsigned .w8 ((direction.move bits count).setWidth 8))
    (Value.toInt_unsigned .w8 byte) with ⟨masked, isMasked, denotes⟩
  have result : masked.convert byteType =
      .unsigned .w8 ((direction.move bits count).setWidth 8 &&& byte) :=
    Value.convert_unsigned denotes
  simp only [Function.apply, packHelper, made, Expression.eval, value, valueKept, shift, masking,
    maskKept, isShifted, narrowedByte, isMasked, result, Option.bind_eq_bind, Option.bind_some,
    Option.map_some]
  exact congrArg some (Value.convert_type _)

theorem apply_unpackHelper (direction : Direction) (payloadByte : Byte)
    (amountDenotes : amount.toInt = count) (maskDenotes : mask.toInt = byte.toNat)
    (within : count < width.bits) :
    (unpackHelper direction width).apply [.unsigned .w8 payloadByte, amount, mask] =
      some (.unsigned width
        (direction.move ((payloadByte &&& byte).setWidth width.bits) count)) := by
  have fit := @bits_fit width
  have amountKept := toInt_convert_byte amountDenotes (show count < 2 ^ 8 by omega)
  rcases ofArguments_helper byteType (.unsigned .w8 payloadByte) amount mask with
    ⟨memory, made, value, shift, masking⟩
  have valueKept : (Value.unsigned .w8 payloadByte).convert byteType =
      .unsigned .w8 payloadByte := Value.convert_unsigned (Value.toInt_unsigned .w8 payloadByte)
  have maskKept : mask.convert byteType = .unsigned .w8 byte := Value.convert_unsigned maskDenotes
  rcases Operator.apply_and (Value.toInt_unsigned .w8 payloadByte) (Value.toInt_unsigned .w8 byte)
    with ⟨masked, isMasked, denotes⟩
  have widened : masked.convert (unsignedType width) =
      .unsigned width ((payloadByte &&& byte).setWidth width.bits) := by
    apply Value.convert_unsigned
    rw [denotes, BitVec.toNat_setWidth_of_le fit.1, BitVec.toNat_and]
    rfl
  rcases Operator.apply_shift width direction ((payloadByte &&& byte).setWidth width.bits)
    amountKept within (Nat.le_refl width.bits) with ⟨shifted, isShifted, kept⟩
  rw [BitVec.setWidth_eq] at kept
  simp only [Function.apply, unpackHelper, made, Expression.eval, value, valueKept, shift,
    masking, maskKept, isMasked, widened, isShifted, kept, Option.bind_eq_bind, Option.bind_some,
    Option.map_some]
  exact congrArg some (Value.convert_type _)

end

/-! ## Calls -/

theorem Call.eval_of_find? {functions : List Function} {memory : Memory} {call : Call}
    {function : Function} {values : List Value}
    (found : functions.find? (fun function => function.name = call.function) = some function)
    (arguments : call.arguments.mapM (Expression.eval memory) = some values) :
    call.eval functions memory = function.apply values := by
  rw [Call.eval, found, arguments]
  rfl

theorem mapM_arguments (transfer : Transfer) {memory : Memory} {first : Expression}
    {value : Value} (evaluated : first.eval memory = some value) (small : transfer.amount < 64) :
    ∃ amount mask,
      (first :: transfer.arguments).mapM (Expression.eval memory) = some [value, amount, mask] ∧
        amount.toInt = transfer.amount ∧ mask.toInt = transfer.mask.toNat := by
  have maskSmall := transfer.mask.isLt
  rcases value?_literal { value := transfer.amount }
    (show transfer.amount < 2 ^ 32 by omega) rfl with ⟨amount, isAmount, amountDenotes⟩
  rcases value?_literal { value := transfer.mask.toNat, digits := .hexadecimalByte }
    (show transfer.mask.toNat < 2 ^ 32 by omega) rfl with ⟨mask, isMask, maskDenotes⟩
  refine ⟨amount, mask, ?_, amountDenotes, maskDenotes⟩
  simp [Transfer.arguments, Expression.eval, evaluated, isAmount, isMask]

theorem eval_packCall {segment : Segment} {width : Width} {memory : Memory} {raw : Object}
    {word : Word} (positive : 0 < segment.bitCount)
    (bound : segment.bitOffset + segment.bitCount ≤ 8)
    (valueBound : segment.valueOffset + segment.bitCount ≤ width.bits)
    (held : memory.value? raw = some (.unsigned width (word.setWidth width.bits))) :
    (packCall raw width segment).eval helpers memory =
      some (.unsigned .w8 (segment.pack word)) := by
  have fit := @bits_fit width
  have within := Transfer.ofPacking_amount_lt positive bound valueBound
  have evaluated : (Expression.read raw).eval memory = _ := held
  rcases mapM_arguments (Transfer.ofPacking segment) evaluated (by omega) with
    ⟨amount, mask, arguments, amountDenotes, maskDenotes⟩
  rw [Transfer.ofPacking_mask] at maskDenotes
  have applied := apply_packHelper (Transfer.ofPacking segment).direction
    (word.setWidth width.bits) amountDenotes maskDenotes within
  rw [Transfer.move_ofPacking word bound valueBound] at applied
  exact (Call.eval_of_find? (find?_packHelper _ width) arguments).trans applied

theorem eval_unpackCall {segment : Segment} {width : Width} {memory : Memory} {byte : Byte}
    (positive : 0 < segment.bitCount) (bound : segment.bitOffset + segment.bitCount ≤ 8)
    (valueBound : segment.valueOffset + segment.bitCount ≤ width.bits)
    (held : memory.value? (.element "src_p" segment.byteIndex) = some (.unsigned .w8 byte)) :
    (unpackCall width segment).eval helpers memory =
      some (.unsigned width ((segment.unpack byte).setWidth width.bits)) := by
  have fit := @bits_fit width
  have within := Transfer.ofUnpacking_amount_lt positive bound valueBound
  have evaluated : (Expression.read (.element "src_p" segment.byteIndex)).eval memory = _ := held
  rcases mapM_arguments (Transfer.ofUnpacking segment) evaluated (by omega) with
    ⟨amount, mask, arguments, amountDenotes, maskDenotes⟩
  rw [Transfer.ofUnpacking_mask] at maskDenotes
  have applied := apply_unpackHelper (Transfer.ofUnpacking segment).direction byte amountDenotes
    maskDenotes within
  rw [Transfer.move_ofUnpacking byte bound valueBound] at applied
  exact (Call.eval_of_find? (find?_unpackHelper _ width) arguments).trans applied

end CanCodec.C
