import Mathlib.Data.Nat.Bitwise
import CanCodec.C.Coding
import CanCodec.Proofs.C.Execution
import CanCodec.Proofs.RoundTrip

/-! # Packing and unpacking in C

The statements written for a field put into a payload, and take out of it, what the codec
does. -/

namespace CanCodec.C

/-! ## Segments of a field -/

structure Moves (width : Width) (payload : Payload) (segment : Segment) : Prop where
  positive : 0 < segment.bitCount
  inByte : segment.bitOffset + segment.bitCount ≤ 8
  inWidth : segment.valueOffset + segment.bitCount ≤ width.bits
  inPayload : segment.byteIndex < payload.length

theorem le_bits_primitive {field : Field} (narrow : field.signal.length ≤ 64) :
    field.signal.length ≤ field.primitive.width.bits :=
  Primitive.le_bits_ofBits narrow _

theorem Moves.of_placed {field : Field} {messageLength : Nat} {payload : Payload}
    {segment : Segment} (placed : field.Placed messageLength)
    (long : messageLength ≤ payload.length) (member : segment ∈ field.segments) :
    Moves field.primitive.width payload segment := by
  have bounds := placed.segment_bounds member
  exact ⟨bounds.1, bounds.2.1, Nat.le_trans bounds.2.2.2 (le_bits_primitive placed.narrow),
    Nat.lt_of_lt_of_le bounds.2.2.1 long⟩

/-! ## Packing -/

theorem Memory.Holds.putSegment {memory : Memory} {pointer : String} {payload : Payload}
    {segment : Segment} (held : memory.Holds pointer payload) (word : Word)
    (within : segment.byteIndex < payload.length) :
    (memory.declare (.element pointer segment.byteIndex)
      (.unsigned .w8 (payload.getD segment.byteIndex 0 ||| segment.pack word))).Holds pointer
        (Payload.putSegment word payload segment) := by
  intro index inResult
  rw [Payload.length_putSegment] at inResult
  rw [Payload.getD_putSegment word index within]
  by_cases same : segment.byteIndex = index
  · rw [if_pos same, same, value?_declare_self]
  · have different : Object.element pointer index ≠ .element pointer segment.byteIndex := by
      simp [Ne.symm same]
    rw [if_neg same, value?_declare_of_ne _ _ different, held index inResult]

theorem run_packSegments {memory : Memory} {payload : Payload} {width : Width}
    {segments : List Segment} {name : String} {word : Word}
    (held : memory.Holds "dst_p" payload)
    (variableHeld : memory.value? (.named name) =
      some (.unsigned width (word.setWidth width.bits)))
    (moves : ∀ segment ∈ segments, Moves width payload segment) :
    ∃ final, run helpers memory (segments.map (packStatement (.named name) width)) = some final ∧
      final.Holds "dst_p" (payload.put segments word) := by
  induction segments generalizing memory payload with
  | nil => exact ⟨memory, rfl, held⟩
  | cons segment rest induction =>
      have head := moves segment List.mem_cons_self
      have evaluated : Source.eval helpers memory
          (.result (packCall (.named name) width segment)) =
            some (.unsigned .w8 (segment.pack word)) :=
        eval_packCall head.positive head.inByte head.inWidth variableHeld
      have added := run_addBits _ (held segment.byteIndex head.inPayload) evaluated
        (Value.toInt_unsigned .w8 (segment.pack word))
      have kept : (memory.declare (.element "dst_p" segment.byteIndex)
          (.unsigned .w8 (payload.getD segment.byteIndex 0 ||| segment.pack word))).value?
            (.named name) = some (.unsigned width (word.setWidth width.bits)) := by
        rw [Memory.value?_declare_of_ne _ _ (by simp)]
        exact variableHeld
      have restMoves : ∀ other ∈ rest,
          Moves width (Payload.putSegment word payload segment) other := by
        intro other member
        have otherMoves := moves other (List.mem_cons_of_mem segment member)
        refine ⟨otherMoves.positive, otherMoves.inByte, otherMoves.inWidth, ?_⟩
        rw [Payload.length_putSegment]
        exact otherMoves.inPayload
      rcases induction (held.putSegment word head.inPayload) kept restMoves with
        ⟨final, ran, result⟩
      exact ⟨final, (run_assign_cons added _).trans ran, result⟩

/-! ## Gathering -/

section

variable {memory : Memory} {payload : Payload} {width : Width}

theorem Moves.eval_unpackCall {segment : Segment} (moves : Moves width payload segment)
    (held : memory.Holds "src_p" payload) :
    (unpackCall width segment).eval helpers memory =
      some (.unsigned width
        ((segment.unpack (payload.getD segment.byteIndex 0)).setWidth width.bits)) :=
  C.eval_unpackCall moves.positive moves.inByte moves.inWidth
    (held segment.byteIndex moves.inPayload)

theorem run_gatherRest {segments : List Segment} (name : String) (word : Word)
    (held : memory.Holds "src_p" payload)
    (moves : ∀ segment ∈ segments, Moves width payload segment) :
    run helpers (memory.declare (.named name) (.unsigned width (word.setWidth width.bits)))
        (segments.map fun segment => .assign
          { target := .named name, operator := some .or
            source := .result (unpackCall width segment) }) =
      some (memory.declare (.named name) (.unsigned width
        ((segments.foldl (fun word segment =>
          word ||| segment.unpack (payload.getD segment.byteIndex 0)) word).setWidth
            width.bits))) := by
  induction segments generalizing word with
  | nil => rfl
  | cons segment rest induction =>
      have evaluated := (moves segment List.mem_cons_self).eval_unpackCall
        (held.declare_named name (.unsigned width (word.setWidth width.bits)))
      have added := run_addBits (.result (unpackCall width segment))
        (Memory.value?_declare_self memory (.named name)
          (.unsigned width (word.setWidth width.bits))) evaluated
        (Value.toInt_unsigned width _)
      rw [Memory.declare_declare, ← BitVec.setWidth_or] at added
      exact (run_assign_cons added _).trans (induction _ fun other member =>
        moves other (List.mem_cons_of_mem segment member))

theorem run_gatherStatements {segments : List Segment} {name : String}
    (held : memory.Holds "src_p" payload)
    (declared : memory.Declares (.named name) (unsignedType width))
    (moves : ∀ segment ∈ segments, Moves width payload segment) (nonempty : segments ≠ []) :
    run helpers memory (gatherStatements (.named name) width segments) =
      some (memory.declare (.named name)
        (.unsigned width ((payload.gather segments).setWidth width.bits))) := by
  cases segments with
  | nil => exact absurd rfl nonempty
  | cons first rest =>
      have evaluated := (moves first List.mem_cons_self).eval_unpackCall held
      have assigned := run_assign (.result (unpackCall width first)) declared evaluated
      rw [Value.convert_unsigned (Value.toInt_unsigned width _)] at assigned
      have start : 0 ||| first.unpack (payload.getD first.byteIndex 0) =
        first.unpack (payload.getD first.byteIndex 0) := BitVec.zero_or
      rw [gatherStatements, Payload.gather, List.foldl_cons, start]
      exact (run_assign_cons assigned _).trans (run_gatherRest name _ held fun segment member =>
        moves segment (List.mem_cons_of_mem first member))

end

/-! ## Sign extension -/

theorem value?_maskConstant {type : Primitive} {natural : Nat} (small : natural < 2 ^ type.bits) :
    ∃ value, (maskConstant type natural).value? = some value ∧ value.toInt = natural := by
  rw [Constant.value?]
  by_cases short : 32 < type.bits
  · have long : ¬ ((maskConstant type natural).value < 2 ^ 32 ∧
        (maskConstant type natural).long = false) := by simp [maskConstant, short]
    have fit := @bits_fit type.width
    have below : natural < 2 ^ 64 :=
      Nat.lt_of_lt_of_le small (Nat.pow_le_pow_right (by decide) fit.2)
    rw [if_neg long]
    exact ⟨_, if_pos below, Value.toInt_ofInt below⟩
  · have below : natural < 2 ^ 32 :=
      Nat.lt_of_lt_of_le small (Nat.pow_le_pow_right (by decide) (by omega))
    rw [if_pos ⟨below, by simp [maskConstant, short]⟩]
    exact ⟨_, rfl, Value.toInt_ofInt below⟩

theorem testBit_two_pow_sub_two_pow {length width : Nat} (le : length ≤ width) (index : Nat) :
    (2 ^ width - 2 ^ length).testBit index = decide (length ≤ index ∧ index < width) := by
  have factored : 2 ^ width - 2 ^ length = (2 ^ (width - length) - 1) * 2 ^ length := by
    rw [Nat.sub_mul, ← Nat.pow_add, Nat.sub_add_cancel le, Nat.one_mul]
  rw [factored, ← Nat.shiftLeft_eq, Nat.testBit_shiftLeft, Nat.testBit_two_pow_sub_one]
  grind

/-- The bits that the emitted test of the sign bit leaves in a variable. -/
def extendBits {width : Nat} (sign : Option SignExtension) (bits : BitVec width) :
    BitVec width :=
  match sign with
  | none => bits
  | some sign =>
      if bits.toNat &&& sign.signBit = 0 then bits else bits ||| BitVec.ofNat width sign.extension

theorem SignExtension.ofField?_eq_some {field : Field} {sign : SignExtension}
    (given : ofField? field = some sign) :
    field.signal.signed = true ∧ field.signal.length < field.primitive.bits ∧
      sign = ⟨2 ^ (field.signal.length - 1),
        2 ^ field.primitive.bits - 2 ^ field.signal.length⟩ := by
  simp only [ofField?] at given
  split at given
  next narrow => exact ⟨narrow.1, narrow.2, (Option.some.inj given).symm⟩
  next => cases given

theorem run_extendStatements {functions : List Function} {memory : Memory} {raw : Object}
    {field : Field} (bits : BitVec field.primitive.width.bits) :
    run functions (memory.declare raw (.unsigned field.primitive.width bits))
        (extendStatements raw field) =
      some (memory.declare raw (.unsigned field.primitive.width
        (extendBits (SignExtension.ofField? field) bits))) := by
  rw [extendStatements]
  cases given : SignExtension.ofField? field with
  | none => rfl
  | some sign =>
      have parts := SignExtension.ofField?_eq_some given
      have signSmall : sign.signBit < 2 ^ field.primitive.bits := by
        rw [parts.2.2]
        exact Nat.pow_lt_pow_right (by decide) (by omega)
      have extensionSmall : sign.extension < 2 ^ field.primitive.bits := by
        rw [parts.2.2]
        exact Nat.sub_lt (Nat.two_pow_pos _) (Nat.two_pow_pos _)
      rcases value?_maskConstant signSmall with ⟨signBit, isSignBit, signBitDenotes⟩
      rcases value?_maskConstant extensionSmall with ⟨extension, isExtension, extensionDenotes⟩
      rcases value?_literal { value := 0 } (by decide) rfl with ⟨zero, isZero, zeroDenotes⟩
      have held := Memory.value?_declare_self memory raw
        (.unsigned field.primitive.width bits)
      rcases Operator.apply_and (Value.toInt_unsigned field.primitive.width bits) signBitDenotes
        with ⟨masked, isMasked, maskedDenotes⟩
      rcases Operator.apply_notEqual maskedDenotes zeroDenotes with ⟨differs, isDiffers, clear⟩
      have extensionBits : extension.toInt =
          (BitVec.ofNat field.primitive.width.bits sign.extension).toNat := by
        rw [extensionDenotes, BitVec.toNat_ofNat]
        exact congrArg _ (Nat.mod_eq_of_lt extensionSmall).symm
      have evaluated : Source.eval functions
          (memory.declare raw (.unsigned field.primitive.width bits))
          (.value (.literal (maskConstant field.primitive sign.extension))) = some extension :=
        isExtension
      have added := run_addBits _ held evaluated extensionBits
      rw [Memory.declare_declare] at added
      simp only [run, Statement.run, Expression.eval, held, isSignBit, isMasked, isZero, isDiffers,
        Option.bind_eq_bind, Option.bind_some, clear, extendBits]
      split
      next => rfl
      next => rw [added]; rfl

theorem getLsbD_extendBits {width length index : Nat} (bits : BitVec width)
    (le : length ≤ width) (within : index < width) :
    (extendBits (some ⟨2 ^ (length - 1), 2 ^ width - 2 ^ length⟩) bits).getLsbD index =
      (bits.getLsbD index || bits.getLsbD (length - 1) && decide (length ≤ index)) := by
  have extension : (BitVec.ofNat width (2 ^ width - 2 ^ length)).getLsbD index =
      decide (length ≤ index) := by
    rw [BitVec.getLsbD_ofNat, testBit_two_pow_sub_two_pow le]
    simp [within]
  have tested : bits.toNat &&& 2 ^ (length - 1) = 0 ↔ bits.getLsbD (length - 1) = false := by
    rw [Nat.and_two_pow, BitVec.testBit_toNat]
    cases bits.getLsbD (length - 1) <;> simp
  simp only [extendBits, tested]
  cases bits.getLsbD (length - 1) with
  | false => simp
  | true => simp [extension]

theorem extendBits_of_signed {field : Field} {word : Word} (signed : field.signal.signed = true)
    (positive : 0 < field.signal.length) (narrow : field.signal.length ≤ 64)
    (clear : ∀ index, word.getLsbD index = true → index < field.signal.length) :
    extendBits (SignExtension.ofField? field) (word.setWidth field.primitive.width.bits) =
      (word.setWidth field.signal.length).signExtend field.primitive.width.bits := by
  have le := le_bits_primitive narrow
  have last : field.signal.length - 1 < field.signal.length := by omega
  have lastWithin : field.signal.length - 1 < field.primitive.width.bits := by omega
  apply BitVec.eq_of_getLsbD_eq
  intro index within
  rw [BitVec.getLsbD_signExtend, BitVec.msb_eq_getLsbD_last, BitVec.getLsbD_setWidth,
    BitVec.getLsbD_setWidth]
  cases given : SignExtension.ofField? field with
  | none =>
      have whole : index < field.signal.length := by
        simp only [SignExtension.ofField?, signed, true_and] at given
        split at given
        next => cases given
        next notNarrower =>
          change ¬ field.signal.length < field.primitive.width.bits at notNarrower
          omega
      simp [extendBits, within, whole]
  | some sign =>
      have isSign : sign = ⟨2 ^ (field.signal.length - 1),
          2 ^ field.primitive.width.bits - 2 ^ field.signal.length⟩ :=
        (SignExtension.ofField?_eq_some given).2.2
      rw [isSign, getLsbD_extendBits _ le within]
      by_cases low : index < field.signal.length
      · simp [within, low]
      · have unset : word.getLsbD index = false := by
          simpa using fun set => low (clear index set)
        simp [within, low, Nat.le_of_not_lt low, unset, last, lastWithin]

/-- The emitted test and cast read a word as the signal does. -/
theorem toInt_extendBits {field : Field} {word : Word} (positive : 0 < field.signal.length)
    (narrow : field.signal.length ≤ 64)
    (clear : ∀ index, word.getLsbD index = true → index < field.signal.length) :
    ((Value.unsigned field.primitive.width (extendBits (SignExtension.ofField? field)
      (word.setWidth field.primitive.width.bits))).convert field.primitive).toInt =
        field.signal.interpret word := by
  have le := le_bits_primitive narrow
  have sameSign : field.primitive.signed = field.signal.signed := rfl
  generalize bitsEqual : extendBits (SignExtension.ofField? field)
    (word.setWidth field.primitive.width.bits) = bits
  have converted : ((Value.unsigned field.primitive.width bits).convert field.primitive).toInt =
      if field.signal.signed then bits.toInt else bits.toNat := by
    have kept : (Value.unsigned field.primitive.width bits).bitsAs field.primitive = bits :=
      (BitVec.ofNat_toNat _ bits).trans (BitVec.setWidth_eq bits)
    rw [Value.convert, kept, Value.toInt, sameSign]
    rfl
  rw [converted, Signal.interpret, Nat.min_eq_left narrow]
  cases signed : field.signal.signed with
  | true =>
      rw [extendBits_of_signed signed positive narrow clear] at bitsEqual
      simp only [if_true]
      rw [← bitsEqual, BitVec.toInt_signExtend_of_le le]
  | false =>
      have none : SignExtension.ofField? field = none := by simp [SignExtension.ofField?, signed]
      rw [none, extendBits] at bitsEqual
      simp only [Bool.false_eq_true, if_false]
      have below := Nat.lt_of_lt_of_le (toNat_lt_of_clear clear)
        (Nat.pow_le_pow_right (by decide) le)
      rw [← bitsEqual, BitVec.toNat_setWidth, Nat.mod_eq_of_lt below]

/-! ## Fields -/

theorem run_rawStatements {field : Field} {messageLength : Nat} {payload : Payload}
    {memory : Memory} (placed : field.Placed messageLength) (long : messageLength ≤ payload.length)
    (held : memory.Holds "src_p" payload)
    (declared : memory.Declares (rawVariable field.signal) field.primitive.unsigned) :
    run helpers memory (rawStatements field) =
      some (memory.declare (rawVariable field.signal) (.unsigned field.primitive.width
        (extendBits (SignExtension.ofField? field)
          ((payload.gather field.segments).setWidth field.primitive.width.bits)))) := by
  have gathered := run_gatherStatements held declared
    (fun segment member => Moves.of_placed placed long member) placed.segments_ne_nil
  rw [rawStatements, run_append]
  change (run helpers memory (gatherStatements (rawVariable field.signal) _ _)).bind _ = _
  have declaredRaw : rawVariable field.signal = .named (memberName field.signal ++ "_raw") := rfl
  rw [declaredRaw, gathered, Option.bind_some]
  exact run_extendStatements _

theorem unpack_field {field : Field} {messageLength : Nat} {payload : Payload}
    {memory : Memory} (placed : field.Placed messageLength) (long : messageLength ≤ payload.length)
    (held : memory.Holds "src_p" payload)
    (declared : memory.Declares (rawVariable field.signal) field.primitive.unsigned) :
    ∃ final value, run helpers memory (rawStatements field) = some final ∧
      (memberExpression field).eval final = some value ∧ value.type = field.primitive ∧
        value.toInt = field.read payload := by
  have ran := run_rawStatements placed long held declared
  generalize bitsEqual : extendBits (SignExtension.ofField? field)
    ((payload.gather field.segments).setWidth field.primitive.width.bits) = bits at ran
  have evaluated : (memberExpression field).eval (memory.declare (rawVariable field.signal)
      (.unsigned field.primitive.width bits)) =
        some ((Value.unsigned field.primitive.width bits).convert field.primitive) := by
    simp only [memberExpression, Expression.eval, Memory.value?_declare_self, Option.map_some]
  refine ⟨_, _, ran, evaluated, rfl, ?_⟩
  rw [← bitsEqual, Field.read]
  apply toInt_extendBits placed.fits.1 placed.narrow
  intro index set
  exact ((Field.getLsbD_gather payload index placed).mp set).1

theorem pack_field {field : Field} {messageLength : Nat} {payload : Payload} {memory : Memory}
    {value : Value} (placed : field.Placed messageLength) (long : messageLength ≤ payload.length)
    (held : memory.Holds "dst_p" payload)
    (declared : memory.Declares (rawVariable field.signal) field.primitive.unsigned)
    (memberHeld : memory.value? (.member "src_p" (memberName field.signal)) = some value) :
    ∃ final, run helpers memory (packStatements field) = some final ∧
      final.Holds "dst_p" (field.write payload value.toInt) := by
  have evaluated : Source.eval helpers memory
      (.value (.cast field.primitive.unsigned
        (.read (.member "src_p" (memberName field.signal))))) =
          some (value.convert field.primitive.unsigned) := by
    simp only [Source.eval, Expression.eval, memberHeld, Option.map_some]
  have assigned := run_assign _ declared evaluated
  have converted : value.convert field.primitive.unsigned = .unsigned field.primitive.width
      ((BitVec.ofInt 64 value.toInt).setWidth field.primitive.width.bits) := by
    rw [setWidth_ofInt_of_le bits_fit.2]
    rfl
  have unchanged : (Value.unsigned field.primitive.width
      ((BitVec.ofInt 64 value.toInt).setWidth field.primitive.width.bits)).convert
        field.primitive.unsigned = _ := Value.convert_type _
  rw [converted, unchanged] at assigned
  rcases run_packSegments (held.declare_named _ _) (Memory.value?_declare_self memory _ _)
    (fun segment member => Moves.of_placed placed long member) with ⟨final, ran, result⟩
  exact ⟨final, (run_assign_cons assigned _).trans ran, result⟩

def steering : Message where
  frameId := 0x25
  name := "Steering"
  length := 4
  signals :=
    [{ name := "Angle", start := 6, length := 19, byteOrder := .bigEndian, signed := true }]

def steeringSchema : Schema where
  version := none
  messages := [steering]
  sound := by decide

def angle : Field where
  index := 0
  signal := { name := "Angle", start := 6, length := 19, byteOrder := .bigEndian, signed := true }
  segments := [⟨0, 0, 2, 17⟩, ⟨1, 0, 8, 9⟩, ⟨2, 0, 8, 1⟩, ⟨3, 7, 1, 0⟩]
  storageBits := 32
  offset := 0

def anglePayload : Payload := [0xfe, 0x5b, 0xc0, 0x9f]

def angleMemory : Memory
  | .element "src_p" index =>
      anglePayload[index]?.map fun byte => ⟨unsignedType .w8, some byte⟩
  | .element "dst_p" _ => some ⟨unsignedType .w8, some 0⟩
  | .member "src_p" "angle" => some ⟨⟨.w32, true⟩, some (-215167)⟩
  | .named "angle_raw" => some ⟨unsignedType .w32, none⟩
  | _ => none

def angleCodec : Codec where
  message := steering
  layout := .ofPlan "Steering" false (steering.signals.map Frame.placing)

end CanCodec.C
