import CanCodec.Proofs.C.Coding
import CanCodec.Proofs.Checked.Coding
import CanCodec.Proofs.Checked.Storage
import CanCodec.Proofs.Encoding

/-! # Statements with checked operations

Generated code moves the bits of a segment with amounts and masks that are computed while
the code is written. These computations are always defined, as are those of coding a record
and of laying it out. -/

namespace CanCodec.Checked

/-! ## Transfers -/

def packTransfer (segment : Segment) : Option C.Transfer := do
  let ones ← mask segment
  if segment.valueOffset ≤ segment.bitOffset then
    let amount ← subtract segment.bitOffset segment.valueOffset
    return ⟨.left, amount, ones⟩
  else
    let amount ← subtract segment.valueOffset segment.bitOffset
    return ⟨.right, amount, ones⟩

def unpackTransfer (segment : Segment) : Option C.Transfer := do
  let ones ← mask segment
  if segment.bitOffset ≤ segment.valueOffset then
    let amount ← subtract segment.valueOffset segment.bitOffset
    return ⟨.left, amount, ones⟩
  else
    let amount ← subtract segment.bitOffset segment.valueOffset
    return ⟨.right, amount, ones⟩

section

variable {segment : Segment} {length : Nat}

theorem packTransfer_eq (movable : Movable segment length) :
    packTransfer segment = some (.ofPacking segment) := by
  simp only [packTransfer, mask_eq movable, Option.bind_eq_bind, Option.bind_some,
    C.Transfer.ofPacking]
  split
  next le => rw [subtract_of_le le]; rfl
  next above => rw [subtract_of_le (Nat.le_of_not_le above)]; rfl

theorem unpackTransfer_eq (movable : Movable segment length) :
    unpackTransfer segment = some (.ofUnpacking segment) := by
  simp only [unpackTransfer, mask_eq movable, Option.bind_eq_bind, Option.bind_some,
    C.Transfer.ofUnpacking]
  split
  next le => rw [subtract_of_le le]; rfl
  next above => rw [subtract_of_le (Nat.le_of_not_le above)]; rfl

end

/-! ## Sign bits -/

def widthMask (bits : Nat) : Option Word :=
  if 64 ≤ bits then some (BitVec.allOnes 64)
  else do
    let power ← shiftLeft (1 : Word) bits
    decrement power

def signExtension (codec : Codec) (field : Field) : Option (Option C.SignExtension) := do
  let signal ← signal? codec field
  if signal.signed ∧ signal.length < field.primitive.bits then
    let last ← subtract signal.length 1
    let signBit ← shiftLeft (1 : Word) last
    let type ← widthMask field.primitive.bits
    let low ← widthMask signal.length
    return some ⟨signBit.toNat, (type &&& ~~~low).toNat⟩
  else return none

theorem toNat_one_shiftLeft {amount : Nat} (inWord : amount < 64) :
    ((1 : Word) <<< amount).toNat = 2 ^ amount := by
  have power : 2 ^ amount < 2 ^ 64 := Nat.pow_lt_pow_right (by decide) inWord
  have one : (1 : Word).toNat = 1 := rfl
  rw [BitVec.toNat_shiftLeft, Nat.shiftLeft_eq, one, Nat.one_mul, Nat.mod_eq_of_lt power]

theorem widthMask_eq {bits : Nat} (le : bits ≤ 64) :
    ∃ low, widthMask bits = some low ∧ low.toNat = 2 ^ bits - 1 := by
  rw [widthMask]
  split
  next all =>
    obtain rfl : bits = 64 := Nat.le_antisymm le all
    exact ⟨_, rfl, rfl⟩
  next narrow =>
    have inWord := Nat.lt_of_not_le narrow
    have power := toNat_one_shiftLeft inWord
    have positive := Nat.two_pow_pos bits
    have nonzero : (1 : Word) <<< bits ≠ 0 := by
      intro zero
      rw [zero] at power
      exact absurd power (Nat.ne_of_lt positive)
    simp only [shiftLeft_of_lt inWord, Option.bind_eq_bind, Option.bind_some,
      decrement_of_ne nonzero]
    refine ⟨_, rfl, ?_⟩
    rw [BitVec.toNat_sub_of_le, power]
    · rfl
    · rw [BitVec.le_def, power]
      exact positive

theorem toNat_and_not {wide low : Word} {width length : Nat} (bound : width ≤ 64)
    (le : length ≤ width) (wideBits : wide.toNat = 2 ^ width - 1)
    (lowBits : low.toNat = 2 ^ length - 1) :
    (wide &&& ~~~low).toNat = 2 ^ width - 2 ^ length := by
  apply Nat.eq_of_testBit_eq
  intro index
  rw [C.testBit_two_pow_sub_two_pow le, BitVec.testBit_toNat, BitVec.getLsbD_and,
    BitVec.getLsbD_not, ← BitVec.testBit_toNat, ← BitVec.testBit_toNat, wideBits, lowBits,
    Nat.testBit_two_pow_sub_one, Nat.testBit_two_pow_sub_one]
  by_cases within : index < width
  · have inWord : index < 64 := Nat.lt_of_lt_of_le within bound
    simp [within, inWord, ← decide_not]
  · simp [within]

theorem signExtension_eq {codec : Codec} {field : Field} (inBounds : InBounds codec field) :
    signExtension codec field = some (C.SignExtension.ofField? field) := by
  have narrow := inBounds.narrow
  have positive := inBounds.positive
  have type := field.primitive.bits_le
  rw [signExtension, inBounds.signal, C.SignExtension.ofField?]
  simp only [Option.bind_eq_bind, Option.bind_some]
  split
  next extended =>
    have last : field.signal.length - 1 < 64 := by omega
    rcases widthMask_eq type with ⟨wide, isWide, wideBits⟩
    rcases widthMask_eq narrow with ⟨low, isLow, lowBits⟩
    simp only [subtract_of_le positive, shiftLeft_of_lt last, isWide, isLow, Option.bind_some,
      Option.pure_def, toNat_one_shiftLeft last,
      toNat_and_not type (Nat.le_of_lt extended.2) wideBits lowBits, Nat.pow_eq]
  next => rfl

/-! ## Statements -/

def packCall (raw : C.Object) (width : Width) (segment : Segment) : Option C.Call := do
  let transfer ← packTransfer segment
  return ⟨C.packHelperName transfer.direction width, .read raw :: transfer.arguments⟩

def unpackCall (width : Width) (segment : Segment) : Option C.Call := do
  let transfer ← unpackTransfer segment
  return ⟨C.unpackHelperName transfer.direction width,
    .read (.element "src_p" segment.byteIndex) :: transfer.arguments⟩

def packStatement (raw : C.Object) (width : Width) (segment : Segment) : Option C.Statement := do
  let call ← packCall raw width segment
  return .assign
    { target := .element "dst_p" segment.byteIndex, operator := some .or, source := .result call }

def packStatements (field : Field) : Option (List C.Statement) := do
  let raw := C.rawVariable field.signal
  let stores ← field.segments.mapM (packStatement raw field.primitive.width)
  return .assign
    { target := raw
      source := .value (.cast field.primitive.unsigned
        (.read (.member "src_p" (C.memberName field.signal)))) } :: stores

def gatherCalls (raw : C.Object) : List C.Call → List C.Statement
  | [] => []
  | first :: rest =>
      .assign { target := raw, source := .result first } ::
        rest.map fun call => .assign { target := raw, operator := some .or, source := .result call }

def extendSign (raw : C.Object) (type : Primitive) : Option C.SignExtension → List C.Statement
  | none => []
  | some sign =>
      let signBit := .literal (C.maskConstant type sign.signBit)
      let extension := .literal (C.maskConstant type sign.extension)
      [.test (.binary .notEqual (.binary .and (.read raw) signBit) (.literal { value := 0 }))
        { target := raw, operator := some .or, source := .value extension }]

def unpackStatements (codec : Codec) (field : Field) : Option (List C.Statement) := do
  let raw := C.rawVariable field.signal
  let calls ← field.segments.mapM (unpackCall field.primitive.width)
  let sign ← signExtension codec field
  return gatherCalls raw calls ++ extendSign raw field.primitive sign ++
    [.assign
      { target := .member "dst_p" (C.memberName field.signal)
        source := .value (C.memberExpression field) }]

section

variable {codec : Codec} {field : Field}

theorem packStatements_eq (inBounds : InBounds codec field) :
    packStatements field = some (C.packStatements field) := by
  have stores : field.segments.mapM (packStatement (C.rawVariable field.signal)
      field.primitive.width) = some (field.segments.map
        (C.packStatement (C.rawVariable field.signal) field.primitive.width)) := by
    refine mapM_eq_some_map fun segment member => ?_
    rw [packStatement, packCall, packTransfer_eq (inBounds.movable segment member)]
    rfl
  rw [packStatements, stores]
  rfl

theorem gatherCalls_eq (raw : C.Object) (width : Width) (segments : List Segment) :
    gatherCalls raw (segments.map (C.unpackCall width)) =
      C.gatherStatements raw width segments := by
  cases segments with
  | nil => rfl
  | cons first rest =>
      rw [List.map_cons, gatherCalls, List.map_map]
      rfl

theorem extendSign_eq (raw : C.Object) (field : Field) :
    extendSign raw field.primitive (C.SignExtension.ofField? field) =
      C.extendStatements raw field := by
  rw [C.extendStatements]
  cases C.SignExtension.ofField? field <;> rfl

theorem unpackStatements_eq (inBounds : InBounds codec field) :
    unpackStatements codec field = some (C.unpackStatements field) := by
  have calls : field.segments.mapM (unpackCall field.primitive.width) =
      some (field.segments.map (C.unpackCall field.primitive.width)) := by
    refine mapM_eq_some_map fun segment member => ?_
    rw [unpackCall, unpackTransfer_eq (inBounds.movable segment member)]
    rfl
  simp only [unpackStatements, calls, signExtension_eq inBounds, Option.bind_eq_bind,
    Option.bind_some, gatherCalls_eq, extendSign_eq]
  rfl

end

/-! ## Codecs -/

/-- The codec of a planned message has one operation that is not defined everywhere: a step
back that leaves the integers of 128 bits. Encoding has no result exactly where the first
signal without a raw value takes such a step. Whatever the record, the payload and the length
of the payload, every other operation is defined: coding gives the results of the codec, and
writing the code gives its statements. In a strict plan the bits of the record are counted
without overflow. -/
theorem operations_defined (schema : Schema) (message : Message)
    (member : message ∈ schema.messages) (packed strict : Bool) (codec : Codec)
    (planned : Codec.plan message packed strict = .ok codec) :
    (∀ field ∈ codec.fields, InBounds codec field) ∧
    (∀ record, encode codec record = outcome (codec.encode record) ∧
      (encode codec record = none ↔
        ∃ before signal after, message.signals = before ++ signal :: after ∧
          (∀ other ∈ before, other.Encodes record) ∧ signal.OverflowsOn record)) ∧
    (∀ payload, decode codec payload = some (codec.decode payload) ∧
      decodeRaw codec payload = some (codec.decodeRaw payload)) ∧
    (∀ field ∈ codec.fields, packStatements field = some (C.packStatements field) ∧
      unpackStatements codec field = some (C.unpackStatements field)) ∧
    ∃ placed, Frame.planMessage message strict = .ok placed ∧
      (strict = true → ofPlan message.name packed placed = some codec.layout) := by
  have inBounds := inBounds_of_plan member planned
  rcases Codec.plan_ok_iff.mp planned with ⟨fits, apart, equal⟩
  refine ⟨inBounds, fun record => ⟨encode_eq inBounds record, ?_⟩,
    fun payload => ⟨decode_eq inBounds payload, decodeRaw_eq inBounds payload⟩,
    fun field fieldMember => ⟨packStatements_eq (inBounds field fieldMember),
      unpackStatements_eq (inBounds field fieldMember)⟩,
    message.signals.map Frame.placing, Frame.planMessage_ok_iff.mpr ⟨fits, apart, rfl⟩, ?_⟩
  · have isPlanned : codec.Planned := .of_plan planned fun signal signalMember =>
      (schema.signal_length_bounds member signalMember).2
    rw [encode_eq inBounds, outcome_eq_none_iff, isPlanned.encode_error_iff_first,
      Codec.message_of_plan planned]
    simp only [Signal.rawOf_overflow_iff]
  · intro isStrict
    rw [equal]
    exact ofPlan_strict member fits (apart isStrict)

def column : Message where
  frameId := 0x1f0
  name := "Column"
  length := 10
  signals :=
    [{ name := "Torque", start := 0, length := 12, byteOrder := .bigEndian, signed := true
       initial := some (-2) },
      { name := "Total", start := 16, length := 64, byteOrder := .littleEndian
        initial := some 1 }]

def columnSchema : Schema where
  version := none
  messages := [column]
  sound := by decide

def columnCodec : Codec where
  message := column
  layout := .ofPlan "Column" true (column.signals.map Frame.placing)

theorem operations_defined_column :
    Codec.plan column true true = .ok columnCodec ∧
      encode columnCodec .empty = some (.ok [0xff, 0xe0, 1, 0, 0, 0, 0, 0, 0, 0]) ∧
      decodeRaw columnCodec [0xff, 0xe0] = some (.error (.truncated 0x1f0 10 2)) ∧
      (∀ field ∈ columnCodec.fields, unpackStatements columnCodec field =
        some (C.unpackStatements field)) ∧
      ∃ placed, Frame.planMessage column true = .ok placed ∧
        ofPlan "Column" true placed = some columnCodec.layout := by
  have planned : Codec.plan column true true = .ok columnCodec := by rfl
  rcases operations_defined columnSchema column List.mem_cons_self true true columnCodec planned
    with ⟨_, encodes, decodes, writes, placed, isPlaced, laid⟩
  refine ⟨planned, ?_, ?_, fun field member => (writes field member).2, placed, isPlaced, laid rfl⟩
  · rw [(encodes _).1]
    rfl
  · rw [(decodes _).2]
    rfl

/-- A step back from the least of the integers of 128 bits is not defined, and neither is
encoding a number that takes it. -/
theorem not_encode_defined :
    (¬ ∀ (schema : Schema) (message : Message) (packed strict : Bool) (codec : Codec)
        (record : Record), message ∈ schema.messages →
      Codec.plan message packed strict = .ok codec → (encode codec record).isSome) ∧
      encode Codec.batteryCodec (.ofList [("Drain", .real (-1e39))]) = none := by
  have undefined : encode Codec.batteryCodec (.ofList [("Drain", .real (-1e39))]) = none := by
    decide +kernel
  refine ⟨fun defined => ?_, undefined⟩
  have isSome := defined Signal.batterySchema Signal.battery false true Codec.batteryCodec
    (.ofList [("Drain", .real (-1e39))]) List.mem_cons_self rfl
  rw [undefined] at isSome
  cases isSome

end CanCodec.Checked
