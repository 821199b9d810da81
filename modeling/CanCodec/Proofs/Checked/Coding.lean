import CanCodec.Proofs.Codec
import CanCodec.Proofs.Schema

/-! # Coding with checked operations

Machine operations are not defined everywhere: a shift must stay below the width of its
value, a difference must not fall below zero, a step must not leave the integers of 128 bits,
an element must exist. Here a record is coded once more, operation by operation, with no
result where an operation is undefined. For the codec of a planned message every operation
is defined except a step of a raw value that overflows, and the results are those of the
codec. -/

namespace CanCodec

namespace Checked

/-! ## Machine operations -/

section

variable {width : Nat}

def shiftLeft (value : BitVec width) (amount : Nat) : Option (BitVec width) :=
  if amount < width then some (value <<< amount) else none

def shiftRight (value : BitVec width) (amount : Nat) : Option (BitVec width) :=
  if amount < width then some (value >>> amount) else none

def shiftRightSigned (value : BitVec width) (amount : Nat) : Option (BitVec width) :=
  if amount < width then some (value.sshiftRight amount) else none

def decrement (value : BitVec width) : Option (BitVec width) :=
  if value = 0 then none else some (value - 1)

def subtract (first second : Nat) : Option Nat :=
  if second ≤ first then some (first - second) else none

/-- The outcome of a computation in which no integer overflows. -/
def outcome {ε α : Type} : Except (Failure ε) α → Option (Except ε α)
  | .ok result => some (.ok result)
  | .error (.fault fault) => some (.error fault)
  | .error .overflow => none

variable {value : BitVec width} {amount : Nat}

theorem shiftLeft_of_lt (inWidth : amount < width) :
    shiftLeft value amount = some (value <<< amount) := if_pos inWidth

theorem shiftRight_of_lt (inWidth : amount < width) :
    shiftRight value amount = some (value >>> amount) := if_pos inWidth

theorem shiftRightSigned_of_lt (inWidth : amount < width) :
    shiftRightSigned value amount = some (value.sshiftRight amount) := if_pos inWidth

theorem decrement_of_ne (positive : value ≠ 0) : decrement value = some (value - 1) :=
  if_neg positive

theorem subtract_of_le {first second : Nat} (le : second ≤ first) :
    subtract first second = some (first - second) := if_pos le

theorem outcome_eq_none_iff {ε α : Type} {computed : Except (Failure ε) α} :
    outcome computed = none ↔ computed = .error .overflow := by
  rcases computed with (_ | _) | _ <;> simp [outcome]

end

/-! ## Segments -/

structure Movable (segment : Segment) (length : Nat) : Prop where
  byte : segment.byteIndex < length
  byteShift : segment.bitOffset < 8
  maskShift : segment.bitCount ≤ 8
  wordShift : segment.valueOffset < 64

/-- The mask of a segment, computed in sixteen bits and shifted in eight. -/
def mask (segment : Segment) : Option Byte := do
  let power ← shiftLeft (1 : BitVec 16) segment.bitCount
  let ones ← decrement power
  shiftLeft (ones.setWidth 8) segment.bitOffset

def pack (segment : Segment) (word : Word) : Option Byte := do
  let low ← shiftRight word segment.valueOffset
  let placed ← shiftLeft (low.setWidth 8) segment.bitOffset
  let ones ← mask segment
  return placed &&& ones

def unpack (segment : Segment) (byte : Byte) : Option Word := do
  let ones ← mask segment
  let low ← shiftRight (byte &&& ones) segment.bitOffset
  shiftLeft (low.setWidth 64) segment.valueOffset

section

variable {segment : Segment} {length : Nat}

theorem mask_eq (movable : Movable segment length) : mask segment = some segment.mask := by
  have powers : ∀ count < 9, (1 : BitVec 16) <<< count ≠ 0 ∧
      ((1 : BitVec 16) <<< count - 1).setWidth 8 = BitVec.ofNat 8 (2 ^ count - 1) := by decide
  rcases powers segment.bitCount (Nat.lt_succ_of_le movable.maskShift) with ⟨positive, ones⟩
  have inWidth : segment.bitCount < 16 := Nat.lt_of_le_of_lt movable.maskShift (by decide)
  simp only [mask, shiftLeft_of_lt inWidth, Option.bind_eq_bind, Option.bind_some,
    decrement_of_ne positive, shiftLeft_of_lt movable.byteShift, ones]
  rfl

theorem pack_eq (movable : Movable segment length) (word : Word) :
    pack segment word = some (segment.pack word) := by
  simp only [pack, shiftRight_of_lt movable.wordShift, shiftLeft_of_lt movable.byteShift,
    mask_eq movable, Option.bind_eq_bind, Option.bind_some]
  rfl

theorem unpack_eq (movable : Movable segment length) (byte : Byte) :
    unpack segment byte = some (segment.unpack byte) := by
  simp only [unpack, mask_eq movable, shiftRight_of_lt movable.byteShift,
    shiftLeft_of_lt movable.wordShift, Option.bind_eq_bind, Option.bind_some]
  rfl

end

/-! ## Words in a payload -/

def put (payload : Payload) (segments : List Segment) (word : Word) : Option Payload :=
  segments.foldlM (fun payload segment => do
    let byte ← payload[segment.byteIndex]?
    let packed ← pack segment word
    return payload.set segment.byteIndex (byte ||| packed)) payload

def gather (payload : Payload) (segments : List Segment) : Option Word :=
  segments.foldlM (fun word segment => do
    let byte ← payload[segment.byteIndex]?
    let bits ← unpack segment byte
    return word ||| bits) 0

theorem put_eq {payload : Payload} {segments : List Segment} (word : Word)
    (movable : ∀ segment ∈ segments, Movable segment payload.length) :
    put payload segments word = some (payload.put segments word) := by
  induction segments generalizing payload with
  | nil => rfl
  | cons segment rest induction =>
      have here := movable segment List.mem_cons_self
      have present := List.getElem?_eq_getElem here.byte
      have step : Payload.putSegment word payload segment =
          payload.set segment.byteIndex (payload.get ⟨_, here.byte⟩ ||| segment.pack word) := by
        rw [Payload.putSegment, List.modify_eq_set, present]
        rfl
      have others : ∀ other ∈ rest,
          Movable other (Payload.putSegment word payload segment).length := by
        intro other member
        rw [Payload.length_putSegment]
        exact movable other (List.mem_cons_of_mem segment member)
      rw [Payload.put_cons, ← induction others, step, put, List.foldlM_cons]
      simp only [present, pack_eq here, Option.bind_eq_bind, Option.bind_some, Option.pure_def]
      rfl

theorem gather_eq {payload : Payload} {segments : List Segment}
    (movable : ∀ segment ∈ segments, Movable segment payload.length) :
    gather payload segments = some (payload.gather segments) := by
  rw [gather, Payload.gather]
  generalize (0 : Word) = word
  induction segments generalizing word with
  | nil => rfl
  | cons segment rest induction =>
      have here := movable segment List.mem_cons_self
      have present := List.getElem?_eq_getElem here.byte
      rw [List.foldl_cons, List.getD_eq_getElem?_getD, present, Option.getD_some,
        ← induction fun other member => movable other (List.mem_cons_of_mem segment member),
        List.foldlM_cons, present]
      simp only [unpack_eq here, Option.bind_eq_bind, Option.bind_some, Option.pure_def]

/-! ## Signs -/

/-- The raw value of a word. The sign of a narrow one is extended by two shifts. -/
def interpret (signal : Signal) (word : Word) : Option Int :=
  if !signal.signed || 64 ≤ signal.length then
    some (if signal.signed then word.toInt else word.toNat)
  else do
    let amount ← subtract 64 signal.length
    let raised ← shiftLeft word amount
    let lowered ← shiftRightSigned raised amount
    return lowered.toInt

theorem sshiftRight_shiftLeft {word : Word} {length : Nat} (positive : 0 < length)
    (narrow : length ≤ 64) :
    (word <<< (64 - length)).sshiftRight (64 - length) = (word.setWidth length).signExtend 64 := by
  apply BitVec.eq_of_getLsbD_eq
  intro index inWord
  have last : length - 1 < length := by omega
  have top : (word <<< (64 - length)).msb = word.getLsbD (length - 1) := by
    rw [BitVec.msb_eq_getLsbD_last, BitVec.getLsbD_shiftLeft]
    have source : 64 - 1 - (64 - length) = length - 1 := by omega
    simp [source]
    omega
  rw [BitVec.getLsbD_sshiftRight, BitVec.getLsbD_signExtend, top, BitVec.msb_eq_getLsbD_last,
    BitVec.getLsbD_setWidth]
  by_cases low : index < length
  · have shifted : 64 - length + index < 64 := by omega
    have above : ¬ 64 - length + index < 64 - length := by omega
    have back : 64 - length + index - (64 - length) = index := by omega
    simp [low, shifted, above, back, inWord]
  · have outside : ¬ 64 - length + index < 64 := by omega
    simp [low, outside, last, inWord]

theorem interpret_eq {signal : Signal} (word : Word) (positive : 0 < signal.length)
    (narrow : signal.length ≤ 64) : interpret signal word = some (signal.interpret word) := by
  cases signed : signal.signed with
  | false => simp [interpret, Signal.interpret, signed]
  | true =>
      rw [interpret, Signal.interpret, signed]
      by_cases wide : 64 ≤ signal.length
      · have full : min signal.length 64 = 64 := by omega
        rw [full, BitVec.setWidth_eq]
        simp [wide]
      · have amount : 64 - signal.length < 64 := by omega
        have length : min signal.length 64 = signal.length := by omega
        rw [length]
        simp only [wide, Bool.not_true, Bool.false_or, decide_false, Bool.false_eq_true, if_false,
          if_true, subtract_of_le narrow, shiftLeft_of_lt amount, shiftRightSigned_of_lt amount,
          sshiftRight_shiftLeft positive narrow, BitVec.toInt_signExtend_of_le narrow,
          Option.bind_eq_bind, Option.bind_some, Option.pure_def]

/-! ## Records -/

def signal? (codec : Codec) (field : Field) : Option Signal := codec.message.signals[field.index]?

def encodeFields (codec : Codec) (record : Record) :
    Payload → List Field → Option (Except Fault Payload)
  | payload, [] => some (.ok payload)
  | payload, field :: rest => do
      let signal ← signal? codec field
      match ← outcome (signal.rawOf record) with
      | .error fault => return .error fault
      | .ok raw =>
          let written ← put payload field.segments (BitVec.ofInt 64 raw)
          encodeFields codec record written rest

def encode (codec : Codec) (record : Record) : Option (Except Fault Payload) :=
  encodeFields codec record (Payload.zeros codec.wireLength) codec.fields

def read (codec : Codec) (payload : Payload) (field : Field) : Option (Signal × Int) := do
  let signal ← signal? codec field
  let word ← gather payload field.segments
  let raw ← interpret signal word
  return (signal, raw)

def decodeWith {α : Type} (present : Signal → Int → α) (codec : Codec) (payload : Payload) :
    Option (Except Fault (OrderedMap String α)) :=
  match codec.checkLength payload with
  | .error fault => some (.error fault)
  | .ok _ => do
      let readings ← codec.fields.mapM (read codec payload)
      return .ok (.ofList (readings.map fun reading =>
        (reading.1.name, present reading.1 reading.2)))

def decodeRaw (codec : Codec) (payload : Payload) :
    Option (Except Fault (OrderedMap String Int)) :=
  decodeWith (fun _ raw => raw) codec payload

def decode (codec : Codec) (payload : Payload) : Option (Except Fault Record) :=
  decodeWith Signal.present codec payload

structure InBounds (codec : Codec) (field : Field) : Prop where
  signal : signal? codec field = some field.signal
  movable : ∀ segment ∈ field.segments, Movable segment codec.wireLength
  positive : 0 < field.signal.length
  narrow : field.signal.length ≤ 64
  signShift : field.signal.length < 64 →
    1 ≤ 64 - field.signal.length ∧ 64 - field.signal.length ≤ 63

theorem Movable.of_le {segment : Segment} {length longer : Nat} (movable : Movable segment length)
    (le : length ≤ longer) : Movable segment longer :=
  { movable with byte := Nat.lt_of_lt_of_le movable.byte le }

theorem movable_of_placed {field : Field} {messageLength : Nat}
    (placed : field.Placed messageLength) {segment : Segment} (member : segment ∈ field.segments) :
    Movable segment messageLength := by
  have bounds := placed.segment_bounds member
  have narrow := placed.narrow
  exact ⟨bounds.2.2.1, by omega, by omega, by omega⟩

theorem exists_index_of_mem_layFields {packed : Bool} {cursor index : Nat}
    {placed : List Frame.Placed} {field : Field}
    (member : field ∈ RecordLayout.layFields packed cursor index placed) :
    ∃ position, field.index = index + position ∧
      (placed.map Frame.Placed.signal)[position]? = some field.signal := by
  induction placed generalizing cursor index with
  | nil => cases member
  | cons head rest induction =>
      rcases List.mem_cons.mp member with equal | member
      · exact ⟨0, by rw [equal]; rfl, by rw [equal]; rfl⟩
      · rcases induction member with ⟨position, numbered, listed⟩
        exact ⟨position + 1, by omega, listed⟩

theorem inBounds_of_plan {schema : Schema} {message : Message} {packed strict : Bool}
    {codec : Codec} (member : message ∈ schema.messages)
    (planned : Codec.plan message packed strict = .ok codec) :
    ∀ field ∈ codec.fields, InBounds codec field := by
  have isPlanned : codec.Planned :=
    .of_plan planned fun signal signalMember => (schema.signal_length_bounds member signalMember).2
  intro field fieldMember
  have placed := isPlanned.placed fieldMember
  have indexed : signal? codec field = some field.signal := by
    have equal := (Codec.plan_ok_iff.mp planned).2.2
    rw [equal] at fieldMember
    rcases exists_index_of_mem_layFields fieldMember with ⟨position, numbered, listed⟩
    rw [List.map_map] at listed
    rw [signal?, equal, numbered, Nat.zero_add, ← listed]
    exact congrArg (fun signals : List Signal => signals[position]?) (List.map_id _).symm
  have positive := placed.fits.1
  exact ⟨indexed, fun segment => movable_of_placed placed, positive, placed.narrow,
    fun narrow => ⟨by omega, by omega⟩⟩

section

variable {codec : Codec} (inBounds : ∀ field ∈ codec.fields, InBounds codec field)

include inBounds

/-- Writing field by field, and stopping at one that fails, does what computing all raw values
first and writing them afterwards does. -/
theorem encodeFields_eq (record : Record) (payload : Payload) (fields : List Field)
    (members : ∀ field ∈ fields, field ∈ codec.fields)
    (long : payload.length = codec.wireLength) :
    encodeFields codec record payload fields =
      outcome ((fields.mapM fun field : Field => field.signal.rawOf record).map fun raws =>
        (fields.zip raws).foldl (fun payload entry => entry.1.write payload entry.2) payload) := by
  induction fields generalizing payload with
  | nil => rfl
  | cons field rest induction =>
      have here := inBounds field (members field List.mem_cons_self)
      simp only [encodeFields, here.signal, Option.bind_eq_bind, Option.bind_some, List.mapM_cons]
      cases computed : field.signal.rawOf record with
      | error failure => cases failure <;> rfl
      | ok raw =>
          -- A written payload has its old length, so the other fields stay in bounds.
          have written : put payload field.segments (BitVec.ofInt 64 raw) =
              some (field.write payload raw) :=
            put_eq _ fun segment member => long ▸ here.movable segment member
          simp only [outcome, written, Option.bind_some]
          rw [induction (field.write payload raw)
            (fun other member => members other (List.mem_cons_of_mem field member))
            (by rw [Field.length_write, long])]
          cases rest.mapM fun field : Field => field.signal.rawOf record <;> rfl

theorem encode_eq (record : Record) : encode codec record = outcome (codec.encode record) :=
  encodeFields_eq inBounds record _ codec.fields (fun _ member => member) List.length_replicate

theorem read_eq {payload : Payload} {field : Field} (member : field ∈ codec.fields)
    (long : codec.wireLength ≤ payload.length) :
    read codec payload field = some (field.signal, field.read payload) := by
  have here := inBounds field member
  have word := gather_eq fun segment segmentMember => (here.movable segment segmentMember).of_le long
  simp only [read, here.signal, word, interpret_eq _ here.positive here.narrow,
    Option.bind_eq_bind, Option.bind_some]
  rfl

theorem decodeWith_eq {α : Type} (present : Signal → Int → α) (payload : Payload) :
    decodeWith present codec payload =
      some ((codec.checkLength payload).map fun _ =>
        .ofList (codec.fields.map fun field =>
          (field.name, present field.signal (field.read payload)))) := by
  rw [decodeWith]
  cases checked : codec.checkLength payload with
  | error fault => rfl
  | ok _ =>
      have long : codec.wireLength ≤ payload.length := by
        rw [Codec.checkLength] at checked
        split at checked
        · cases checked
        · omega
      rw [mapM_eq_some_map fun field member => read_eq inBounds member long]
      simp only [Option.bind_eq_bind, Option.bind_some, List.map_map]
      rfl

theorem decodeRaw_eq (payload : Payload) :
    decodeRaw codec payload = some (codec.decodeRaw payload) :=
  decodeWith_eq inBounds _ payload

theorem decode_eq (payload : Payload) : decode codec payload = some (codec.decode payload) :=
  decodeWith_eq inBounds _ payload

end

end Checked

end CanCodec
