import CanCodec.Proofs.Choices
import CanCodec.Proofs.Codebook.Partition

/-! # What encoding writes

A record fails at the first signal, in declared order, whose entry is a name that no choice of
the signal has, or a number of which a step back overflows. Any other record is encoded, and
every bit of its payload is computed from the raw values of the signals that have a bit
there. -/

namespace CanCodec

namespace Signal

/-! ## Refused entries -/

def Refuses (signal : Signal) (record : Record) (name : String) : Prop :=
  record.get? signal.name = some (.choice name) ∧ ∀ raw, signal.choiceName? raw ≠ some name

theorem choiceRaw?_eq_none_iff {signal : Signal} {name : String} :
    signal.choiceRaw? name = none ↔ ∀ raw, signal.choiceName? raw ≠ some name := by
  constructor
  · intro unknown raw named
    rcases exists_denotes named with ⟨least, _, denotes⟩
    rw [choiceRaw?_eq_some_iff.mpr denotes] at unknown
    cases unknown
  · intro absent
    rw [Option.eq_none_iff_forall_ne_some]
    intro raw found
    exact absent raw (choiceRaw?_eq_some_iff.mp found).1

structure Encodes (signal : Signal) (record : Record) : Prop where
  known : ∀ name, ¬ signal.Refuses record name
  within : ¬ signal.OverflowsOn record

theorem rawOf_fault_iff {signal : Signal} {record : Record} {fault : Fault} :
    signal.rawOf record = .error (.fault fault) ↔
      ∃ name, signal.Refuses record name ∧ fault = .unknownChoice signal.name name := by
  simp only [rawOf, Refuses, ← choiceRaw?_eq_none_iff]
  cases record.get? signal.name with
  | none => simp
  | some value =>
      rcases signal.encode_cases value with ⟨whole, rfl, _, encoded⟩ |
        ⟨physical, converted, encoded⟩ | ⟨name, rfl, encoded⟩
      · simp [encoded]
      · have number : ∀ name, value ≠ .choice name := by
          rintro name rfl
          cases converted
        simp [encoded, encodeReal_error_iff, number]
      · cases found : signal.choiceRaw? name with
        | some raw => simp [encoded, encodeChoice, found, mapError_error_iff]
        | none => simp [encoded, encodeChoice, found, mapError_error_iff, eq_comm (b := fault)]

theorem exists_rawOf_iff {signal : Signal} {record : Record} :
    (∃ raw, signal.rawOf record = .ok raw) ↔ signal.Encodes record := by
  constructor
  · rintro ⟨raw, computed⟩
    refine ⟨fun name refuses => ?_, fun overflows => ?_⟩
    · rw [rawOf_fault_iff.mpr ⟨name, refuses, rfl⟩] at computed
      cases computed
    · rw [rawOf_overflow_iff.mpr overflows] at computed
      cases computed
  · rintro ⟨known, within⟩
    rcases computed : signal.rawOf record with (fault | _) | raw
    · rcases rawOf_fault_iff.mp computed with ⟨name, refuses, _⟩
      exact absurd refuses (known name)
    · exact absurd (rawOf_overflow_iff.mp computed) within
    · exact ⟨raw, rfl⟩

theorem rawOf_congr {signal : Signal} {first second : Record}
    (same : first.get? signal.name = second.get? signal.name) :
    signal.rawOf first = signal.rawOf second := by
  rw [rawOf, rawOf, same]

/-! ## Bits of raw values -/

/-- The bit that a raw value sets at a place: the OR over its bits that belong there. -/
def wireBit (signal : Signal) (raw : Int) (place : Place) : Bool :=
  (List.range signal.length).any fun index =>
    signal.place index = place && (BitVec.ofInt 64 raw).getLsbD index

theorem wireBit_iff {signal : Signal} {raw : Int} {place : Place} :
    signal.wireBit raw place = true ↔ ∃ index, index < signal.length ∧
      signal.place index = place ∧ (BitVec.ofInt 64 raw).getLsbD index = true := by
  simp [wireBit]

end Signal

def Message.wireBit (message : Message) (record : Record) (place : Place) : Bool :=
  message.signals.any fun signal =>
    match signal.rawOf record with
    | .ok raw => signal.wireBit raw place
    | .error _ => false

namespace Message

theorem wireBit_iff {message : Message} {record : Record} {place : Place} :
    message.wireBit record place = true ↔ ∃ signal ∈ message.signals, ∃ raw,
      signal.rawOf record = .ok raw ∧ signal.wireBit raw place = true := by
  simp only [wireBit, List.any_eq_true]
  refine exists_congr fun signal => and_congr_right fun _ => ?_
  cases signal.rawOf record <;> simp

theorem wireBit_of_not_claims {message : Message} {record : Record} {place : Place}
    (unclaimed : ¬ message.Claims place) : message.wireBit record place = false := by
  rw [← Bool.not_eq_true, wireBit_iff]
  rintro ⟨signal, member, raw, _, set⟩
  rcases Signal.wireBit_iff.mp set with ⟨index, within, atPlace, _⟩
  exact unclaimed ⟨signal, member, index, within, atPlace⟩

end Message

namespace Codec

/-! ## Encoded records -/

variable {codec : Codec} {record : Record}

theorem Planned.rawValues_eq (planned : codec.Planned) (record : Record) :
    codec.rawValues record = codec.message.signals.mapM fun signal => signal.rawOf record := by
  rw [← planned.signals, List.mapM_map]
  rfl

theorem encode_error_iff {failure : Failure Fault} :
    codec.encode record = .error failure ↔ codec.rawValues record = .error failure := by
  rw [encode]
  cases codec.rawValues record <;> simp [Except.map]

/-- Encoding fails where the first signal without a raw value does. -/
theorem Planned.encode_error_iff_first (planned : codec.Planned) {failure : Failure Fault} :
    codec.encode record = .error failure ↔
      ∃ before signal after, codec.message.signals = before ++ signal :: after ∧
        (∀ other ∈ before, other.Encodes record) ∧ signal.rawOf record = .error failure := by
  rw [encode_error_iff, planned.rawValues_eq, mapM_error_iff]
  simp only [Signal.exists_rawOf_iff]

theorem Planned.exists_encode_iff (planned : codec.Planned) :
    (∃ data, codec.encode record = .ok data) ↔
      ∀ signal ∈ codec.message.signals, signal.Encodes record := by
  simp only [← planned.signals, List.forall_mem_map, ← Signal.exists_rawOf_iff]
  exact ⟨fun ⟨_, encoded⟩ field => rawOf_of_encode encoded, exists_encode_of_rawOf⟩

theorem Planned.bit_encode_eq (planned : codec.Planned) {data : Payload}
    (encoded : codec.encode record = .ok data) (place : Place) :
    data.bit place = codec.message.wireBit record place := by
  rw [Bool.eq_iff_iff, (planned.bit_encode encoded).2, Message.wireBit_iff, ← planned.signals]
  simp only [List.mem_map, exists_exists_and_eq_and, Signal.wireBit_iff]

theorem Planned.encode_congr (planned : codec.Planned) {other : Record}
    (same : ∀ signal ∈ codec.message.signals,
      record.get? signal.name = other.get? signal.name) :
    codec.encode record = codec.encode other := by
  have traversed : ∀ record, codec.rawValues record =
      (codec.message.signals.map fun signal => signal.rawOf record).mapM id := by
    intro record
    rw [planned.rawValues_eq, List.mapM_map]
    rfl
  have values : codec.message.signals.map (fun signal => signal.rawOf record) =
      codec.message.signals.map fun signal => signal.rawOf other :=
    List.map_congr_left fun signal member => Signal.rawOf_congr (same signal member)
  rw [encode, encode, traversed, traversed, values]

/-- A record is encoded exactly when every signal has a raw value for it. Otherwise the first
signal without one decides in declared order: the record is refused for a name that none of
its choices has, or a step back of its number overflows. A payload has the message's length,
each of its bits is the OR of the raw bits that the signals have there, and a bit that no
signal has is clear. Only the entries of the signals count. -/
theorem encoding_spec (schema : Schema) (message : Message) (member : message ∈ schema.messages)
    (packed strict : Bool) (codec : Codec) (planned : plan message packed strict = .ok codec)
    (record : Record) :
    ((∃ data, codec.encode record = .ok data) ↔
      ∀ signal ∈ message.signals, signal.Encodes record) ∧
    (∀ fault, codec.encode record = .error (.fault fault) ↔
      ∃ before signal after, message.signals = before ++ signal :: after ∧
        (∀ other ∈ before, other.Encodes record) ∧
        ∃ name, signal.Refuses record name ∧ fault = .unknownChoice signal.name name) ∧
    (codec.encode record = .error .overflow ↔
      ∃ before signal after, message.signals = before ++ signal :: after ∧
        (∀ other ∈ before, other.Encodes record) ∧ signal.OverflowsOn record) ∧
    (∀ data, codec.encode record = .ok data →
      data.length = message.length ∧
      (∀ place, data.bit place = message.wireBit record place) ∧
      ∀ place, ¬ message.Claims place → data.bit place = false) ∧
    ∀ other : Record,
      (∀ signal ∈ message.signals, record.get? signal.name = other.get? signal.name) →
      codec.encode record = codec.encode other := by
  have isPlanned : codec.Planned :=
    .of_plan planned fun signal signalMember => (schema.signal_length_bounds member signalMember).2
  rw [← message_of_plan planned]
  refine ⟨isPlanned.exists_encode_iff, fun fault => ?_, ?_, fun data encoded => ?_,
    fun other same => isPlanned.encode_congr same⟩
  · simp only [isPlanned.encode_error_iff_first, Signal.rawOf_fault_iff]
  · simp only [isPlanned.encode_error_iff_first, Signal.rawOf_overflow_iff]
  · have bits := isPlanned.bit_encode_eq encoded
    refine ⟨(isPlanned.bit_encode encoded).1, bits, fun place unclaimed => ?_⟩
    rw [bits, Message.wireBit_of_not_claims unclaimed]

def gearbox : Message where
  frameId := 0x52
  name := "Gearbox"
  length := 2
  signals :=
    [{ name := "Ticks", start := 0, length := 8, byteOrder := .littleEndian
       initial := some 0x81 },
      { name := "Gear", start := 0, length := 2, byteOrder := .littleEndian
        choices := some ⟨[(1, "First"), (2, "Second")], by simp [Ascending]⟩ },
      { name := "Lever", start := 2, length := 2, byteOrder := .bigEndian
        choices := some ⟨[(3, "Drive")], by simp [Ascending]⟩ }]

def gearboxSchema : Schema where
  version := none
  messages := [gearbox]
  sound := by decide

def gearboxCodec : Codec := .ofMessage false gearbox

theorem encoding_spec_gearbox :
    plan gearbox false false = .ok gearboxCodec ∧
      gearboxCodec.encode (.ofList [("Lever", .choice "Park"), ("Gear", .choice "Third")]) =
        .error (.fault (.unknownChoice "Gear" "Third")) ∧
      ∃ data, gearboxCodec.encode (.ofList [("Lever", .choice "Drive"), ("Gear", .choice "Second"),
          ("Horn", .choice "Loud")]) = .ok data ∧
        data.length = 2 ∧ data.bit ⟨0, 7⟩ = true ∧ data.bit ⟨0, 1⟩ = true ∧
        data.bit ⟨0, 6⟩ = false ∧ data.bit ⟨1, 0⟩ = false := by
  have planned : plan gearbox false false = .ok gearboxCodec := rfl
  have spec := encoding_spec gearboxSchema gearbox List.mem_cons_self false false gearboxCodec
    planned
  refine ⟨planned, ?_, ?_⟩
  · refine ((spec _).2.1 _).mpr ⟨[gearbox.signals[0]], gearbox.signals[1],
      [gearbox.signals[2]], rfl, ?_, "Third", ⟨rfl, ?_⟩, rfl⟩
    · intro other member
      rw [List.mem_singleton.mp member]
      exact Signal.exists_rawOf_iff.mp ⟨0x81, rfl⟩
    · exact Signal.choiceRaw?_eq_none_iff.mp rfl
  · have encoded : gearboxCodec.encode (.ofList [("Lever", .choice "Drive"),
        ("Gear", .choice "Second"), ("Horn", .choice "Loud")]) = .ok [0xb3, 0] := rfl
    rcases (spec _).2.2.2.1 _ encoded with ⟨length, bits, clear⟩
    refine ⟨_, encoded, ?_⟩
    refine ⟨length, ?_, ?_, ?_, clear _ (by decide)⟩ <;> rw [bits] <;> rfl

def batteryCodec : Codec := .ofMessage false Signal.battery

/-- A record without choices is not encoded, since a step of its only number overflows. -/
theorem not_encode_of_known_choices :
    (¬ ∀ (schema : Schema) (message : Message) (packed strict : Bool) (codec : Codec)
        (record : Record), message ∈ schema.messages → plan message packed strict = .ok codec →
      (∀ signal ∈ message.signals, ∀ name, ¬ signal.Refuses record name) →
        ∃ data, codec.encode record = .ok data) ∧
      batteryCodec.encode (.ofList [("Charge", .real 1e39)]) = .error .overflow := by
  have overflow : batteryCodec.encode (.ofList [("Charge", .real 1e39)]) = .error .overflow := by
    decide +kernel
  refine ⟨fun encodes => ?_, overflow⟩
  have known : ∀ signal ∈ Signal.battery.signals, ∀ name,
      ¬ signal.Refuses (.ofList [("Charge", .real 1e39)]) name := by
    intro signal member name refuses
    simp only [Signal.battery, List.mem_cons, List.not_mem_nil, or_false] at member
    rcases member with rfl | rfl | rfl <;> cases refuses.1
  rcases encodes Signal.batterySchema Signal.battery false true batteryCodec _ List.mem_cons_self
    rfl known with ⟨data, encoded⟩
  rw [overflow] at encoded
  cases encoded

end Codec

end CanCodec
