import CanCodec.Proofs.Choices
import CanCodec.Proofs.OrderedMap
import CanCodec.Proofs.Reading
import CanCodec.Proofs.Registry

/-! # Records and raw values

A payload is decoded twice over: to the record of its presented values and to the map of its
raw values. Main statement: both refuse the same payloads, and the record presents the raw
map name by name, also when several signals of a message have one name. -/

namespace CanCodec

/-! ## Signals that share a name -/

def Message.IsLastNamed (message : Message) (name : String) (signal : Signal) : Prop :=
  signal.name = name ∧ ∃ before after, message.signals = before ++ signal :: after ∧
    ∀ other ∈ after, other.name ≠ name

namespace Message

variable {message : Message} {name : String}

theorem get?_ofList_signals {α : Type} {values : Signal → α} {value : α} :
    (OrderedMap.ofList (message.signals.map fun signal => (signal.name, values signal))).get?
        name = some value ↔
      ∃ signal, message.IsLastNamed name signal ∧ values signal = value := by
  rw [OrderedMap.get?_ofList, List.filter_map, List.getLast?_map, Option.map_map,
    Option.map_eq_some_iff]
  exact exists_congr fun signal => and_congr_left fun _ => getLast?_filter_eq_some_iff

theorem IsLastNamed.unique {first second : Signal}
    (isFirst : message.IsLastNamed name first) (isSecond : message.IsLastNamed name second) :
    first = second := by
  have found : ∀ {signal}, message.IsLastNamed name signal →
      (message.signals.filter fun signal => signal.name = name).getLast? = some signal :=
    fun isLast => getLast?_filter_eq_some_iff.mpr isLast
  exact Option.some.inj ((found isFirst).symm.trans (found isSecond))

theorem keys_ofList_signals {α : Type} (message : Message) (values : Signal → α) :
    (OrderedMap.ofList (message.signals.map fun signal => (signal.name, values signal))).keys =
      (message.signals.map Signal.name).eraseDups := by
  rw [OrderedMap.keys_ofList, List.map_map]
  rfl

end Message

/-! ## The two decodings -/

namespace Codec

variable {codec : Codec} {payload : Payload}

theorem Planned.decode_eq (planned : codec.Planned)
    (long : codec.wireLength ≤ payload.length) :
    codec.decode payload = .ok (.ofList (codec.message.signals.map fun signal =>
      (signal.name, signal.present (signal.reading payload)))) := by
  rw [decode_of_length long, ← planned.signals, List.map_map]
  congr 2
  refine List.map_congr_left fun field member => ?_
  rw [(planned.placed member).read_eq_reading payload]
  rfl

/-- The record and the raw map of a payload have the names of the message's signals, each at
its first place, and under each name what the last signal of that name reads. -/
theorem Planned.forall₂_decode {record : Record} {values : OrderedMap String Int}
    (planned : codec.Planned) (decoded : codec.decode payload = .ok record)
    (decodedRaw : codec.decodeRaw payload = .ok values) :
    record.keys = (codec.message.signals.map Signal.name).eraseDups ∧
      values.keys = (codec.message.signals.map Signal.name).eraseDups ∧
      List.Forall₂ (fun entry raw => entry.1 = raw.1 ∧
          ∃ signal, codec.message.IsLastNamed raw.1 signal ∧
            raw.2 = signal.reading payload ∧ entry.2 = signal.present raw.2)
        record.entries values.entries := by
  have long : codec.wireLength ≤ payload.length := by
    by_contra short
    have refused := decodeRaw_error_iff.mpr ⟨Nat.lt_of_not_le short, rfl⟩
    rw [decodedRaw] at refused
    cases refused
  obtain rfl := Except.ok.inj (decoded.symm.trans (planned.decode_eq long))
  obtain rfl := Except.ok.inj (decodedRaw.symm.trans (planned.decodeRaw_eq long))
  refine ⟨codec.message.keys_ofList_signals _, codec.message.keys_ofList_signals _, ?_⟩
  have sameKeys :=
    (codec.message.keys_ofList_signals fun signal => signal.present (signal.reading payload)).trans
      (codec.message.keys_ofList_signals fun signal => signal.reading payload).symm
  refine (OrderedMap.forall₂_entries sameKeys).imp fun entry raw same => ?_
  rcases same with ⟨sameName, presented, read⟩
  rw [sameName] at presented
  rcases Message.get?_ofList_signals.mp presented with ⟨signal, isLast, presents⟩
  rcases Message.get?_ofList_signals.mp read with ⟨other, otherLast, reads⟩
  obtain rfl := isLast.unique otherLast
  exact ⟨sameName, signal, isLast, reads.symm, by rw [← presents, reads]⟩

/-- Both decodings refuse a payload with the same fault or both accept it. The names of an
accepted one are those of the signals, a repeated name at its first place; under each
name the record presents the raw value as the last signal of that name does. -/
theorem decode_presents_decodeRaw (schema : Schema) (message : Message)
    (member : message ∈ schema.messages) (packed strict : Bool) (codec : Codec)
    (planned : plan message packed strict = .ok codec) (payload : Payload) :
    (∀ fault, codec.decode payload = .error fault ↔ codec.decodeRaw payload = .error fault) ∧
    ((∃ record, codec.decode payload = .ok record) ↔
      ∃ values, codec.decodeRaw payload = .ok values) ∧
    ∀ record values, codec.decode payload = .ok record → codec.decodeRaw payload = .ok values →
      record.keys = (message.signals.map Signal.name).eraseDups ∧
      values.keys = (message.signals.map Signal.name).eraseDups ∧
      List.Forall₂ (fun entry raw => entry.1 = raw.1 ∧
          ∃ signal, message.IsLastNamed raw.1 signal ∧
            raw.2 = signal.reading payload ∧ entry.2 = signal.present raw.2)
        record.entries values.entries := by
  have isPlanned : codec.Planned :=
    .of_plan planned fun signal signalMember => (schema.signal_length_bounds member signalMember).2
  obtain rfl : codec.message = message := by rw [(plan_ok_iff.mp planned).2.2]
  refine ⟨fun fault => decode_error_iff.trans decodeRaw_error_iff.symm, ?_,
    fun record values => isPlanned.forall₂_decode⟩
  by_cases long : codec.wireLength ≤ payload.length
  · simp [isPlanned.decode_eq long, isPlanned.decodeRaw_eq long]
  · have short := Nat.lt_of_not_le long
    simp [decode_error_iff.mpr ⟨short, rfl⟩, decodeRaw_error_iff.mpr ⟨short, rfl⟩]

/-- A message with two signals of one name that present the same raw value by different
choices. -/
def washer : Message where
  frameId := 0x53
  name := "Washer"
  length := 2
  signals :=
    [{ name := "Mode", start := 0, length := 4, byteOrder := .littleEndian
       choices := some ⟨[(1, "Slow"), (2, "Fast")], by simp [Ascending]⟩ },
      { name := "Torque", start := 4, length := 4, byteOrder := .littleEndian, signed := true },
      { name := "Mode", start := 8, length := 8, byteOrder := .littleEndian
        choices := some ⟨[(1, "Wash")], by simp [Ascending]⟩ }]

def washerSchema : Schema where
  version := none
  messages := [washer]
  sound := by decide

def washerCodec : Codec := .ofMessage false washer

theorem decode_presents_decodeRaw_washer :
    washer ∈ washerSchema.messages ∧ plan washer false true = .ok washerCodec ∧
      washerCodec.decode [0xe2] = .error (.truncated 0x53 2 1) ∧
      washerCodec.decodeRaw [0xe2, 0x01] = .ok (.ofList [("Mode", 1), ("Torque", -2)]) ∧
      ∃ record, washerCodec.decode [0xe2, 0x01] = .ok record ∧
        record.entries = [("Mode", .choice "Wash"), ("Torque", .integer (-2))] := by
  have planned : plan washer false true = .ok washerCodec := rfl
  have presents := decode_presents_decodeRaw washerSchema washer List.mem_cons_self false true
    washerCodec planned
  have decodedRaw : washerCodec.decodeRaw [0xe2, 0x01] =
      .ok (.ofList [("Mode", 1), ("Torque", -2)]) := rfl
  rcases (presents [0xe2, 0x01]).2.1.mpr ⟨_, decodedRaw⟩ with ⟨record, decoded⟩
  refine ⟨List.mem_cons_self, planned, ((presents [0xe2]).1 _).mpr rfl, decodedRaw, record,
    decoded, ?_⟩
  cases decoded
  rfl

end Codec

end CanCodec
