import CanCodec.Proofs.Codebook
import CanCodec.Proofs.Record

/-! # Round trips

Main statements: what a strict codec encodes, it reads back, value by value; and what any
codec reads from a payload, it writes back to the claimed bits and to no others. -/

namespace CanCodec

namespace Codec

/-! ## Reading what was encoded -/

theorem Planned.read_encode_eq_wrap {codec : Codec} {record : Record} {data : Payload}
    {field : Field} {raw : Int} (planned : codec.Planned)
    (apart : codec.message.signals.Pairwise Signal.Apart)
    (encoded : codec.encode record = .ok data) (member : field ∈ codec.fields)
    (computed : field.signal.rawOf record = .ok raw) :
    field.read data = field.signal.wrap raw := by
  have placed := planned.placed member
  have bits := (planned.bit_encode encoded).2
  apply Signal.interpret_eq_wrap placed.narrow
  intro index
  rw [Field.getLsbD_gather data index placed]
  refine and_congr_right fun within => ?_
  rw [bits]
  constructor
  · intro written
    rcases written with ⟨other, otherMember, otherRaw, otherComputed, source, sourceWithin,
      samePlace, set⟩
    -- No other signal claims this place, so the bit was written for this field.
    have sameSignal : other.signal = field.signal :=
      Signal.eq_of_claims apart (planned.signal_mem otherMember) (planned.signal_mem member)
        ⟨source, sourceWithin, samePlace⟩ ⟨index, within, rfl⟩
    rw [sameSignal] at otherComputed sourceWithin samePlace
    have sameIndex := Signal.place_injective sourceWithin within samePlace
    have sameRaw := Except.ok.inj (otherComputed.symm.trans computed)
    rw [← sameIndex, ← sameRaw]
    exact set
  · intro set
    exact ⟨field, member, raw, computed, index, within, rfl, set⟩

theorem Planned.read_encode {codec : Codec} {record : Record} {data : Payload} {field : Field}
    {raw : Int} (planned : codec.Planned)
    (apart : codec.message.signals.Pairwise Signal.Apart)
    (encoded : codec.encode record = .ok data) (member : field ∈ codec.fields)
    (computed : field.signal.rawOf record = .ok raw)
    (contained : field.signal.range.contains raw = true) : field.read data = raw := by
  have placed := planned.placed member
  rw [planned.read_encode_eq_wrap apart encoded member computed]
  exact Signal.wrap_of_contains placed.fits.1 placed.narrow contained

theorem Planned.read_append {codec : Codec} {field : Field} {data : Payload}
    (planned : codec.Planned) (member : field ∈ codec.fields)
    (length : codec.wireLength ≤ data.length) (extra : Payload) :
    field.read (data ++ extra) = field.read data := by
  have placed := planned.placed member
  apply Field.read_congr placed
  intro place claimed
  have bounds := placed.fits.claims_bounds claimed
  exact Payload.bit_append_left extra (by omega)

theorem decodeRaw_of_length {codec : Codec} {payload : Payload}
    (long : codec.wireLength ≤ payload.length) :
    codec.decodeRaw payload =
      .ok (.ofList (codec.fields.map fun field => (field.name, field.read payload))) := by
  simp [decodeRaw, checkLength, Nat.not_lt.mpr long, Except.map]

theorem get?_readings (fields : List Field) (payload : Payload) (name : String) :
    (OrderedMap.ofList (fields.map fun field => (field.name, field.read payload))).get? name =
      ((fields.filter fun field => field.name = name).getLast?).map
        fun field => field.read payload := by
  rw [OrderedMap.get?_ofList, List.filter_map, List.getLast?_map, Option.map_map]
  rfl

/-- What a codec reads from an extended payload under each name, once the readings of the
payload are known signal by signal; of several signals with one name the last one counts. -/
theorem Planned.decodeRaw_append {codec : Codec} {data : Payload} (planned : codec.Planned)
    (long : codec.wireLength ≤ data.length) (value : Signal → Option Int)
    (values : ∀ field ∈ codec.fields, value field.signal = some (field.read data))
    (extra : Payload) :
    ∃ readings, codec.decodeRaw (data ++ extra) = .ok readings ∧ ∀ name, readings.get? name =
      ((codec.message.signals.filter fun signal => signal.name = name).getLast?).bind value := by
  have longer : codec.wireLength ≤ (data ++ extra).length := by
    rw [List.length_append]
    exact Nat.le_add_right_of_le long
  refine ⟨_, decodeRaw_of_length longer, fun name => ?_⟩
  rw [get?_readings, ← planned.signals, List.filter_map, List.getLast?_map]
  have sameFilter : ((fun signal : Signal => decide (signal.name = name)) ∘ Field.signal) =
      fun field : Field => decide (field.name = name) := rfl
  rw [sameFilter]
  cases last : (codec.fields.filter fun field => field.name = name).getLast? with
  | none => rfl
  | some field =>
      have member : field ∈ codec.fields := (List.mem_filter.mp (List.mem_of_getLast? last)).1
      simp [values field member, planned.read_append member long extra]

/-- A strict codec reads from the payload of a record, and from every extension of it, the
raw value that the record gives to each signal; of several signals with one name the last
one counts. -/
theorem strict_round_trip (schema : Schema) (options : Options) (codebook : Codebook)
    (codec : Codec) (record : Record) (data : Payload) (strict : options.strict = true)
    (planned : Codebook.plan schema options = .ok codebook) (member : codec ∈ codebook.codecs)
    (encoded : codec.encode record = .ok data) :
    codec.fields.map Field.signal = codec.message.signals ∧
    (∀ field ∈ codec.fields, field.signal.rawOf record = .ok (field.read data)) ∧
    ∀ extra, ∃ values, codec.decodeRaw (data ++ extra) = .ok values ∧
      ∀ name, values.get? name =
        ((codec.message.signals.filter fun signal => signal.name = name).getLast?).bind
          fun signal => (signal.rawOf record).toOption := by
  rcases Codebook.of_mem_plan_strict strict planned member with ⟨_, isPlanned, apart, choices⟩
  have length := (isPlanned.bit_encode encoded).1
  have values : ∀ field ∈ codec.fields, field.signal.rawOf record = .ok (field.read data) := by
    intro field fieldMember
    rcases rawOf_of_encode encoded fieldMember with ⟨raw, computed⟩
    have contained := Signal.range_contains_rawOf
      (choices _ (isPlanned.signal_mem fieldMember)) computed
    rw [isPlanned.read_encode apart encoded fieldMember computed contained]
    exact computed
  refine ⟨isPlanned.signals, values, fun extra => ?_⟩
  apply isPlanned.decodeRaw_append (Nat.le_of_eq length.symm)
  intro field fieldMember
  rw [values field fieldMember]
  rfl

def climate : Message where
  frameId := 0x1f0
  name := "Climate"
  length := 3
  signals :=
    [{ name := "Temperature", start := 5, length := 12, byteOrder := .bigEndian, signed := true },
      { name := "Mode", start := 3, length := 4, byteOrder := .littleEndian
        choices := some ⟨[(1, "Heat"), (9, "Cool")], by simp [Ascending]⟩ },
      { name := "Level", start := 16, length := 6, byteOrder := .littleEndian
        initial := some 100 }]

def climateSchema : Schema where
  version := none
  messages := [climate]
  sound := by decide

def climateCodec : Codec where
  message := climate
  layout := .ofPlan "Climate" false (climate.signals.map Frame.placing)

def climateRecord : Record := .ofList [("Mode", .choice "Cool"), ("Temperature", .integer (-586))]

theorem strict_round_trip_climate :
    Codebook.plan climateSchema {} = .ok ⟨[climateCodec], []⟩ ∧
      climateCodec.encode climateRecord = .ok [0x4e, 0xdb, 0x3f] ∧
      (∀ field ∈ climateCodec.fields,
        field.signal.rawOf climateRecord = .ok (field.read [0x4e, 0xdb, 0x3f])) ∧
      ∀ extra, ∃ values, climateCodec.decodeRaw ([0x4e, 0xdb, 0x3f] ++ extra) = .ok values ∧
        values.get? "Temperature" = some (-586) ∧ values.get? "Mode" = some 9 ∧
        values.get? "Level" = some 63 := by
  have planned : Codebook.plan climateSchema {} = .ok ⟨[climateCodec], []⟩ := by rfl
  have encoded : climateCodec.encode climateRecord = .ok [0x4e, 0xdb, 0x3f] := by rfl
  have roundTrip := strict_round_trip climateSchema {} _ climateCodec climateRecord _ rfl planned
    List.mem_cons_self encoded
  refine ⟨planned, encoded, roundTrip.2.1, fun extra => ?_⟩
  rcases roundTrip.2.2 extra with ⟨values, decoded, named⟩
  exact ⟨values, decoded, named "Temperature", named "Mode", named "Level"⟩

/-! ## Writing what was read -/

def rawRecord (values : OrderedMap String Int) : Record where
  entries := values.entries.map fun entry => (entry.1, .integer entry.2)
  distinct := by simpa [Function.comp_def] using values.distinct

theorem get?_rawRecord (values : OrderedMap String Int) (name : String) :
    (rawRecord values).get? name = (values.get? name).map .integer := by
  rcases values with ⟨entries, distinct⟩
  simp only [OrderedMap.get?, rawRecord]
  clear distinct
  induction entries with
  | nil => rfl
  | cons entry rest induction =>
      by_cases same : entry.1 = name
      · simp [lookupKey, same]
      · simp [lookupKey, same, induction]

theorem rawOf_of_integer {signal : Signal} {record : Record} {raw : Int}
    (unscaled : signal.isUnscaled = true)
    (given : record.get? signal.name = some (.integer raw))
    (contained : signal.range.contains raw = true) : signal.rawOf record = .ok raw := by
  simp [Signal.rawOf, given, Signal.encode, unscaled, RawRange.clamp_of_contains contained]

theorem fieldEvents_eq_nil {message : String} {record : Record} {fields : List Field}
    (quiet : ∀ field ∈ fields, ∃ raw, field.signal.rawOf record = .ok raw ∧
      record.get? field.name = some (.integer raw)) : fieldEvents message record fields = [] := by
  induction fields with
  | nil => rfl
  | cons field rest induction =>
      rcases quiet field List.mem_cons_self with ⟨raw, computed, given⟩
      have others := induction fun other member => quiet other (List.mem_cons_of_mem field member)
      simp [fieldEvents, computed, given, givenEvents, sentEvents, others]

theorem Planned.get?_ofFields {α : Type} {codec : Codec} {field : Field}
    (planned : codec.Planned) (distinct : (codec.message.signals.map Signal.name).Nodup)
    (member : field ∈ codec.fields) (value : Field → α) :
    (OrderedMap.ofList (codec.fields.map fun field => (field.name, value field))).get?
      field.name = some (value field) := by
  apply OrderedMap.get?_ofList_of_mem
  · rw [List.map_map]
    rw [← planned.signals, List.map_map] at distinct
    exact distinct
  · exact List.mem_map_of_mem (f := fun field => (field.name, value field)) member

theorem Planned.get?_reading {codec : Codec} {field : Field} (planned : codec.Planned)
    (distinct : (codec.message.signals.map Signal.name).Nodup) (member : field ∈ codec.fields)
    (data : Payload) :
    (OrderedMap.ofList (codec.fields.map fun field => (field.name, field.read data))).get?
      field.name = some (field.read data) :=
  planned.get?_ofFields distinct member fun field => field.read data

/-- When every field of a record holds what it reads from a payload, the set bits of the
encoded record are the set bits of the payload at claimed places. -/
theorem Planned.bit_reencode {codec : Codec} {record : Record} {data frame : Payload}
    (planned : codec.Planned) (encoded : codec.encode record = .ok frame)
    (values : ∀ field ∈ codec.fields, field.signal.rawOf record = .ok (field.read data))
    (place : Place) :
    frame.bit place = (data.bit place && decide (codec.message.Claims place)) := by
  rw [Bool.eq_iff_iff, (planned.bit_encode encoded).2, Bool.and_eq_true, decide_eq_true_eq]
  -- The word of a value that was read has the payload's bits.
  have source : ∀ field ∈ codec.fields, ∀ index, index < field.signal.length →
      ((BitVec.ofInt 64 (field.read data)).getLsbD index = true ↔
        data.bit (field.signal.place index) = true) := by
    intro field member index within
    have placed := planned.placed member
    rw [Field.read, Signal.getLsbD_ofInt_interpret _ placed.narrow within,
      Field.getLsbD_gather data index placed]
    exact ⟨fun read => read.2, fun set => ⟨within, set⟩⟩
  constructor
  · intro written
    rcases written with ⟨field, member, raw, computed, index, within, atPlace, set⟩
    have sameRaw := Except.ok.inj (computed.symm.trans (values field member))
    rw [sameRaw, source field member index within, atPlace] at set
    exact ⟨set, field.signal, planned.signal_mem member, index, within, atPlace⟩
  · intro claimed
    rcases claimed with ⟨set, signal, signalMember, index, within, atPlace⟩
    rw [← planned.signals] at signalMember
    rcases List.mem_map.mp signalMember with ⟨field, member, sameSignal⟩
    rw [← sameSignal] at within atPlace
    rw [← atPlace, ← source field member index within] at set
    exact ⟨field, member, field.read data, values field member, index, within, atPlace, set⟩

/-- What a codec of unscaled signals with distinct names reads from a payload can be
written back. No value is saturated, and the result is the payload of the message's length
in which every claimed bit is as it was and every other bit is clear. -/
theorem raw_reencoding (schema : Schema) (message : Message) (packed strict : Bool)
    (codec : Codec) (data : Payload) (member : message ∈ schema.messages)
    (planned : plan message packed strict = .ok codec)
    (unscaled : ∀ signal ∈ message.signals, signal.isUnscaled = true)
    (distinct : (message.signals.map Signal.name).Nodup)
    (long : message.length ≤ data.length) :
    ∃ values, codec.decodeRaw data = .ok values ∧
      (∀ signal ∈ message.signals, ∃ raw, values.get? signal.name = some raw) ∧
      codec.encodeEvents (rawRecord values) = [] ∧
      ∃ frame, codec.encode (rawRecord values) = .ok frame ∧ frame.length = message.length ∧
        ∀ place, frame.bit place = (data.bit place && decide (message.Claims place)) := by
  have isPlanned := Planned.of_plan planned fun signal signalMember =>
    (schema.signal_length_bounds member signalMember).2
  obtain rfl : codec.message = message := by rw [(plan_ok_iff.mp planned).2.2]
  refine ⟨_, decodeRaw_of_length long, ?_⟩
  generalize readings : OrderedMap.ofList
    (codec.fields.map fun field => (field.name, field.read data)) = values
  have named : ∀ field ∈ codec.fields, values.get? field.name = some (field.read data) := by
    intro field fieldMember
    rw [← readings]
    exact isPlanned.get?_reading distinct fieldMember data
  have given : ∀ field ∈ codec.fields,
      (rawRecord values).get? field.name = some (.integer (field.read data)) := by
    intro field fieldMember
    rw [get?_rawRecord, named field fieldMember]
    rfl
  have computed : ∀ field ∈ codec.fields,
      field.signal.rawOf (rawRecord values) = .ok (field.read data) := by
    intro field fieldMember
    exact rawOf_of_integer (unscaled _ (isPlanned.signal_mem fieldMember))
      (given field fieldMember) (Field.range_contains_read data (isPlanned.placed fieldMember))
  refine ⟨?_, ?_, ?_⟩
  · intro signal signalMember
    rw [← isPlanned.signals] at signalMember
    rcases List.mem_map.mp signalMember with ⟨field, fieldMember, sameSignal⟩
    rw [← sameSignal]
    exact ⟨_, named field fieldMember⟩
  · exact fieldEvents_eq_nil fun field fieldMember =>
      ⟨_, computed field fieldMember, given field fieldMember⟩
  · rcases exists_encode_of_rawOf fun field fieldMember => ⟨_, computed field fieldMember⟩ with
      ⟨frame, encoded⟩
    exact ⟨frame, encoded, (isPlanned.bit_encode encoded).1,
      isPlanned.bit_reencode encoded computed⟩

/-- Two signals of opposite byte orders that share two bits and leave two bits unclaimed. -/
def crossing : Message where
  frameId := 0x2a
  name := "Crossing"
  length := 2
  signals :=
    [{ name := "Rise", start := 2, length := 7, byteOrder := .littleEndian, signed := true },
      { name := "Fall", start := 4, length := 9, byteOrder := .bigEndian }]

def crossingSchema : Schema where
  version := none
  messages := [crossing]
  sound := by decide

def crossingCodec : Codec where
  message := crossing
  layout := .ofPlan "Crossing" false (crossing.signals.map Frame.placing)

theorem raw_reencoding_crossing :
    plan crossing false true = .error ⟨"Crossing", "Fall", .overlaps "Rise" 0⟩ ∧
      plan crossing false false = .ok crossingCodec ∧
      (∀ signal ∈ crossing.signals, signal.isUnscaled = true) ∧
      (crossing.signals.map Signal.name).Nodup ∧
      ∃ values, crossingCodec.decodeRaw [0xb5, 0x6e, 0xff] = .ok values ∧
        crossingCodec.encodeEvents (rawRecord values) = [] ∧
        crossingCodec.encode (rawRecord values) = .ok [0xb5, 0x68] := by
  have planned : plan crossing false false = .ok crossingCodec := by rfl
  have unscaled : ∀ signal ∈ crossing.signals, signal.isUnscaled = true := by decide
  have distinct : (crossing.signals.map Signal.name).Nodup := by decide
  rcases raw_reencoding crossingSchema crossing false false crossingCodec [0xb5, 0x6e, 0xff]
    List.mem_cons_self planned unscaled distinct (by decide) with
    ⟨values, decoded, _, quiet, frame, encoded, _⟩
  refine ⟨by rfl, planned, unscaled, distinct, values, decoded, quiet, ?_⟩
  cases decoded
  rfl

end Codec

end CanCodec
