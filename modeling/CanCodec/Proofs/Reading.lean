import CanCodec.Proofs.RoundTrip

/-! # What decoding reads

A signal's raw value is the integer that the bits at its places form: a binary number, or
two's complement if the signal is signed. Main statement: this integer is what every codec
reads, strict or not, and the only payloads refused are those that end before the message
does. -/

namespace CanCodec

theorem mod_two_pow_eq_sum (natural count : Nat) :
    natural % 2 ^ count =
      ((List.range count).map fun index => (natural.testBit index).toNat * 2 ^ index).sum := by
  induction count with
  | zero => simp [Nat.mod_one]
  | succ count induction =>
      rw [List.range_succ, List.map_append, List.sum_append, ← induction, List.map_singleton,
        List.sum_singleton, Nat.toNat_testBit, Nat.mul_comm, Nat.mod_pow_succ]

namespace Signal

/-! ## The integer at a signal's places -/

def magnitude (signal : Signal) (payload : Payload) : Nat :=
  ((List.range signal.length).map fun index =>
    (payload.bit (signal.place index)).toNat * 2 ^ index).sum

/-- The integer at the places of a signal. In two's complement a set top bit takes
`2 ^ length` away. -/
def reading (signal : Signal) (payload : Payload) : Int :=
  if signal.signed && payload.bit (signal.place (signal.length - 1)) then
    (signal.magnitude payload : Int) - (2 ^ signal.length : Nat)
  else signal.magnitude payload

variable {signal : Signal} {payload : Payload}

/-- A word with the bits at the places of a signal is read as the integer at these places. -/
theorem interpret_eq_reading {word : Word} (positive : 0 < signal.length)
    (narrow : signal.length ≤ 64)
    (bits : ∀ index, word.getLsbD index = true ↔
      index < signal.length ∧ payload.bit (signal.place index) = true) :
    signal.interpret word = signal.reading payload := by
  have inPlace : ∀ index < signal.length,
      word.getLsbD index = payload.bit (signal.place index) := by
    intro index within
    rw [Bool.eq_iff_iff, bits, and_iff_right within]
  have below : word.toNat < 2 ^ signal.length :=
    toNat_lt_of_clear fun index set => ((bits index).mp set).1
  have magnitude : word.toNat = signal.magnitude payload := by
    rw [← Nat.mod_eq_of_lt below, mod_two_pow_eq_sum, Signal.magnitude]
    refine congrArg List.sum (List.map_congr_left fun index member => ?_)
    rw [BitVec.testBit_toNat, inPlace index (List.mem_range.mp member)]
  rw [interpret, reading, Nat.min_eq_left narrow]
  cases signal.signed with
  | false => exact congrArg Int.ofNat magnitude
  | true =>
      have top : (word.setWidth signal.length).msb =
          payload.bit (signal.place (signal.length - 1)) := by
        have last : signal.length - 1 < signal.length := by omega
        rw [BitVec.msb_eq_getLsbD_last, BitVec.getLsbD_setWidth, inPlace _ last,
          decide_eq_true last, Bool.true_and]
      rw [if_pos rfl, BitVec.toInt_eq_msb_cond, top, BitVec.toNat_setWidth,
        Nat.mod_eq_of_lt below, magnitude, Bool.true_and]

end Signal

namespace Field

theorem Placed.read_eq_reading {field : Field} {messageLength : Nat}
    (placed : field.Placed messageLength) (payload : Payload) :
    field.read payload = field.signal.reading payload :=
  Signal.interpret_eq_reading placed.fits.1 placed.narrow fun index =>
    getLsbD_gather payload index placed

end Field

namespace Codec

variable {codec : Codec}

theorem decodeRaw_error_iff {payload : Payload} {fault : Fault} :
    codec.decodeRaw payload = .error fault ↔
      payload.length < codec.wireLength ∧
        fault = .truncated codec.frameId codec.wireLength payload.length := by
  rw [decodeRaw, checkLength]
  by_cases short : payload.length < codec.wireLength
  · simp [short, Except.map, eq_comm]
  · simp [short, Except.map]

theorem Planned.map_read (planned : codec.Planned) (payload : Payload) :
    (codec.fields.map fun field => (field.name, field.read payload)) =
      codec.message.signals.map fun signal => (signal.name, signal.reading payload) := by
  rw [← planned.signals, List.map_map]
  refine List.map_congr_left fun field member => ?_
  rw [(planned.placed member).read_eq_reading payload]
  rfl

theorem Planned.decodeRaw_eq (planned : codec.Planned) {payload : Payload}
    (long : codec.wireLength ≤ payload.length) :
    codec.decodeRaw payload = .ok (.ofList
      (codec.message.signals.map fun signal => (signal.name, signal.reading payload))) := by
  rw [decodeRaw_of_length long, planned.map_read]

theorem Planned.decodeRaw_congr (planned : codec.Planned) {first second : Payload}
    (firstLong : codec.wireLength ≤ first.length) (secondLong : codec.wireLength ≤ second.length)
    (agree : ∀ place, codec.message.Claims place → first.bit place = second.bit place) :
    codec.decodeRaw first = codec.decodeRaw second := by
  rw [decodeRaw_of_length firstLong, decodeRaw_of_length secondLong]
  congr 2
  refine List.map_congr_left fun field member => ?_
  rw [Field.read_congr (planned.placed member) fun place claimed =>
    agree place ⟨field.signal, planned.signal_mem member, claimed⟩]

/-- A payload is refused exactly when it is shorter than the message. From any other one every
signal is read as the integer at its places, which its range contains; of several signals
with one name the last one counts. Payloads that agree on the claimed places are read
alike. -/
theorem decodeRaw_reads_places (schema : Schema) (message : Message)
    (member : message ∈ schema.messages) (packed strict : Bool) (codec : Codec)
    (planned : plan message packed strict = .ok codec) :
    (∀ payload fault, codec.decodeRaw payload = .error fault ↔
      payload.length < message.length ∧
        fault = .truncated message.frameId message.length payload.length) ∧
    (∀ payload, message.length ≤ payload.length →
      codec.fields.map Field.signal = message.signals ∧
      (∀ field ∈ codec.fields, field.read payload = field.signal.reading payload ∧
        field.signal.range.contains (field.signal.reading payload) = true) ∧
      ∃ values, codec.decodeRaw payload = .ok values ∧
        values = .ofList
          (message.signals.map fun signal => (signal.name, signal.reading payload)) ∧
        ∀ name, values.get? name =
          ((message.signals.filter fun signal => signal.name = name).getLast?).map
            fun signal => signal.reading payload) ∧
    ∀ first second, message.length ≤ first.length → message.length ≤ second.length →
      (∀ place, message.Claims place → first.bit place = second.bit place) →
      codec.decodeRaw first = codec.decodeRaw second := by
  have isPlanned : codec.Planned :=
    .of_plan planned fun signal signalMember => (schema.signal_length_bounds member signalMember).2
  obtain rfl : codec.message = message := by rw [(plan_ok_iff.mp planned).2.2]
  refine ⟨fun payload fault => decodeRaw_error_iff, fun payload long => ?_,
    fun first second => isPlanned.decodeRaw_congr⟩
  refine ⟨isPlanned.signals, fun field fieldMember => ?_, _, isPlanned.decodeRaw_eq long, rfl,
    fun name => ?_⟩
  · have placed := isPlanned.placed fieldMember
    rw [← placed.read_eq_reading]
    exact ⟨rfl, Field.range_contains_read payload placed⟩
  · rw [OrderedMap.get?_ofList, List.filter_map, List.getLast?_map, Option.map_map]
    rfl

theorem decodeRaw_reads_places_crossing :
    crossing ∈ crossingSchema.messages ∧ plan crossing false false = .ok crossingCodec ∧
      crossingCodec.decodeRaw [0xb5] = .error (.truncated 0x2a 2 1) ∧
      crossingCodec.decodeRaw [0xb5, 0x6f] = .ok (.ofList [("Rise", -19), ("Fall", 173)]) ∧
      crossingCodec.decodeRaw [0xb5, 0x6f] = crossingCodec.decodeRaw [0xb5, 0x69, 0xff] := by
  have planned : plan crossing false false = .ok crossingCodec := rfl
  have reads := decodeRaw_reads_places crossingSchema crossing List.mem_cons_self false false
    crossingCodec planned
  refine ⟨List.mem_cons_self, planned, (reads.1 _ _).mpr ⟨by decide, rfl⟩, ?_, ?_⟩
  · rcases (reads.2.1 [0xb5, 0x6f] (by decide)).2.2 with ⟨values, decoded, rfl, _⟩
    exact decoded
  · refine reads.2.2 _ _ (by decide) (by decide) fun place claimed => ?_
    rcases claimed with ⟨signal, signalMember, index, within, rfl⟩
    revert index
    revert signal
    decide

end Codec

end CanCodec
