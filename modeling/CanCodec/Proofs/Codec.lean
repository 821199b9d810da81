import CanCodec.Proofs.Frame.Overlap
import CanCodec.Proofs.Payload
import CanCodec.Proofs.Traversal
import CanCodec.Proofs.TwosComplement

/-! # Bits of encoded records

A codec writes the bits of each raw value to the places of its signal, and reads them
back from there. -/

namespace CanCodec

/-! ## Planned codecs -/

structure Codec.Planned (codec : Codec) : Prop where
  signals : codec.fields.map Field.signal = codec.message.signals
  segments : ∀ field ∈ codec.fields, field.segments = Frame.segments field.signal
  fits : ∀ field ∈ codec.fields, field.signal.Fits codec.wireLength
  narrow : ∀ field ∈ codec.fields, field.signal.length ≤ 64

namespace RecordLayout

theorem map_signal_layFields (packed : Bool) (cursor index : Nat) (placed : List Frame.Placed) :
    (layFields packed cursor index placed).map Field.signal = placed.map Frame.Placed.signal := by
  induction placed generalizing cursor index with
  | nil => rfl
  | cons head rest induction => simp [layFields, layField, induction]

theorem exists_of_mem_layFields {packed : Bool} {cursor index : Nat}
    {placed : List Frame.Placed} {field : Field}
    (member : field ∈ layFields packed cursor index placed) :
    ∃ source ∈ placed, field.signal = source.signal ∧ field.segments = source.segments := by
  induction placed generalizing cursor index with
  | nil => cases member
  | cons head rest induction =>
      rcases List.mem_cons.mp member with equal | member
      · exact ⟨head, List.mem_cons_self, by rw [equal]; rfl, by rw [equal]; rfl⟩
      · rcases induction member with ⟨source, sourceMember, same⟩
        exact ⟨source, List.mem_cons_of_mem head sourceMember, same⟩

end RecordLayout

namespace Codec

theorem plan_ok_iff {message : Message} {packed strict : Bool} {codec : Codec} :
    plan message packed strict = .ok codec ↔
      (∀ signal ∈ message.signals, signal.Fits message.length) ∧
        (strict = true → message.signals.Pairwise Signal.Apart) ∧
        codec = ⟨message, .ofPlan message.name packed (message.signals.map Frame.placing)⟩ := by
  simp only [plan]
  cases planned : Frame.planMessage message strict with
  | error fault =>
      have refused : ∀ placed, ¬ Frame.planMessage message strict = .ok placed := by
        intro placed isPlan
        rw [planned] at isPlan
        cases isPlan
      simp only [Frame.planMessage_ok_iff] at refused
      simp only [Except.map, reduceCtorEq, false_iff]
      intro accepted
      exact refused _ ⟨accepted.1, accepted.2.1, rfl⟩
  | ok placed =>
      rcases Frame.planMessage_ok_iff.mp planned with ⟨fits, apart, equal⟩
      rw [equal]
      simp only [Except.map, Except.ok.injEq]
      exact ⟨fun same => ⟨fits, apart, same.symm⟩, fun accepted => accepted.2.2.symm⟩

theorem Planned.of_plan {message : Message} {packed strict : Bool} {codec : Codec}
    (planned : plan message packed strict = .ok codec)
    (narrow : ∀ signal ∈ message.signals, signal.length ≤ 64) : codec.Planned := by
  rcases plan_ok_iff.mp planned with ⟨fits, _, equal⟩
  have source : ∀ field ∈ codec.fields, field.signal ∈ message.signals ∧
      field.segments = Frame.segments field.signal := by
    intro field member
    rw [equal] at member
    rcases RecordLayout.exists_of_mem_layFields member with ⟨placed, placedMember, signal, segments⟩
    rcases List.mem_map.mp placedMember with ⟨origin, originMember, placing⟩
    rw [signal, segments, ← placing]
    exact ⟨originMember, rfl⟩
  constructor
  · rw [equal]
    exact (RecordLayout.map_signal_layFields packed 0 0 _).trans
      (by simp [Frame.placing, Function.comp_def])
  · exact fun field member => (source field member).2
  · intro field member
    have messageEqual : codec.message = message := by rw [equal]
    rw [wireLength, messageEqual]
    exact fits _ (source field member).1
  · exact fun field member => narrow _ (source field member).1

end Codec

/-! ## One field -/

namespace Field

structure Placed (field : Field) (messageLength : Nat) : Prop where
  segments : field.segments = Frame.segments field.signal
  fits : field.signal.Fits messageLength
  narrow : field.signal.length ≤ 64

theorem Placed.carries_iff {field : Field} {messageLength index : Nat} {place : Place}
    (placed : field.Placed messageLength) :
    (∃ segment ∈ field.segments, segment.Carries index place) ↔
      index < field.signal.length ∧ field.signal.place index = place := by
  have narrow := placed.narrow
  rw [placed.segments]
  exact Frame.carries_segments_iff placed.fits.1 (by omega)

theorem Placed.segment_bounds {field : Field} {messageLength : Nat} {segment : Segment}
    (placed : field.Placed messageLength) (member : segment ∈ field.segments) :
    0 < segment.bitCount ∧ segment.bitOffset + segment.bitCount ≤ 8 ∧
      segment.byteIndex < messageLength ∧
      segment.valueOffset + segment.bitCount ≤ field.signal.length := by
  have inSegments := member
  rw [placed.segments] at inSegments
  have bounds := Frame.segment_bounds placed.fits.1 placed.fits.2 inSegments
  refine ⟨bounds.1, bounds.2.1, bounds.2.2, ?_⟩
  -- The last bit that the segment carries is one of the signal's bits.
  have carries : segment.Carries (segment.valueOffset + segment.bitCount - 1)
      ⟨segment.byteIndex, segment.bitOffset + segment.bitCount - 1⟩ :=
    ⟨rfl, by omega, by omega, by dsimp only; omega⟩
  have within := (placed.carries_iff.mp ⟨segment, member, carries⟩).1
  omega

theorem Placed.segments_ne_nil {field : Field} {messageLength : Nat}
    (placed : field.Placed messageLength) : field.segments ≠ [] := by
  intro empty
  rcases placed.carries_iff.mpr ⟨placed.fits.1, rfl⟩ with ⟨segment, member, _⟩
  rw [empty] at member
  cases member

@[simp] theorem length_write (payload : Payload) (field : Field) (raw : Int) :
    (field.write payload raw).length = payload.length := by
  rw [write, Payload.length_put]

theorem bit_write {field : Field} {payload : Payload} (raw : Int) (place : Place)
    (placed : field.Placed payload.length) :
    (field.write payload raw).bit place = true ↔
      payload.bit place = true ∨
        ∃ index, index < field.signal.length ∧ field.signal.place index = place ∧
          (BitVec.ofInt 64 raw).getLsbD index = true := by
  have bounded : ∀ segment ∈ field.segments, segment.bitOffset + segment.bitCount ≤ 8 ∧
      segment.byteIndex < payload.length := by
    intro segment member
    have bounds := placed.segment_bounds member
    exact ⟨bounds.2.1, bounds.2.2.1⟩
  rw [write, Payload.bit_put _ place bounded]
  simp only [placed.carries_iff, and_assoc]

theorem getLsbD_gather {field : Field} {messageLength : Nat} (payload : Payload) (index : Nat)
    (placed : field.Placed messageLength) :
    (payload.gather field.segments).getLsbD index = true ↔
      index < field.signal.length ∧ payload.bit (field.signal.place index) = true := by
  have bounded : ∀ segment ∈ field.segments, segment.bitOffset + segment.bitCount ≤ 8 ∧
      segment.valueOffset + segment.bitCount ≤ 64 := by
    intro segment member
    have bounds := placed.segment_bounds member
    exact ⟨bounds.2.1, Nat.le_trans bounds.2.2.2 placed.narrow⟩
  rw [Payload.getLsbD_gather payload field.segments index bounded]
  simp only [placed.carries_iff]
  constructor
  · intro read
    rcases read with ⟨place, ⟨within, atPlace⟩, set⟩
    rw [atPlace]
    exact ⟨within, set⟩
  · intro read
    exact ⟨field.signal.place index, ⟨read.1, rfl⟩, read.2⟩

theorem read_congr {field : Field} {messageLength : Nat} {first second : Payload}
    (placed : field.Placed messageLength)
    (agree : ∀ place, field.signal.Claims place → first.bit place = second.bit place) :
    field.read first = field.read second := by
  have words : first.gather field.segments = second.gather field.segments := by
    apply BitVec.eq_of_getLsbD_eq
    intro index _
    rw [Bool.eq_iff_iff, getLsbD_gather first index placed, getLsbD_gather second index placed]
    refine and_congr_right fun within => ?_
    rw [agree _ ⟨index, within, rfl⟩]
  rw [read, read, words]

theorem range_contains_read {field : Field} {messageLength : Nat} (payload : Payload)
    (placed : field.Placed messageLength) :
    field.signal.range.contains (field.read payload) = true := by
  apply Signal.range_contains_interpret placed.fits.1 placed.narrow
  intro index set
  exact ((getLsbD_gather payload index placed).mp set).1

end Field

/-! ## Records -/

namespace Codec

theorem Planned.placed {codec : Codec} (planned : codec.Planned) {field : Field}
    (member : field ∈ codec.fields) : field.Placed codec.wireLength :=
  ⟨planned.segments field member, planned.fits field member, planned.narrow field member⟩

theorem Planned.signal_mem {codec : Codec} (planned : codec.Planned) {field : Field}
    (member : field ∈ codec.fields) : field.signal ∈ codec.message.signals := by
  rw [← planned.signals]
  exact List.mem_map_of_mem member

theorem length_foldl_write (entries : List (Field × Int)) (payload : Payload) :
    (entries.foldl (fun payload entry => entry.1.write payload entry.2) payload).length =
      payload.length := by
  induction entries generalizing payload with
  | nil => rfl
  | cons entry rest induction => rw [List.foldl_cons, induction, Field.length_write]

theorem bit_foldl_write {entries : List (Field × Int)} {payload : Payload} (place : Place)
    (placed : ∀ entry ∈ entries, entry.1.Placed payload.length) :
    (entries.foldl (fun payload entry => entry.1.write payload entry.2) payload).bit place =
        true ↔
      payload.bit place = true ∨ ∃ entry ∈ entries,
        ∃ index, index < entry.1.signal.length ∧ entry.1.signal.place index = place ∧
          (BitVec.ofInt 64 entry.2).getLsbD index = true := by
  induction entries generalizing payload with
  | nil => simp
  | cons entry rest induction =>
      have headPlaced := placed entry List.mem_cons_self
      have restPlaced : ∀ other ∈ rest,
          other.1.Placed (entry.1.write payload entry.2).length := by
        intro other member
        rw [Field.length_write]
        exact placed other (List.mem_cons_of_mem entry member)
      rw [List.foldl_cons, induction restPlaced, Field.bit_write entry.2 place headPlaced]
      simp only [List.mem_cons, exists_eq_or_imp, or_assoc]

theorem encode_ok_iff {codec : Codec} {record : Record} {data : Payload} :
    codec.encode record = .ok data ↔
      ∃ raws, codec.fields.map (fun field => field.signal.rawOf record) = raws.map .ok ∧
        data = (codec.fields.zip raws).foldl
          (fun payload entry => entry.1.write payload entry.2)
          (Payload.zeros codec.wireLength) := by
  rw [encode]
  cases computed : codec.rawValues record with
  | error fault =>
      simp only [Except.map, reduceCtorEq, false_iff]
      intro success
      rcases success with ⟨raws, values, _⟩
      have computedRaws : codec.rawValues record = .ok raws := mapM_ok_iff.mpr values
      rw [computed] at computedRaws
      cases computedRaws
  | ok raws =>
      have values := mapM_ok_iff.mp computed
      simp only [Except.map, Except.ok.injEq]
      constructor
      · intro same
        exact ⟨raws, values, same.symm⟩
      · intro success
        rcases success with ⟨others, otherValues, same⟩
        have equal : raws = others := by
          have mapped := values.symm.trans otherValues
          exact (List.map_inj_right fun _ _ equal => Except.ok.inj equal).mp mapped
        rw [same, equal]

/-- An encoded record has the length of its message, and its set bits are those of the
raw values, each at its place. -/
theorem Planned.bit_encode {codec : Codec} {record : Record} {data : Payload}
    (planned : codec.Planned) (encoded : codec.encode record = .ok data) :
    data.length = codec.wireLength ∧ ∀ place, data.bit place = true ↔
      ∃ field ∈ codec.fields, ∃ raw, field.signal.rawOf record = .ok raw ∧
        ∃ index, index < field.signal.length ∧ field.signal.place index = place ∧
          (BitVec.ofInt 64 raw).getLsbD index = true := by
  rcases encode_ok_iff.mp encoded with ⟨raws, values, rfl⟩
  have zerosLength : (Payload.zeros codec.wireLength).length = codec.wireLength := by
    simp [Payload.zeros]
  constructor
  · rw [length_foldl_write, zerosLength]
  intro place
  have entryPlaced : ∀ entry ∈ codec.fields.zip raws,
      entry.1.Placed (Payload.zeros codec.wireLength).length := by
    intro entry member
    rw [zerosLength]
    exact planned.placed (List.of_mem_zip member).1
  rw [bit_foldl_write place entryPlaced, Payload.bit_zeros]
  simp only [Bool.false_eq_true, false_or]
  constructor
  · intro found
    rcases found with ⟨⟨field, raw⟩, member, set⟩
    rcases (mem_zip_iff values field raw).mp member with ⟨fieldMember, computed⟩
    exact ⟨field, fieldMember, raw, computed, set⟩
  · intro found
    rcases found with ⟨field, fieldMember, raw, computed, set⟩
    exact ⟨(field, raw), (mem_zip_iff values field raw).mpr ⟨fieldMember, computed⟩, set⟩

theorem exists_encode_of_rawOf {codec : Codec} {record : Record}
    (computed : ∀ field ∈ codec.fields, ∃ raw, field.signal.rawOf record = .ok raw) :
    ∃ data, codec.encode record = .ok data := by
  have values : ∃ raws : List Int,
      codec.fields.map (fun field => field.signal.rawOf record) = raws.map .ok := by
    generalize codec.fields = fields at computed
    induction fields with
    | nil => exact ⟨[], rfl⟩
    | cons field rest induction =>
        rcases computed field List.mem_cons_self with ⟨raw, head⟩
        rcases induction fun other member => computed other (List.mem_cons_of_mem field member)
          with ⟨raws, remaining⟩
        exact ⟨raw :: raws, by rw [List.map_cons, List.map_cons, head, remaining]⟩
  rcases values with ⟨raws, values⟩
  exact ⟨_, encode_ok_iff.mpr ⟨raws, values, rfl⟩⟩

theorem rawOf_of_encode {codec : Codec} {record : Record} {data : Payload}
    (encoded : codec.encode record = .ok data) {field : Field} (member : field ∈ codec.fields) :
    ∃ raw, field.signal.rawOf record = .ok raw := by
  rcases encode_ok_iff.mp encoded with ⟨raws, values, _⟩
  have listed : field.signal.rawOf record ∈ raws.map Except.ok := by
    rw [← values]
    exact List.mem_map_of_mem (f := fun field => Signal.rawOf field.signal record) member
  rcases List.mem_map.mp listed with ⟨raw, _, computed⟩
  exact ⟨raw, computed.symm⟩

end Codec

end CanCodec
