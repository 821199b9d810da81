import CanCodec.Proofs.RoundTrip

/-! # Choices that are written back

Several raw values may have one choice name, and a name stands for the least of them. A
raw value is written back from its presentation when its name stands for it, or when it is
presented as it is. -/

namespace CanCodec

/-! ## Names and raw values -/

namespace Signal

/-- The raw value that a choice name stands for: the least one that has the name. -/
def Denotes (signal : Signal) (name : String) (raw : Int) : Prop :=
  signal.choiceName? raw = some name ∧
    ∀ other, signal.choiceName? other = some name → raw ≤ other

def Recoverable (signal : Signal) (raw : Int) : Prop :=
  (∃ name, signal.Denotes name raw) ∨ signal.choiceName? raw = none ∧ signal.isUnscaled = true

theorem Denotes.unique {signal : Signal} {name : String} {first second : Int}
    (denotesFirst : signal.Denotes name first) (denotesSecond : signal.Denotes name second) :
    first = second :=
  Int.le_antisymm (denotesFirst.2 second denotesSecond.1) (denotesSecond.2 first denotesFirst.1)

theorem choiceName?_eq_some_iff {signal : Signal} {raw : Int} {name : String} :
    signal.choiceName? raw = some name ↔
      ∃ choices, signal.choices = some choices ∧ (raw, name) ∈ choices.entries := by
  simp only [choiceName?, Option.bind_eq_some_iff, AscendingMap.get?_eq_some_iff]

theorem find?_name_least {choices : Choices} {name : String} {entry : Int × String}
    (found : choices.entries.find? (fun entry => entry.2 = name) = some entry) :
    (entry.1, name) ∈ choices.entries ∧
      ∀ other, (other, name) ∈ choices.entries → entry.1 ≤ other := by
  rcases List.find?_eq_some_iff_append.mp found with ⟨named, before, after, split, passed⟩
  simp only [decide_eq_true_eq, Bool.not_eq_true', decide_eq_false_iff_not] at named passed
  have ascending := choices.ascending
  rw [Ascending, split, List.pairwise_append, List.pairwise_cons] at ascending
  rw [split, ← named]
  refine ⟨List.mem_append_right _ List.mem_cons_self, fun other member => ?_⟩
  rcases List.mem_append.mp member with early | late
  · exact absurd named (passed (other, entry.2) early)
  rcases List.mem_cons.mp late with here | later
  · exact Int.le_of_eq (congrArg Prod.fst here.symm)
  · exact Int.le_of_lt (ascending.2.1.1 _ later)

theorem choiceRaw?_eq_some_iff {signal : Signal} {name : String} {raw : Int} :
    signal.choiceRaw? name = some raw ↔ signal.Denotes name raw := by
  have least : ∀ found, signal.choiceRaw? name = some found → signal.Denotes name found := by
    intro found isFound
    simp only [choiceRaw?, Option.bind_eq_bind, Option.pure_def] at isFound
    rcases Option.bind_eq_some_iff.mp isFound with ⟨choices, declared, searched⟩
    rcases Option.bind_eq_some_iff.mp searched with ⟨entry, isFirst, same⟩
    rw [Option.some.injEq] at same
    rcases find?_name_least isFirst with ⟨member, smallest⟩
    rw [same] at member smallest
    refine ⟨choiceName?_eq_some_iff.mpr ⟨choices, declared, member⟩, fun other named => ?_⟩
    rcases choiceName?_eq_some_iff.mp named with ⟨others, alsoDeclared, otherMember⟩
    rw [declared, Option.some.injEq] at alsoDeclared
    rw [← alsoDeclared] at otherMember
    exact smallest other otherMember
  refine ⟨least raw, fun denotes => ?_⟩
  cases found : signal.choiceRaw? name with
  | some value => rw [(least value found).unique denotes]
  | none =>
      rcases choiceName?_eq_some_iff.mp denotes.1 with ⟨choices, declared, member⟩
      simp only [choiceRaw?, declared, Option.bind_eq_bind, Option.bind_some, Option.pure_def,
        Option.bind_eq_none_iff, reduceCtorEq, imp_false] at found
      have absent := List.find?_eq_none.mp (Option.eq_none_iff_forall_ne_some.mpr found)
      simpa using absent _ member

theorem exists_denotes {signal : Signal} {raw : Int} {name : String}
    (named : signal.choiceName? raw = some name) :
    ∃ least, least ≤ raw ∧ signal.Denotes name least := by
  rcases choiceName?_eq_some_iff.mp named with ⟨choices, declared, member⟩
  cases searched : choices.entries.find? (fun entry => entry.2 = name) with
  | none =>
      have absent := List.find?_eq_none.mp searched _ member
      simp at absent
  | some entry =>
      have denotes : signal.Denotes name entry.1 := by
        apply choiceRaw?_eq_some_iff.mp
        simp [choiceRaw?, declared, searched]
      exact ⟨entry.1, denotes.2 raw named, denotes⟩

/-! ## Encoding a presented value -/

theorem encode_present_of_denotes {signal : Signal} {raw least : Int} {name : String}
    (named : signal.choiceName? raw = some name) (denotes : signal.Denotes name least) :
    signal.encode (signal.present raw) = .ok least := by
  simp only [present, named, encode, encodeChoice, choiceRaw?_eq_some_iff.mpr denotes,
    mapError_ok_iff]

theorem encode_present_of_unscaled {signal : Signal} {raw : Int}
    (unnamed : signal.choiceName? raw = none) (unscaled : signal.isUnscaled = true)
    (contained : signal.range.contains raw = true) :
    signal.encode (signal.present raw) = .ok raw := by
  simp only [present, unnamed, unscaled, encode, if_true, RawRange.clamp_of_contains contained]

theorem Recoverable.encode_present {signal : Signal} {raw : Int}
    (recoverable : signal.Recoverable raw) (contained : signal.range.contains raw = true) :
    signal.encode (signal.present raw) = .ok raw := by
  rcases recoverable with ⟨name, denotes⟩ | ⟨unnamed, unscaled⟩
  · exact encode_present_of_denotes denotes.1 denotes
  · exact encode_present_of_unscaled unnamed unscaled contained

end Signal

namespace Codec

theorem decode_of_length {codec : Codec} {payload : Payload}
    (long : codec.wireLength ≤ payload.length) :
    codec.decode payload =
      .ok (.ofList (codec.fields.map fun field =>
        (field.name, field.signal.present (field.read payload)))) := by
  simp [decode, checkLength, Nat.not_lt.mpr long, Except.map]

/-! ## Writing back a presented record -/

/-- A named raw value is written back as the least one of its name, and an unnamed one of an
unscaled signal as itself. A payload whose raw values are all written back as themselves
keeps its claimed bits when it is decoded and encoded again. -/
theorem presented_reencoding (schema : Schema) (message : Message)
    (member : message ∈ schema.messages) :
    (∀ signal ∈ message.signals, ∀ raw, signal.range.contains raw = true →
      (∀ name, signal.choiceName? raw = some name →
        ∃ least, least ≤ raw ∧ signal.Denotes name least ∧
          signal.encode (signal.present raw) = .ok least) ∧
      (signal.choiceName? raw = none → signal.isUnscaled = true →
        signal.encode (signal.present raw) = .ok raw) ∧
      (signal.Recoverable raw → signal.encode (signal.present raw) = .ok raw)) ∧
    ∀ packed strict codec data, plan message packed strict = .ok codec →
      (message.signals.map Signal.name).Nodup → message.length ≤ data.length →
      (∀ field ∈ codec.fields, field.signal.Recoverable (field.read data)) →
      ∃ record, codec.decode data = .ok record ∧
        ∃ frame, codec.encode record = .ok frame ∧ frame.length = message.length ∧
          ∀ place, frame.bit place = (data.bit place && decide (message.Claims place)) := by
  constructor
  · intro signal _ raw contained
    refine ⟨fun name named => ?_, fun unnamed unscaled => ?_, fun recoverable => ?_⟩
    · rcases Signal.exists_denotes named with ⟨least, below, denotes⟩
      exact ⟨least, below, denotes, Signal.encode_present_of_denotes named denotes⟩
    · exact Signal.encode_present_of_unscaled unnamed unscaled contained
    · exact recoverable.encode_present contained
  · intro packed strict codec data planned distinct long recoverable
    have isPlanned := Planned.of_plan planned fun signal signalMember =>
      (schema.signal_length_bounds member signalMember).2
    obtain rfl : codec.message = message := by rw [(plan_ok_iff.mp planned).2.2]
    refine ⟨_, decode_of_length long, ?_⟩
    generalize presented : OrderedMap.ofList (codec.fields.map fun field =>
      (field.name, field.signal.present (field.read data))) = record
    have computed : ∀ field ∈ codec.fields,
        field.signal.rawOf record = .ok (field.read data) := by
      intro field fieldMember
      have given : record.get? field.signal.name =
          some (field.signal.present (field.read data)) := by
        rw [← presented]
        exact isPlanned.get?_ofFields distinct fieldMember
          fun field => field.signal.present (field.read data)
      simp only [Signal.rawOf, given]
      exact (recoverable field fieldMember).encode_present
        (Field.range_contains_read data (isPlanned.placed fieldMember))
    rcases exists_encode_of_rawOf fun field fieldMember => ⟨_, computed field fieldMember⟩ with
      ⟨frame, encoded⟩
    exact ⟨frame, encoded, (isPlanned.bit_encode encoded).1,
      isPlanned.bit_reencode encoded computed⟩

def beacon : Message where
  frameId := 0x31
  name := "Beacon"
  length := 1
  signals :=
    [{ name := "Lamp", start := 0, length := 2, byteOrder := .littleEndian
       choices := some ⟨[(1, "On"), (2, "Reserved"), (3, "Reserved")], by simp [Ascending]⟩ },
      { name := "Count", start := 4, length := 3, byteOrder := .littleEndian }]

def beaconSchema : Schema where
  version := none
  messages := [beacon]
  sound := by decide

def beaconCodec : Codec where
  message := beacon
  layout := .ofPlan "Beacon" false (beacon.signals.map Frame.placing)

theorem presented_reencoding_beacon :
    beaconSchema.choiceViolation? = none ∧ plan beacon false true = .ok beaconCodec ∧
      ∃ record, beaconCodec.decode [0x5a] = .ok record ∧
        ∃ frame, beaconCodec.encode record = .ok frame ∧ frame.length = 1 ∧
          ∀ place, frame.bit place = (Payload.bit [0x5a] place && decide (beacon.Claims place)) := by
  have planned : plan beacon false true = .ok beaconCodec := by rfl
  have recoverable : ∀ field ∈ beaconCodec.fields,
      field.signal.Recoverable (field.read [0x5a]) := by
    intro field member
    rcases List.mem_cons.mp member with lamp | others
    · rw [lamp]
      exact .inl ⟨"Reserved", Signal.choiceRaw?_eq_some_iff.mp rfl⟩
    · rw [List.mem_singleton.mp others]
      exact .inr ⟨rfl, rfl⟩
  exact ⟨by rfl, planned, (presented_reencoding beaconSchema beacon List.mem_cons_self).2 false
    true beaconCodec [0x5a] planned (by decide) (by decide) recoverable⟩

/-- A raw value whose name stands for a smaller one is not written back. -/
theorem not_encode_present_shared_name :
    ¬ ∀ schema : Schema, schema.choiceViolation? = none →
      ∀ message ∈ schema.messages, ∀ signal ∈ message.signals, ∀ raw,
        signal.range.contains raw = true →
        (∃ name, signal.choiceName? raw = some name) ∨ signal.isUnscaled = true →
        signal.encode (signal.present raw) = .ok raw := by
  intro recovered
  have lamp := recovered beaconSchema rfl beacon List.mem_cons_self _ List.mem_cons_self 3 rfl
    (.inl ⟨"Reserved", rfl⟩)
  cases lamp

end Codec

end CanCodec
