import CanCodec.Codebook
import CanCodec.Proofs.Codec
import CanCodec.Proofs.Record

/-! # Saturated values and their warnings

A record can ask a signal for a value that its bits or its declared bounds exclude. What is
sent instead is reported for the whole numbers of unscaled signals and for numbers outside
their bounds, and for nothing else. -/

namespace CanCodec

/-! ## What a record asks for -/

namespace Signal

/-- The raw value of a number, stepped back inside the declared bounds but not yet clamped to
the signal's range. -/
def rounded (signal : Signal) (physical : Float) : Option Int :=
  Conversion.corrected signal.linear signal.bounds physical

def asked? (signal : Signal) (record : Record) : Option Int :=
  match record.get? signal.name with
  | none => some (signal.initial.getD 0)
  | some (.integer value) =>
      if signal.isUnscaled then some value else signal.rounded (Float.ofInt value)
  | some (.real value) => signal.rounded value
  | some (.choice name) => signal.choiceRaw? name

def isBounded (signal : Signal) : Bool :=
  signal.bounds.minimum.isSome || signal.bounds.maximum.isSome

inductive Excludes (signal : Signal) (physical : Float) : Prop
  | notANumber (nan : physical.isNaN = true) (bounded : signal.isBounded = true)
  | bounds (outside : signal.isInRange physical = false)
  | bits (raw : Int) (isRounded : signal.rounded physical = some raw)
      (outside : signal.range.contains raw = false)

inductive Saturates (signal : Signal) (record : Record) : Prop
  | integer (value : Int) (given : record.get? signal.name = some (.integer value))
      (unscaled : signal.isUnscaled = true) (outside : signal.range.contains value = false)
  | initial (raw : Int) (missing : record.get? signal.name = none)
      (declared : signal.initial = some raw) (outside : signal.range.contains raw = false)
  | choice (name : String) (raw : Int) (given : record.get? signal.name = some (.choice name))
      (listed : signal.choiceRaw? name = some raw) (outside : signal.range.contains raw = false)
  | number (value : FieldValue) (physical : Float)
      (given : record.get? signal.name = some value)
      (converted : signal.number? value = some physical) (excluded : signal.Excludes physical)

/-- No warning is considered for what a record gives to a signal. -/
inductive Unchecked (signal : Signal) (record : Record) : Prop
  | initial (missing : record.get? signal.name = none)
  | choice (name : String) (given : record.get? signal.name = some (.choice name))
  | scaled (value : Int) (given : record.get? signal.name = some (.integer value))
      (scaled : signal.isUnscaled = false)
  | inBounds (value : Float) (given : record.get? signal.name = some (.real value))
      (inside : signal.isInRange value = true)

theorem range_clamp_eq_iff {signal : Signal} {raw : Int} :
    signal.range.clamp raw = raw ↔ signal.range.contains raw = true := by
  refine ⟨fun kept => ?_, RawRange.clamp_of_contains⟩
  have contained := signal.range_contains_clamp raw
  rwa [kept] at contained

theorem rounded_of_not_excludes {signal : Signal} {physical : Float} {raw : Int}
    (converted : signal.toRaw physical = some raw) (kept : ¬ signal.Excludes physical) :
    signal.rounded physical = some raw := by
  rcases Option.map_eq_some_iff.mp converted with ⟨corrected, isCorrected, rfl⟩
  have inside : signal.range.contains corrected = true :=
    Bool.of_not_eq_false fun outside => kept (.bits corrected isCorrected outside)
  rw [RawRange.clamp_of_contains inside]
  exact isCorrected

theorem asked?_of_number? {signal : Signal} {record : Record} {value : FieldValue}
    {physical : Float} (given : record.get? signal.name = some value)
    (converted : signal.number? value = some physical) :
    signal.asked? record = signal.rounded physical := by
  rw [asked?, given]
  cases value with
  | integer whole =>
      rw [number?] at converted
      split at converted
      · cases converted
      next scaled =>
        cases converted
        exact if_neg scaled
  | real number =>
      cases converted
      rfl
  | choice name => cases converted

theorem saturates_of_integer_iff {signal : Signal} {record : Record} {value : Int}
    (given : record.get? signal.name = some (.integer value))
    (unscaled : signal.isUnscaled = true) :
    signal.Saturates record ↔ signal.range.contains value = false := by
  refine ⟨fun saturates => ?_, fun outside => .integer value given unscaled outside⟩
  cases saturates with
  | integer other otherGiven _ outside =>
      rw [given] at otherGiven
      cases otherGiven
      exact outside
  | initial _ missing =>
      rw [given] at missing
      cases missing
  | choice _ _ otherGiven =>
      rw [given] at otherGiven
      cases otherGiven
  | number _ _ otherGiven converted =>
      rw [given] at otherGiven
      cases otherGiven
      simp [number?, unscaled] at converted

theorem not_unchecked_of_integer {signal : Signal} {record : Record} {value : Int}
    (given : record.get? signal.name = some (.integer value))
    (unscaled : signal.isUnscaled = true) : ¬ signal.Unchecked record := by
  intro unchecked
  cases unchecked with
  | initial missing =>
      rw [given] at missing
      cases missing
  | choice _ otherGiven | inBounds _ otherGiven =>
      rw [given] at otherGiven
      cases otherGiven
  | scaled _ _ scaled =>
      rw [unscaled] at scaled
      cases scaled

theorem unchecked_of_real_iff {signal : Signal} {record : Record} {value : Float}
    (given : record.get? signal.name = some (.real value)) :
    signal.Unchecked record ↔ signal.isInRange value = true := by
  refine ⟨fun unchecked => ?_, fun inside => .inBounds value given inside⟩
  cases unchecked with
  | initial missing =>
      rw [given] at missing
      cases missing
  | choice _ otherGiven | scaled _ otherGiven =>
      rw [given] at otherGiven
      cases otherGiven
  | inBounds _ otherGiven inside =>
      rw [given] at otherGiven
      cases otherGiven
      exact inside

theorem rawOf_of_not_saturates {signal : Signal} {record : Record} {raw : Int}
    (computed : signal.rawOf record = .ok raw) (kept : ¬ signal.Saturates record) :
    signal.asked? record = some raw := by
  simp only [rawOf] at computed
  cases given : record.get? signal.name with
  | none =>
      simp only [given, Except.ok.injEq] at computed
      rw [asked?, given, ← computed, initialRaw]
      cases declared : signal.initial with
      | none => exact congrArg some (RawRange.clamp_of_contains signal.range_contains_zero).symm
      | some initial =>
          have inside : signal.range.contains initial = true :=
            Bool.of_not_eq_false fun outside =>
              kept (.initial initial given declared outside)
          exact congrArg some (RawRange.clamp_of_contains inside).symm
  | some value =>
      simp only [given] at computed
      rcases signal.encode_cases value with ⟨whole, rfl, unscaled, encoded⟩ |
        ⟨physical, converted, encoded⟩ | ⟨name, rfl, encoded⟩
      · have inside : signal.range.contains whole = true :=
          Bool.of_not_eq_false fun outside => kept (.integer whole given unscaled outside)
        rw [encoded, RawRange.clamp_of_contains inside] at computed
        rw [asked?, given, ← Except.ok.inj computed]
        exact if_pos unscaled
      · rw [encoded, encodeReal_ok_iff] at computed
        rw [asked?_of_number? given converted]
        exact rounded_of_not_excludes computed fun excluded =>
          kept (.number value physical given converted excluded)
      · rw [asked?, given]
        rw [encoded, mapError_ok_iff, encodeChoice] at computed
        cases listed : signal.choiceRaw? name <;> simp_all

end Signal

/-! ## What is reported -/

structure Event.WarnsOf (event : Event) (message signal : String) : Prop where
  warning : event.severity = .warning
  message : ("message", message) ∈ event.details
  signal : ("signal", signal) ∈ event.details

namespace Codec

def warnings (message : String) (record : Record) (field : Field) : List Event :=
  match record.get? field.name, field.signal.rawOf record with
  | some value, .ok raw =>
      givenEvents message field.signal value ++ sentEvents message field.signal raw value
  | _, _ => []

theorem fieldEvents_eq_flatMap {message : String} {record : Record} {fields : List Field}
    (computed : ∀ field ∈ fields, ∃ raw, field.signal.rawOf record = .ok raw) :
    fieldEvents message record fields = fields.flatMap (warnings message record) := by
  induction fields with
  | nil => rfl
  | cons field rest induction =>
      rcases computed field List.mem_cons_self with ⟨raw, isRaw⟩
      have others := induction fun other member =>
        computed other (List.mem_cons_of_mem field member)
      rw [fieldEvents, isRaw, List.flatMap_cons, ← others, warnings, isRaw]
      cases record.get? field.name <;> simp

theorem saturated_warnsOf_iff {message signal name : String} {requested raw : Int} :
    (Event.saturated message signal requested raw).WarnsOf message name ↔ name = signal := by
  refine ⟨fun warns => ?_,
    fun same => ⟨rfl, by simp [Event.details], by simp [Event.details, same]⟩⟩
  simpa [Event.details] using warns.signal

theorem clamped_warnsOf_iff {message signal name : String} {physical : Float} :
    (Event.clamped message signal physical).WarnsOf message name ↔ name = signal := by
  refine ⟨fun warns => ?_,
    fun same => ⟨rfl, by simp [Event.details], by simp [Event.details, same]⟩⟩
  simpa [Event.details] using warns.signal

theorem warnsOf_of_mem_warnings {message name : String} {record : Record} {field : Field}
    {event : Event} (member : event ∈ warnings message record field) :
    event.WarnsOf message name ↔ name = field.name := by
  rw [warnings] at member
  split at member
  next value raw _ _ =>
    cases value with
    | integer whole =>
        rw [givenEvents, sentEvents, List.nil_append] at member
        split at member
        · rw [List.mem_singleton.mp member]
          exact saturated_warnsOf_iff
        · cases member
    | real physical =>
        rw [givenEvents, sentEvents, List.append_nil] at member
        split at member
        · cases member
        · rw [List.mem_singleton.mp member]
          exact clamped_warnsOf_iff
    | choice name => cases member
  next => cases member

/-- A field is reported when it saturates and its value is one that is checked. -/
theorem warnings_ne_nil_iff {message : String} {record : Record} {field : Field} {raw : Int}
    (computed : field.signal.rawOf record = .ok raw) :
    warnings message record field ≠ [] ↔
      field.signal.Saturates record ∧ ¬ field.signal.Unchecked record := by
  -- Two values are checked; each of the others is one of the unchecked cases.
  have silent (quiet : warnings message record field = [])
      (unchecked : field.signal.Unchecked record) :
      warnings message record field ≠ [] ↔
        field.signal.Saturates record ∧ ¬ field.signal.Unchecked record := by
    simp [quiet, unchecked]
  cases given : record.get? field.signal.name with
  | none => exact silent (by rw [warnings, Field.name, given]) (.initial given)
  | some value =>
      have reported : warnings message record field =
          givenEvents message field.signal value ++ sentEvents message field.signal raw value := by
        rw [warnings, Field.name, given, computed]
      simp only [Signal.rawOf, given] at computed
      cases value with
      | integer whole =>
          cases scaling : field.signal.isUnscaled with
          | false =>
              exact silent (by rw [reported, givenEvents, sentEvents, scaling]; rfl)
                (.scaled whole given scaling)
          | true =>
              simp only [Signal.encode, scaling, if_true, Except.ok.injEq] at computed
              rw [Signal.saturates_of_integer_iff given scaling,
                and_iff_left (Signal.not_unchecked_of_integer given scaling), reported,
                givenEvents, sentEvents, List.nil_append, scaling, ← computed, Bool.true_and,
                ← Bool.not_eq_true, ← Signal.range_clamp_eq_iff, eq_comm (b := whole)]
              simp
      | real physical =>
          rw [Signal.unchecked_of_real_iff given, reported, givenEvents, sentEvents,
            List.append_nil]
          cases inside : field.signal.isInRange physical with
          | true => simp
          | false => simpa using .number _ physical given rfl (.bounds inside)
      | choice name => exact silent reported (.choice name given)

/-- An encoded record is reported for a signal exactly when it saturates a signal of that name
and gives it a value that is checked. Nothing else is reported, and what does not saturate
is sent as the record asks for it. -/
theorem warned_iff_saturates (codec : Codec) (record : Record) (data : Payload)
    (encoded : codec.encode record = .ok data) :
    (∀ name, (∃ event ∈ codec.encodeEvents record, event.WarnsOf codec.name name) ↔
      ∃ field ∈ codec.fields, field.name = name ∧ field.signal.Saturates record ∧
        ¬ field.signal.Unchecked record) ∧
    (∀ event ∈ codec.encodeEvents record,
      ∃ field ∈ codec.fields, event.WarnsOf codec.name field.name) ∧
    ∀ field ∈ codec.fields, ¬ field.signal.Saturates record →
      ∃ raw, field.signal.rawOf record = .ok raw ∧ field.signal.asked? record = some raw := by
  have computed : ∀ field ∈ codec.fields, ∃ raw, field.signal.rawOf record = .ok raw :=
    fun field member => rawOf_of_encode encoded member
  rw [encodeEvents, fieldEvents_eq_flatMap computed]
  refine ⟨fun name => ?_, fun event reported => ?_, fun field member kept => ?_⟩
  · constructor
    · rintro ⟨event, reported, warns⟩
      rcases List.mem_flatMap.mp reported with ⟨field, member, isWarning⟩
      rcases computed field member with ⟨raw, isRaw⟩
      exact ⟨field, member, ((warnsOf_of_mem_warnings isWarning).mp warns).symm,
        (warnings_ne_nil_iff isRaw).mp (List.ne_nil_of_mem isWarning)⟩
    · rintro ⟨field, member, named, saturates⟩
      rcases computed field member with ⟨raw, isRaw⟩
      rcases List.exists_mem_of_ne_nil _ ((warnings_ne_nil_iff isRaw).mpr saturates) with
        ⟨event, isWarning⟩
      exact ⟨event, List.mem_flatMap.mpr ⟨field, member, isWarning⟩,
        (warnsOf_of_mem_warnings isWarning).mpr named.symm⟩
  · rcases List.mem_flatMap.mp reported with ⟨field, member, isWarning⟩
    exact ⟨field, member, (warnsOf_of_mem_warnings isWarning).mpr rfl⟩
  · rcases computed field member with ⟨raw, isRaw⟩
    exact ⟨raw, isRaw, Signal.rawOf_of_not_saturates isRaw kept⟩

/-- A message whose signals can each be asked for too much: by its bits, by its initial value,
by a choice and by its bounds. -/
def tank : Message where
  frameId := 0x52
  name := "Tank"
  length := 3
  signals :=
    [{ name := "Level", start := 0, length := 4, byteOrder := .littleEndian },
      { name := "Count", start := 4, length := 4, byteOrder := .littleEndian, initial := some 100 },
      { name := "Gear", start := 8, length := 2, byteOrder := .littleEndian
        choices := some ⟨[(9, "Reverse")], by simp [Ascending]⟩ },
      { name := "Fill", start := 16, length := 8, byteOrder := .littleEndian
        linear := ⟨0.5, 0⟩, bounds := { minimum := some 0, maximum := some 100 } }]

def tankSchema : Schema where
  version := none
  messages := [tank]
  sound := by decide

def tankCodec : Codec where
  message := tank
  layout := .ofPlan "Tank" false (tank.signals.map Frame.placing)

def checkedRecord : Record :=
  .ofList [("Level", .integer 100), ("Gear", .choice "Reverse"), ("Fill", .real 300)]

def uncheckedRecord : Record :=
  .ofList [("Level", .real 100), ("Gear", .choice "Reverse"), ("Fill", .integer 300)]

theorem warned_iff_saturates_tank :
    tankCodec.encode checkedRecord = .ok [0xff, 0x01, 0xc8] ∧
      (∃ event ∈ tankCodec.encodeEvents checkedRecord, event.WarnsOf "Tank" "Level") ∧
      (∃ event ∈ tankCodec.encodeEvents checkedRecord, event.WarnsOf "Tank" "Fill") ∧
      ¬ ∃ event ∈ tankCodec.encodeEvents checkedRecord, event.WarnsOf "Tank" "Gear" := by
  have encoded : tankCodec.encode checkedRecord = .ok [0xff, 0x01, 0xc8] := by decide +kernel
  have warned := (warned_iff_saturates tankCodec checkedRecord _ encoded).1
  refine ⟨encoded, (warned "Level").mpr ?_, (warned "Fill").mpr ?_, fun reported => ?_⟩
  · refine ⟨_, List.mem_cons_self, rfl, ?_, ?_⟩
    · exact .integer 100 rfl rfl rfl
    · exact @Signal.not_unchecked_of_integer _ _ 100 rfl rfl
  · refine ⟨_, .tail _ (.tail _ (.tail _ List.mem_cons_self)), rfl, ?_, ?_⟩
    · exact .number _ 300 rfl rfl (.bounds rfl)
    · rw [@Signal.unchecked_of_real_iff _ _ 300 rfl]
      decide +kernel
  · rcases (warned "Gear").mp reported with ⟨field, member, named, -, checked⟩
    exact checked (.choice "Reverse" (by rw [← Field.name, named]; rfl))

/-- Every signal of a record saturates, and nothing is reported. -/
theorem saturates_without_warning_tank :
    Codebook.plan tankSchema { strict := false } = .ok ⟨[tankCodec], []⟩ ∧
      tankCodec.encode uncheckedRecord = .ok [0xff, 0x01, 0xc8] ∧
      (∀ field ∈ tankCodec.fields, field.signal.Saturates uncheckedRecord) ∧
      tankCodec.encodeEvents uncheckedRecord = [] := by
  refine ⟨by rfl, by decide +kernel, ?_, by decide +kernel⟩
  have level : Signal.rounded tank.signals[0] 100 = some 100 := by decide +kernel
  have fill : (Signal.isInRange tank.signals[3] 300) = false := by decide +kernel
  intro field member
  rcases List.mem_cons.mp member with rfl | member
  · exact .number (.real 100) 100 rfl rfl (.bits 100 level rfl)
  rcases List.mem_cons.mp member with rfl | member
  · exact .initial 100 rfl rfl rfl
  rcases List.mem_cons.mp member with rfl | member
  · exact .choice "Reverse" 9 rfl rfl rfl
  · rw [List.mem_singleton.mp member]
    exact .number (.integer 300) 300 rfl rfl (.bounds fill)

end Codec

end CanCodec
