import CanCodec.Proofs.Choices

/-! # Truncated values

A choice is sent as the raw value that its name stands for, which need not be one that the
signal can carry. Every other value is sent within the signal's range. The bits of a signal
keep what fits in them. -/

namespace CanCodec

namespace Signal

theorem encodeChoice_ok_iff {signal : Signal} {name : String} {raw : Int} :
    signal.encodeChoice name = .ok raw ↔ signal.Denotes name raw := by
  rw [← choiceRaw?_eq_some_iff, encodeChoice]
  cases signal.choiceRaw? name <;> simp

end Signal

namespace Codec

/-- An encoded value is in range unless it is a choice that stands for a raw value out of range.
From a frame whose signals stand apart it is read back as what is left of it in the signal's
bits, which is the encoded value itself exactly if that is in range. -/
theorem encode_then_truncate (signal : Signal) (value : FieldValue) (raw : Int)
    (positive : 1 ≤ signal.length) (narrow : signal.length ≤ 64)
    (encoded : signal.encode value = .ok raw) :
    (signal.range.contains raw = true ↔ ∀ name, value = .choice name →
      ∀ chosen, signal.Denotes name chosen → signal.range.contains chosen = true) ∧
    (signal.wrap raw = raw ↔ signal.range.contains raw = true) ∧
    ∀ (message : Message) (packed strict : Bool) (codec : Codec) (record : Record)
      (data : Payload), plan message packed strict = .ok codec →
      (∀ other ∈ message.signals, other.length ≤ 64) →
      message.signals.Pairwise Signal.Apart →
      (message.signals.filter fun other => other.name = signal.name).getLast? = some signal →
      record.get? signal.name = some value → codec.encode record = .ok data →
      ∀ extra, ∃ values, codec.decodeRaw (data ++ extra) = .ok values ∧
        values.get? signal.name = some (signal.wrap raw) := by
  refine ⟨⟨fun contained name same chosen denotes => ?_, fun carried => ?_⟩,
    Signal.wrap_eq_iff positive narrow,
    fun message packed strict codec record data planned others apart last given sent extra => ?_⟩
  · rw [same] at encoded
    have chosenRaw : signal.encodeChoice name = .ok raw := mapError_ok_iff.mp encoded
    rwa [denotes.unique (Signal.encodeChoice_ok_iff.mp chosenRaw)]
  · rcases Signal.range_contains_encode_or_choice encoded with contained | ⟨name, same, chosen⟩
    · exact contained
    · exact carried name same raw (Signal.encodeChoice_ok_iff.mp chosen)
  · have isPlanned := Planned.of_plan planned others
    obtain rfl : codec.message = message := by rw [(plan_ok_iff.mp planned).2.2]
    have length := (isPlanned.bit_encode sent).1
    have sentOf : ∀ field ∈ codec.fields,
        (field.signal.rawOf record).toOption.map field.signal.wrap = some (field.read data) := by
      intro field member
      rcases rawOf_of_encode sent member with ⟨asked, computed⟩
      rw [isPlanned.read_encode_eq_wrap apart sent member computed, computed]
      rfl
    rcases isPlanned.decodeRaw_append (Nat.le_of_eq length.symm)
      (fun other => (other.rawOf record).toOption.map other.wrap) sentOf extra with
      ⟨values, decoded, named⟩
    refine ⟨values, decoded, ?_⟩
    rw [named, last, Option.bind_some, Signal.rawOf, given]
    simp only [encoded]
    rfl

def gear : Signal :=
  { name := "Gear", start := 0, length := 2, byteOrder := .littleEndian
    choices := some ⟨[(1, "First"), (9, "Reverse")], by simp [Ascending]⟩ }

def trim : Signal :=
  { name := "Trim", start := 0, length := 5, byteOrder := .bigEndian, signed := true }

def selector : Message where
  frameId := 0x63
  name := "Selector"
  length := 1
  signals := [gear, trim]

def selectorCodec : Codec where
  message := selector
  layout := .ofPlan "Selector" false (selector.signals.map Frame.placing)

def selectorRecord : Record := .ofList [("Gear", .choice "Reverse"), ("Trim", .integer (-100))]

/-- A reverse gear is read back as the first one, a saturated trim as it was encoded. -/
theorem encode_then_truncate_selector :
    gear.encode (.choice "Reverse") = .ok 9 ∧ trim.encode (.integer (-100)) = .ok (-16) ∧
      gear.range.contains 9 = false ∧ trim.range.contains (-16) = true ∧
      selectorCodec.encode selectorRecord = .ok [0x81] ∧
      ∃ values, selectorCodec.decodeRaw [0x81] = .ok values ∧
        values.get? "Gear" = some 1 ∧ values.get? "Trim" = some (-16) := by
  have planned : plan selector false true = .ok selectorCodec := by rfl
  have sent : selectorCodec.encode selectorRecord = .ok [0x81] := by rfl
  have apart := (plan_ok_iff.mp planned).2.1 rfl
  have gearEncoded : gear.encode (.choice "Reverse") = .ok 9 := by rfl
  have trimEncoded : trim.encode (.integer (-100)) = .ok (-16) := by rfl
  have gearSent := encode_then_truncate gear (.choice "Reverse") 9 (by decide) (by decide)
    gearEncoded
  have trimSent := encode_then_truncate trim (.integer (-100)) (-16) (by decide) (by decide)
    trimEncoded
  have trimContained := trimSent.1.mpr fun name same => by cases same
  rcases gearSent.2.2 selector false true selectorCodec selectorRecord [0x81] planned
    (by decide) apart rfl rfl sent [] with ⟨values, decoded, gearRead⟩
  rcases trimSent.2.2 selector false true selectorCodec selectorRecord [0x81] planned
    (by decide) apart rfl rfl sent [] with ⟨others, alsoDecoded, trimRead⟩
  have same := Except.ok.inj (decoded.symm.trans alsoDecoded)
  rw [← same, trimSent.2.1.mpr trimContained] at trimRead
  exact ⟨gearEncoded, trimEncoded, rfl, trimContained, sent, values, decoded, gearRead, trimRead⟩

/-- A choice out of range is encoded as it is. -/
theorem not_range_contains_encode :
    ¬ ∀ (signal : Signal) (value : FieldValue) (raw : Int), 1 ≤ signal.length →
      signal.length ≤ 64 → signal.encode value = .ok raw →
        signal.range.contains raw = true := by
  intro contained
  have reverse := contained gear (.choice "Reverse") 9 (by decide) (by decide) rfl
  cases reverse

end Codec

end CanCodec
