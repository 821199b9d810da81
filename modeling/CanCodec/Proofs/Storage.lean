import CanCodec.Artifact
import CanCodec.Proofs.Codebook.Partition

/-! # What does not depend on the storage of records

Two plans of one catalog, one with records of whole integers and one with records packed bit by
bit, are compared through codecs without any storage: a codec sends, receives and describes
records as its form without storage does, and both plans have the same form. -/

namespace CanCodec

/-! ## Codecs without storage -/

def Field.wire (field : Field) : Field := { field with storageBits := 0, offset := 0 }

def Codec.wire (codec : Codec) : Codec where
  message := codec.message
  layout :=
    { codec.layout with
      fields := codec.layout.fields.map Field.wire
      sizeBytes := 0
      packed := false }

theorem RecordLayout.map_wire_layFields (first second : Bool) (firstCursor secondCursor index : Nat)
    (placed : List Frame.Placed) :
    (layFields first firstCursor index placed).map Field.wire =
      (layFields second secondCursor index placed).map Field.wire := by
  induction placed generalizing firstCursor secondCursor index with
  | nil => rfl
  | cons head rest induction =>
      rw [layFields, layFields, List.map_cons, List.map_cons]
      exact congrArg₂ List.cons rfl (induction _ _ _)

theorem Codec.wire_ofMessage (first second : Bool) (message : Message) :
    (ofMessage first message).wire = (ofMessage second message).wire := by
  simp only [wire, ofMessage, RecordLayout.ofPlan,
    RecordLayout.map_wire_layFields first second 0 0 0]

/-! ## Sending and receiving -/

namespace Codec

variable (codec : Codec)

theorem rawValues_wire (record : Record) :
    codec.wire.rawValues record = codec.rawValues record := by
  simp only [rawValues, fields, wire, List.mapM_map]
  rfl

theorem encode_wire (record : Record) : codec.wire.encode record = codec.encode record := by
  rw [encode, encode, rawValues_wire]
  simp only [fields, wire, List.zip_map_left, List.foldl_map]
  rfl

theorem fieldEvents_wire (message : String) (record : Record) (fields : List Field) :
    fieldEvents message record (fields.map Field.wire) = fieldEvents message record fields := by
  induction fields with
  | nil => rfl
  | cons field rest induction =>
      rw [List.map_cons, fieldEvents, fieldEvents, induction]
      rfl

theorem encodeEvents_wire (record : Record) :
    codec.wire.encodeEvents record = codec.encodeEvents record :=
  fieldEvents_wire codec.name record codec.fields

theorem decodeRaw_wire (payload : Payload) :
    codec.wire.decodeRaw payload = codec.decodeRaw payload := by
  simp only [decodeRaw, fields, wire, List.map_map]
  rfl

theorem decode_wire (payload : Payload) : codec.wire.decode payload = codec.decode payload := by
  simp only [decode, fields, wire, List.map_map]
  rfl

end Codec

theorem Definition.text_wire (codec : Codec) : text codec.wire = text codec := by
  simp only [text, lines, Codec.wire, Codec.fields, List.flatMap_map]
  rfl

/-! ## Two plans -/

/-- Two codecs that no sender and no receiver tells apart. -/
structure Codec.SameWire (first second : Codec) : Prop where
  message : first.message = second.message
  encode : ∀ record, first.encode record = second.encode record
  encodeEvents : ∀ record, first.encodeEvents record = second.encodeEvents record
  decode : ∀ payload, first.decode payload = second.decode payload
  decodeRaw : ∀ payload, first.decodeRaw payload = second.decodeRaw payload

theorem Codec.SameWire.of_wire {first second : Codec} (same : first.wire = second.wire) :
    first.SameWire second where
  message := (congrArg Codec.message same : first.wire.message = second.wire.message)
  encode record := by rw [← first.encode_wire, same, second.encode_wire]
  encodeEvents record := by rw [← first.encodeEvents_wire, same, second.encodeEvents_wire]
  decode payload := by rw [← first.decode_wire, same, second.decode_wire]
  decodeRaw payload := by rw [← first.decodeRaw_wire, same, second.decodeRaw_wire]

namespace Codebook

theorem planAll_error_of_error {messages : List Message} {first second : Bool}
    {fault : LayoutFault} (failed : planAll first messages = .error fault) :
    planAll second messages = .error fault :=
  (mapM_error_congr fun _ _ => Codec.plan_error_iff.trans Codec.plan_error_iff.symm).mp failed

theorem plan_error_of_error {schema : Schema} {options : Options} {first second : Bool}
    {fault : Fault} (failed : plan schema { options with packed := first } = .error fault) :
    plan schema { options with packed := second } = .error fault := by
  rw [plan] at failed ⊢
  cases strict : options.strict with
  | false => simp [strict] at failed
  | true =>
      simp only [strict, if_true, planStrict] at failed ⊢
      cases checked : schema.choiceViolation? with
      | some violation =>
          rw [checked] at failed
          exact failed
      | none =>
          simp only [checked] at failed ⊢
          cases all : planAll first schema.messages with
          | ok codecs => simp [all] at failed
          | error reported =>
              simp only [all] at failed
              simp only [planAll_error_of_error all]
              exact failed

/-- Two plans with different storage fail alike, or they have codecs for the same messages and
leave out the others for the same reasons. -/
theorem plan_packed (schema : Schema) (options : Options) (first second : Bool) :
    (∃ fault, plan schema { options with packed := first } = .error fault ∧
        plan schema { options with packed := second } = .error fault) ∨
      ∃ (messages : List Message) (skipped : List LayoutFault),
        plan schema { options with packed := first } =
            .ok ⟨messages.map (Codec.ofMessage first), skipped⟩ ∧
          plan schema { options with packed := second } =
            .ok ⟨messages.map (Codec.ofMessage second), skipped⟩ := by
  cases planned : plan schema { options with packed := first } with
  | error fault => exact .inl ⟨fault, rfl, plan_error_of_error planned⟩
  | ok codebook =>
      cases otherPlanned : plan schema { options with packed := second } with
      | error fault =>
          have failed : plan schema { options with packed := first } = .error fault :=
            plan_error_of_error otherPlanned
          rw [failed] at planned
          cases planned
      | ok other =>
          have taken : other.codecs = _ := codecs_eq_map otherPlanned
          have skipped : other.skipped = codebook.skipped :=
            (divides_of_plan otherPlanned).skipped.trans (divides_of_plan planned).skipped.symm
          refine .inr ⟨schema.messages.filter fun message => message.InFrame, codebook.skipped,
            ?_, ?_⟩
          · rw [← codecs_eq_map planned]
          · rw [← taken, ← skipped]

end Codebook

end CanCodec
