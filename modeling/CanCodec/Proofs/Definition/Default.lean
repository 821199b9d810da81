import CanCodec.Definition
import CanCodec.Proofs.C.Arithmetic
import CanCodec.Proofs.Choices
import CanCodec.Proofs.Numeral
import CanCodec.Proofs.Saturation

/-! # Defaults of definitions

A definition declares each field with the initial value of its signal as it stands in the
catalog. A record that leaves the signal unset is sent with that value clamped to the
signal's range. The two agree where the initial value is in range. -/

namespace CanCodec

/-! ## Representable values -/

theorem Field.primitive_contains {field : Field} {raw : Int} (positive : 0 < field.signal.length)
    (narrow : field.signal.length ≤ 64) (contained : field.signal.range.contains raw = true) :
    (RawRange.ofBits field.primitive.bits field.primitive.signed).contains raw = true :=
  RawRange.contains_ofBits_of_le positive (Primitive.le_bits_ofBits narrow _)
    field.primitive.bits_le contained

namespace Definition

/-! ## Declared fields -/

structure Declaration where
  type : String
  name : String
  default : Option String
  deriving DecidableEq

def Line.declaration? : Line → Option Declaration
  | .field type name default => some ⟨type, name, default⟩
  | .blank => none
  | .note _ => none
  | .constant _ _ _ => none

def declaration (field : Field) : Declaration where
  type := fieldType field
  name := fieldName field.signal
  default := defaultText field

theorem declarations_noteLines (text : Option String) :
    (noteLines text).filterMap Line.declaration? = [] := by
  simp [noteLines, List.filterMap_eq_nil_iff, Line.declaration?]

theorem declarations_boundsLines (bounds : Bounds Float) :
    (boundsLines bounds).filterMap Line.declaration? = [] := by
  rcases bounds with ⟨_ | _, _ | _⟩ <;> rfl

theorem declarations_constantLines (field : Field) :
    (constantLines field).filterMap Line.declaration? = [] := by
  rw [constantLines]
  cases field.signal.choices <;> simp [List.filterMap_eq_nil_iff, Line.declaration?]

theorem declarations_fieldLines (field : Field) :
    (fieldLines field).filterMap Line.declaration? = [declaration field] := by
  simp only [fieldLines, List.filterMap_append, declarations_noteLines, declarations_boundsLines,
    declarations_constantLines]
  cases field.signal.unit <;> rfl

theorem declarations_headLines (message : Message) :
    (headLines message).filterMap Line.declaration? = [] := by
  simp only [headLines, List.filterMap_append, declarations_noteLines]
  cases message.cycleTime <;> rfl

theorem declarations_lines (codec : Codec) :
    (lines codec).filterMap Line.declaration? = codec.fields.map declaration := by
  rw [lines, List.filterMap_append, declarations_headLines, List.nil_append,
    List.filterMap_flatMap]
  simp only [declarations_fieldLines, List.map_eq_flatMap]

/-! ## Defaults and sent values -/

/-- The default of a field that is declared as an integer, whose signal has the value
`initial` in the catalog and is sent as `sent` when it is unset. -/
structure IntegerDefault (field : Field) (initial sent : Int) : Prop where
  type : fieldType field = field.primitive.msgName
  default : defaultText field = some (toString initial)
  sent_iff : defaultText field = some (toString sent) ↔
    field.signal.range.contains initial = true
  fits : field.signal.range.contains initial = true →
    (RawRange.ofBits field.primitive.bits field.primitive.signed).contains initial = true

structure PhysicalDefault (field : Field) (initial sent : Int) : Prop where
  type : fieldType field = "float64"
  default : defaultText field =
    some (FloatStyle.literal.write (field.signal.toPhysical initial))
  presented : field.signal.present sent = .real (field.signal.toPhysical sent)
  agrees : field.signal.range.contains initial = true →
    defaultText field = some (FloatStyle.literal.write (field.signal.toPhysical sent))

variable {field : Field} {initial : Int}

theorem integerDefault (positive : 0 < field.signal.length) (narrow : field.signal.length ≤ 64)
    (stored : field.storageClass ≠ .physical) (declared : field.signal.initial = some initial) :
    IntegerDefault field initial (field.signal.range.clamp initial) := by
  have default : defaultText field = some (toString initial) := by
    rw [defaultText, declared]
    cases kind : field.storageClass <;> first | rfl | exact absurd kind stored
  refine ⟨?_, default, ?_, Field.primitive_contains positive narrow⟩
  · rw [fieldType]
    cases kind : field.storageClass <;> first | rfl | exact absurd kind stored
  · rw [default, Option.some.injEq, Text.toString_inj, eq_comm, Signal.range_clamp_eq_iff]

theorem choiceName?_of_physical {signal : Signal} (physical : StorageClass.ofSignal signal = .physical)
    (raw : Int) : signal.choiceName? raw = none ∧ signal.isUnscaled = false := by
  rw [StorageClass.ofSignal] at physical
  split at physical
  next => cases physical
  next noChoices =>
    split at physical
    next => cases physical
    next scaled =>
      refine ⟨?_, Bool.eq_false_iff.mpr scaled⟩
      cases declared : signal.choices with
      | none => simp [Signal.choiceName?, declared]
      | some choices =>
          rcases choices with ⟨entries, ascending⟩
          have empty : entries = [] := by simpa [declared, AscendingMap.isEmpty] using noChoices
          simp [Signal.choiceName?, declared, AscendingMap.get?, empty]

theorem physicalDefault (stored : field.storageClass = .physical)
    (declared : field.signal.initial = some initial) :
    PhysicalDefault field initial (field.signal.range.clamp initial) := by
  have default : defaultText field =
      some (FloatStyle.literal.write (field.signal.toPhysical initial)) := by
    rw [defaultText, declared, stored]
    rfl
  refine ⟨by rw [fieldType, stored], default, ?_, fun contained => ?_⟩
  · rcases choiceName?_of_physical stored (field.signal.range.clamp initial) with
      ⟨unnamed, scaled⟩
    simp [Signal.present, unnamed, scaled]
  · rw [RawRange.clamp_of_contains contained, default]

end Definition

/-! ## Unset signals -/

theorem Signal.rawOf_empty (signal : Signal) : signal.rawOf .empty = .ok signal.initialRaw := rfl

namespace Definition

/-- A strict codec sends a record that sets nothing, and what it sends for a signal with an
initial value is that value clamped to the signal's range. The definition declares one field
for each signal. The default of an integer field is what is sent exactly where the initial
value is in range, and then the declared type holds it; the default of a physical field is
then the physical value that decoding presents. -/
theorem default_is_sent_iff_in_range (schema : Schema) (options : Options) (codebook : Codebook)
    (codec : Codec) (strict : options.strict = true)
    (planned : Codebook.plan schema options = .ok codebook) (member : codec ∈ codebook.codecs) :
    (lines codec).filterMap Line.declaration? = codec.fields.map declaration ∧
    codec.fields.map Field.signal = codec.message.signals ∧
    ∃ data, codec.encode .empty = .ok data ∧
      codec.decode data = .ok (.ofList (codec.fields.map fun field =>
        (field.name, field.signal.present (field.read data)))) ∧
      ∀ field ∈ codec.fields, ∀ initial, field.signal.initial = some initial →
        field.read data = field.signal.range.clamp initial ∧
        (field.storageClass ≠ .physical → IntegerDefault field initial (field.read data)) ∧
        (field.storageClass = .physical → PhysicalDefault field initial (field.read data)) := by
  rcases Codebook.of_mem_plan_strict strict planned member with ⟨_, isPlanned, apart, _⟩
  rcases Codec.exists_encode_of_rawOf fun field _ => ⟨_, field.signal.rawOf_empty⟩ with
    ⟨data, encoded⟩
  refine ⟨declarations_lines codec, isPlanned.signals, data, encoded,
    Codec.decode_of_length (Nat.le_of_eq (isPlanned.bit_encode encoded).1.symm), ?_⟩
  intro field fieldMember initial declared
  have placed := isPlanned.placed fieldMember
  have sent : field.read data = field.signal.range.clamp initial := by
    rw [isPlanned.read_encode apart encoded fieldMember field.signal.rawOf_empty
      (field.signal.range_contains_clamp _), Signal.initialRaw, declared, Option.getD_some]
  rw [sent]
  exact ⟨rfl, fun stored => integerDefault placed.fits.1 placed.narrow stored declared,
    fun stored => physicalDefault stored declared⟩

def tank : Message where
  frameId := 0x52
  name := "Tank"
  length := 3
  signals :=
    [{ name := "Count", start := 0, length := 8, byteOrder := .littleEndian
       initial := some 300 },
      { name := "Trim", start := 8, length := 4, byteOrder := .bigEndian, signed := true
        initial := some (-3) },
      { name := "Level", start := 16, length := 8, byteOrder := .littleEndian
        linear := ⟨0.5, 0⟩, initial := some 3 }]

def tankSchema : Schema where
  version := none
  messages := [tank]
  sound := by decide

def tankCodec : Codec where
  message := tank
  layout := .ofPlan "Tank" false (tank.signals.map Frame.placing)

theorem default_is_sent_iff_in_range_tank :
    Codebook.plan tankSchema {} = .ok ⟨[tankCodec], []⟩ ∧
      ∃ data, tankCodec.encode .empty = .ok data ∧
        tankCodec.fields.map (fun field => field.read data) = [255, -3, 3] ∧
        ∃ count trim level, tankCodec.fields = [count, trim, level] ∧
          defaultText count ≠ some (toString (count.read data)) ∧
          defaultText trim = some (toString (trim.read data)) ∧
          defaultText level =
            some (FloatStyle.literal.write (level.signal.toPhysical (level.read data))) := by
  have planned : Codebook.plan tankSchema {} = .ok ⟨[tankCodec], []⟩ := by rfl
  rcases default_is_sent_iff_in_range tankSchema {} ⟨[tankCodec], []⟩ tankCodec rfl planned
    List.mem_cons_self with ⟨_, _, data, encoded, _, defaults⟩
  have count := defaults _ List.mem_cons_self 300 rfl
  have trim := defaults _ (.tail _ List.mem_cons_self) (-3) rfl
  have level := defaults _ (.tail _ (.tail _ List.mem_cons_self)) 3 rfl
  refine ⟨planned, data, encoded, ?_, _, _, _, rfl, ?_, ?_, ?_⟩
  · exact congrArg₂ List.cons count.1 (congrArg₂ List.cons trim.1
      (congrArg₂ List.cons level.1 rfl))
  · exact fun same => absurd ((count.2.1 (by decide)).sent_iff.mp same) (by decide)
  · exact (trim.2.1 (by decide)).sent_iff.mpr (by decide)
  · exact (level.2.2 (by decide)).agrees (by decide)

/-- The counter is sent as 255, but its default is 300, which eight bits cannot hold. -/
theorem default_not_sent_tank :
    Codebook.plan tankSchema {} = .ok ⟨[tankCodec], []⟩ ∧
      tankCodec.encode .empty = .ok [255, 0xd0, 3] ∧
      ∃ count others, tankCodec.fields = count :: others ∧ count.storageClass = .raw ∧
        count.read [255, 0xd0, 3] = 255 ∧
        declaration count = ⟨"uint8", "count", some "300"⟩ ∧
        (RawRange.ofBits count.primitive.bits count.primitive.signed).contains 300 = false :=
  ⟨by rfl, by rfl, _, _, rfl, by decide, by decide, by decide, by decide⟩

end Definition

end CanCodec
