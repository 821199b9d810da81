import Mathlib.Algebra.Group.Int.Defs
import Mathlib.Algebra.Group.Nat.Defs
import Mathlib.Data.Int.Order.Basic
import Mathlib.Data.List.Forall2
import Mathlib.Order.RelClasses
import CanCodec.Proofs.AscendingMap
import CanCodec.Proofs.Catalog.Reader
import CanCodec.Proofs.Numeral
import CanCodec.Proofs.Schema

/-! # The format of catalogs

A schema is written with each field under its own key and without the fields that it does not
have. The reader takes every such writing for the schema itself, whatever the order of the
members, the spelling of the byte orders and the order of the choices. -/

namespace CanCodec

/-! ## Spellings of byte orders -/

def ByteOrder.aliases : ByteOrder → List String
  | .littleEndian => ["little_endian", "intel", "little", "le"]
  | .bigEndian => ["big_endian", "motorola", "big", "be"]

def ByteOrder.Spelling (order : ByteOrder) (text : String) : Prop :=
  ∃ name ∈ order.aliases,
    List.Forall₂ (fun written letter => written = letter ∨ written = letter.toUpper)
      text.toList name.toList

theorem ByteOrder.spelling_name (order : ByteOrder) : order.Spelling order.name := by
  refine ⟨order.name, by cases order <;> decide, ?_⟩
  exact List.forall₂_same.mpr fun _ _ => .inl rfl

theorem map_toLower_of_spelled {text name : List Char}
    (plain : ∀ letter ∈ name, letter.toLower = letter ∧ letter.toUpper.toLower = letter)
    (spelled : List.Forall₂ (fun written letter => written = letter ∨ written = letter.toUpper)
      text name) : text.map Char.toLower = name := by
  induction spelled with
  | nil => rfl
  | cons same _ induction =>
      rw [List.forall_mem_cons] at plain
      rw [List.map_cons, induction plain.2]
      rcases same with rfl | rfl
      · rw [plain.1.1]
      · rw [plain.1.2]

namespace Catalog

theorem byteOrderOfName_of_spelling {order : ByteOrder} {text : String}
    (spelling : order.Spelling text) : byteOrderOfName text = .ok order := by
  rcases spelling with ⟨name, member, spelled⟩
  have plain : order.aliases.all (fun name => name.toList.all fun letter =>
      letter.toLower == letter && letter.toUpper.toLower == letter) = true := by
    cases order <;> decide
  simp only [List.all_eq_true, Bool.and_eq_true, beq_iff_eq] at plain
  have folded : text.toLower = name := by
    rw [← String.toList_inj]
    exact String.toList_map.trans (map_toLower_of_spelled (plain name member) spelled)
  rw [byteOrderOfName, folded]
  cases order with
  | littleEndian => exact if_pos member
  | bigEndian =>
      have other : ∀ name ∈ ByteOrder.bigEndian.aliases,
          name ∉ ByteOrder.littleEndian.aliases := by decide
      exact (if_neg (other name member)).trans (if_pos member)

/-! ## Writings of a schema -/

/-- A finite number is written as itself, or as a whole number of the same value. -/
inductive Denotes (number : Float) : Json → Prop
  | real (finite : number.isFinite = true) : Denotes number (.real number)
  | whole {value : Int} (same : Float.ofInt value = number) : Denotes number (.whole value)

/-- Choices are written under the decimal text of their raw values, in any order. -/
inductive ChoicesWritten (choices : Choices) : Json → Prop
  | object {pairs : List (Int × String)} (same : pairs.Perm choices.entries) :
      ChoicesWritten choices
        (.object (pairs.map fun pair => (toString pair.1, .text pair.2)))

structure SignalWritten (signal : Signal) (entries : Entries) : Prop where
  name : Json.member? "name" entries = some (.text signal.name)
  start : Json.member? "start" entries = some (.whole signal.start)
  length : Json.member? "length" entries = some (.whole signal.length)
  byteOrder : ∃ text, Json.member? "byte_order" entries = some (.text text) ∧
    signal.byteOrder.Spelling text
  signed : Json.member? "is_signed" entries = some (.bool signal.signed)
  scale : ∃ value, Json.member? "scale" entries = some value ∧ Denotes signal.linear.scale value
  offset : ∃ value, Json.member? "offset" entries = some value ∧
    Denotes signal.linear.offset value
  minimum : Option.Rel Denotes signal.bounds.minimum (Json.member? "minimum" entries)
  maximum : Option.Rel Denotes signal.bounds.maximum (Json.member? "maximum" entries)
  initial : Json.member? "initial" entries = signal.initial.map .whole
  unit : Json.member? "unit" entries = signal.unit.map .text
  comment : Json.member? "comment" entries = signal.comment.map .text
  choices : Option.Rel ChoicesWritten signal.choices (Json.member? "choices" entries)

structure MessageWritten (message : Message) (entries : Entries) : Prop where
  name : Json.member? "name" entries = some (.text message.name)
  frameId : Json.member? "frame_id" entries = some (.whole message.frameId)
  length : Json.member? "length" entries = some (.whole message.length)
  extended : Json.member? "is_extended_frame" entries = some (.bool message.extended)
  cycleTime : Json.member? "cycle_time" entries =
    message.cycleTime.map fun period : Nat => .whole period
  senders : Json.member? "senders" entries = some (.array (message.senders.map .text))
  comment : Json.member? "comment" entries = message.comment.map .text
  signals : ∃ elements, Json.member? "signals" entries = some (.array elements) ∧
    List.Forall₂ (fun signal element => ∃ entries, element = .object entries ∧
      SignalWritten signal entries) message.signals elements

structure Written (schema : Schema) (entries : Entries) : Prop where
  version : Json.member? "version" entries = schema.version.map .text
  messages : ∃ elements, Json.member? "messages" entries = some (.array elements) ∧
    List.Forall₂ (fun message element => ∃ entries, element = .object entries ∧
      MessageWritten message entries) schema.messages elements

/-! ## What can be written -/

/-- The values of a signal that the format has room for: a start of 32 bits, finite numbers, an
initial value of 64 bits and choices of 128 with a sign, and texts that are not empty. -/
structure SignalExpressible (signal : Signal) : Prop where
  start : signal.start < 2 ^ 32
  scale : signal.linear.scale.isFinite = true
  offset : signal.linear.offset.isFinite = true
  minimum : ∀ bound ∈ signal.bounds.minimum, bound.isFinite = true
  maximum : ∀ bound ∈ signal.bounds.maximum, bound.isFinite = true
  initial : ∀ raw ∈ signal.initial, -2 ^ 63 ≤ raw ∧ raw < 2 ^ 63
  unit : ∀ text ∈ signal.unit, text ≠ ""
  comment : ∀ text ∈ signal.comment, text ≠ ""
  choices : ∀ choices ∈ signal.choices, ∀ entry ∈ choices.entries,
    -2 ^ 127 ≤ entry.1 ∧ entry.1 < 2 ^ 127

structure MessageExpressible (message : Message) : Prop where
  cycleTime : ∀ period ∈ message.cycleTime, period < 2 ^ 32
  comment : ∀ text ∈ message.comment, text ≠ ""
  signals : ∀ signal ∈ message.signals, SignalExpressible signal

def Expressible (schema : Schema) : Prop :=
  ∀ message ∈ schema.messages, MessageExpressible message

/-! ## Reading a writing -/

theorem Denotes.real?_eq {number : Float} {value : Json} (denotes : Denotes number value) :
    value.real? = some number := by
  cases denotes with
  | real => rfl
  | whole same => exact congrArg some same

theorem realMember?_of_rel {number : Option Float} {key : String} {entries : Entries}
    (written : Option.Rel Denotes number (Json.member? key entries)) :
    realMember? entries key = number := by
  rw [realMember?]
  generalize Json.member? key entries = found at written ⊢
  cases written with
  | some denotes => exact denotes.real?_eq
  | none => rfl

theorem filledMember?_of_text {text : Option String} {key : String} {entries : Entries}
    (written : Json.member? key entries = text.map .text) (filled : ∀ own ∈ text, own ≠ "") :
    filledMember? entries key = text := by
  rw [filledMember?, textMember?, written]
  cases text with
  | none => rfl
  | some own =>
      have kept : (!own.isEmpty) = true := by
        rw [Bool.not_eq_true', ← Bool.not_eq_true, String.isEmpty_iff]
        exact filled own rfl
      exact if_pos kept

theorem readChoiceEntries_cons (signal : String) (choices : Choices) (key name : String)
    (rest : Entries) :
    readChoiceEntries signal choices ((key, .text name) :: rest) =
      match Text.readInteger 10 choiceLimit (Text.trim key.toList) with
      | .error problem => .error (.choiceKey signal key problem)
      | .ok raw => readChoiceEntries signal (choices.insert raw name) rest := rfl

theorem readChoiceEntries_eq (signal : String) {pairs : List (Int × String)}
    (fit : ∀ pair ∈ pairs, -2 ^ 127 ≤ pair.1 ∧ pair.1 < 2 ^ 127) (choices : Choices) :
    readChoiceEntries signal choices
        (pairs.map fun pair => (toString pair.1, .text pair.2)) =
      .ok (pairs.foldl (fun choices pair => choices.insert pair.1 pair.2) choices) := by
  induction pairs generalizing choices with
  | nil => rfl
  | cons pair rest induction =>
      rw [List.forall_mem_cons] at fit
      have limit : (choiceLimit : Int) = 2 ^ 127 - 1 := rfl
      have read : Text.readInteger 10 choiceLimit (Text.trim (toString pair.1).toList) =
          .ok pair.1 := Text.readInteger_toString (by omega) (by omega)
      rw [List.map_cons, readChoiceEntries_cons, read]
      exact induction fit.2 _

theorem readChoices_of_rel {signal : String} {choices : Option Choices} {entries : Entries}
    (written : Option.Rel ChoicesWritten choices (Json.member? "choices" entries))
    (fit : ∀ own ∈ choices, ∀ entry ∈ own.entries, -2 ^ 127 ≤ entry.1 ∧ entry.1 < 2 ^ 127) :
    readChoices signal false entries = .ok choices := by
  rw [readChoices]
  generalize Json.member? "choices" entries = found at written ⊢
  cases written with
  | none => rfl
  | @some own value form =>
      cases form with
      | @object pairs same =>
          have fits := fun pair member => fit own rfl pair (same.mem_iff.mp member)
          have read := readChoiceEntries_eq signal fits .empty
          rw [show pairs.foldl _ _ = own from AscendingMap.ofList_eq_of_perm same] at read
          simp only [Json.object?, require, bind, Except.bind, read]
          rfl

theorem SignalWritten.taken {signal : Signal} {entries : Entries}
    (written : SignalWritten signal entries) (expressible : SignalExpressible signal)
    (length : signal.length < 2 ^ 32) : SignalTaken false entries signal where
  name := by rw [textMember?, written.name]; rfl
  start := ⟨naturalMember?_eq_some_iff.mpr written.start, expressible.start⟩
  length := ⟨naturalMember?_eq_some_iff.mpr written.length, length⟩
  byteOrder := by
    rcases written.byteOrder with ⟨text, held, spelling⟩
    rw [readByteOrder, held]
    exact byteOrderOfName_of_spelling spelling
  choices := readChoices_of_rel written.choices expressible.choices
  signed := by rw [boolMember, written.signed]; rfl
  scale := by
    rcases written.scale with ⟨value, held, denotes⟩
    rw [realMember?, held, Option.bind_some, denotes.real?_eq, Option.getD_some]
  offset := by
    rcases written.offset with ⟨value, held, denotes⟩
    rw [realMember?, held, Option.bind_some, denotes.real?_eq, Option.getD_some]
  minimum := realMember?_of_rel written.minimum
  maximum := realMember?_of_rel written.maximum
  initial := by
    rw [written.initial]
    cases own : signal.initial with
    | none => rfl
    | some raw => exact if_pos (expressible.initial raw own)
  unit := filledMember?_of_text written.unit expressible.unit
  comment := filledMember?_of_text written.comment expressible.comment

theorem MessageWritten.taken {message : Message} {entries : Entries}
    (written : MessageWritten message entries) (expressible : MessageExpressible message)
    (frameId : message.frameId < 2 ^ 32)
    (fits : ∀ signal ∈ message.signals, SignalExpressible signal ∧ signal.length < 2 ^ 32) :
    MessageTaken false entries message where
  name := by rw [textMember?, written.name]; rfl
  frameId := ⟨naturalMember?_eq_some_iff.mpr written.frameId, frameId⟩
  length := naturalMember?_eq_some_iff.mpr written.length
  signals := by
    rcases written.signals with ⟨elements, held, signals⟩
    refine ⟨elements, by rw [signalElements, held]; rfl, .flip ?_⟩
    have fitting := (List.forall₂_and_left _ _).mpr ⟨fits, signals⟩
    refine fitting.imp fun signal element => ?_
    rintro ⟨⟨own, length⟩, entries, same, form⟩
    exact ⟨entries, same, form.taken own length⟩
  cycleTime := by
    have held := written.cycleTime
    rw [readCycleTime]
    cases own : message.cycleTime with
    | none => rw [naturalMember?, held, own]; rfl
    | some period =>
        rw [own] at held
        rw [naturalMember?_eq_some_iff.mpr held]
        exact map_ok_iff.mpr ⟨period,
          require32_ok_iff.mpr ⟨rfl, expressible.cycleTime period own⟩, rfl⟩
  extended := by rw [boolMember, written.extended]; rfl
  comment := filledMember?_of_text written.comment expressible.comment
  senders := by
    rw [readSenders, written.senders]
    simp [Json.array?, List.filterMap_map, Function.comp_def, Json.text?]

theorem Written.taken {schema : Schema} {entries : Entries} (written : Written schema entries)
    (expressible : Expressible schema) : ofObject false entries = .ok schema := by
  have fits : ∀ message ∈ schema.messages, MessageExpressible message ∧
      message.frameId < 2 ^ 32 ∧ ∀ signal ∈ message.signals, signal.length < 2 ^ 32 := by
    intro message member
    have bounds := schema.message_bounds member
    rw [Message.maxExtendedId] at bounds
    refine ⟨expressible message member, by omega, fun signal signalMember => ?_⟩
    have short := schema.signal_length_bounds member signalMember
    omega
  rcases written.messages with ⟨elements, held, messages⟩
  refine ofObject_ok_iff.mpr ⟨?_, elements, held, .flip ?_⟩
  · rw [textMember?, written.version]
    cases schema.version <;> rfl
  · refine ((List.forall₂_and_left _ _).mpr ⟨fits, messages⟩).imp fun message element => ?_
    rintro ⟨⟨own, frameId, lengths⟩, entries, same, form⟩
    exact ⟨entries, same, form.taken own frameId
      fun signal member => ⟨own.signals signal member, lengths signal member⟩⟩

/-! ## Writing -/

def present (members : List (String × Option Json)) : Entries :=
  members.filterMap fun member => member.2.map fun value => (member.1, value)

def writeChoices (choices : Choices) : Json :=
  .object (choices.entries.map fun entry => (toString entry.1, .text entry.2))

def signalMembers (signal : Signal) : List (String × Option Json) :=
  [("name", some (.text signal.name)), ("start", some (.whole signal.start)),
    ("length", some (.whole signal.length)),
    ("byte_order", some (.text signal.byteOrder.name)),
    ("is_signed", some (.bool signal.signed)), ("scale", some (.real signal.linear.scale)),
    ("offset", some (.real signal.linear.offset)),
    ("minimum", signal.bounds.minimum.map .real), ("maximum", signal.bounds.maximum.map .real),
    ("unit", signal.unit.map .text), ("initial", signal.initial.map .whole),
    ("comment", signal.comment.map .text), ("choices", signal.choices.map writeChoices)]

def messageMembers (message : Message) : List (String × Option Json) :=
  [("name", some (.text message.name)), ("frame_id", some (.whole message.frameId)),
    ("length", some (.whole message.length)),
    ("is_extended_frame", some (.bool message.extended)),
    ("cycle_time", message.cycleTime.map fun period : Nat => .whole period),
    ("senders", some (.array (message.senders.map .text))),
    ("comment", message.comment.map .text),
    ("signals", some (.array (message.signals.map fun signal =>
      .object (present (signalMembers signal)))))]

def schemaMembers (schema : Schema) : List (String × Option Json) :=
  [("version", schema.version.map .text),
    ("messages", some (.array (schema.messages.map fun message =>
      .object (present (messageMembers message)))))]

def write (schema : Schema) : Entries := present (schemaMembers schema)

theorem member?_present_of_notMem {key : String} {members : List (String × Option Json)}
    (absent : key ∉ members.map Prod.fst) : Json.member? key (present members) = none := by
  induction members with
  | nil => rfl
  | cons member rest induction =>
      rw [List.map_cons, List.mem_cons, not_or] at absent
      rcases member with ⟨own, _ | value⟩
      · exact induction absent.2
      · exact (if_neg (Ne.symm absent.1)).trans (induction absent.2)

theorem member?_present {members : List (String × Option Json)}
    (distinct : (members.map Prod.fst).Nodup) {key : String} {value : Option Json}
    (listed : (key, value) ∈ members) : Json.member? key (present members) = value := by
  induction members with
  | nil => cases listed
  | cons member rest induction =>
      rw [List.map_cons, List.nodup_cons] at distinct
      rcases List.mem_cons.mp listed with rfl | later
      · cases value with
        | none => exact (member?_present_of_notMem distinct.1 : Json.member? key (present rest) = _)
        | some value => exact if_pos rfl
      · have other : member.1 ≠ key := fun same =>
          distinct.1 (same ▸ List.mem_map_of_mem later)
        rcases member with ⟨own, _ | found⟩
        · exact induction distinct.2 later
        · exact (if_neg other).trans (induction distinct.2 later)

theorem rel_map {α β : Type} {related : α → β → Prop} {transform : α → β} {source : Option α}
    (each : ∀ value ∈ source, related value (transform value)) :
    Option.Rel related source (source.map transform) := by
  cases source with
  | none => exact .none
  | some value => exact .some (each value rfl)

theorem nodup_signalMembers (signal : Signal) :
    ((signalMembers signal).map Prod.fst).Nodup := by
  have keys : (signalMembers signal).map Prod.fst = ["name", "start", "length", "byte_order",
    "is_signed", "scale", "offset", "minimum", "maximum", "unit", "initial", "comment",
    "choices"] := rfl
  rw [keys]
  decide

theorem nodup_messageMembers (message : Message) :
    ((messageMembers message).map Prod.fst).Nodup := by
  have keys : (messageMembers message).map Prod.fst = ["name", "frame_id", "length",
    "is_extended_frame", "cycle_time", "senders", "comment", "signals"] := rfl
  rw [keys]
  decide

theorem SignalExpressible.written {signal : Signal} (expressible : SignalExpressible signal) :
    SignalWritten signal (present (signalMembers signal)) := by
  have read (key : String) (value : Option Json)
      (listed : (key, value) ∈ signalMembers signal := by
        simp only [signalMembers, List.mem_cons, true_or, or_true]) :
      Json.member? key (present (signalMembers signal)) = value :=
    member?_present (nodup_signalMembers signal) listed
  exact {
    name := read _ _
    start := read _ _
    length := read _ _
    byteOrder := ⟨signal.byteOrder.name, read _ _, signal.byteOrder.spelling_name⟩
    signed := read _ _
    scale := ⟨_, read _ _, .real expressible.scale⟩
    offset := ⟨_, read _ _, .real expressible.offset⟩
    minimum := by
      rw [read "minimum" (signal.bounds.minimum.map .real)]
      exact rel_map fun bound own => .real (expressible.minimum bound own)
    maximum := by
      rw [read "maximum" (signal.bounds.maximum.map .real)]
      exact rel_map fun bound own => .real (expressible.maximum bound own)
    initial := read _ _
    unit := read _ _
    comment := read _ _
    choices := by
      rw [read "choices" (signal.choices.map writeChoices)]
      exact rel_map fun choices _ => .object (.refl choices.entries) }

theorem MessageExpressible.written {message : Message}
    (expressible : MessageExpressible message) :
    MessageWritten message (present (messageMembers message)) := by
  have read (key : String) (value : Option Json)
      (listed : (key, value) ∈ messageMembers message := by
        simp only [messageMembers, List.mem_cons, true_or, or_true]) :
      Json.member? key (present (messageMembers message)) = value :=
    member?_present (nodup_messageMembers message) listed
  exact {
    name := read _ _
    frameId := read _ _
    length := read _ _
    extended := read _ _
    cycleTime := read _ _
    senders := read _ _
    comment := read _ _
    signals := ⟨_, read _ _, List.forall₂_map_right_iff.mpr
      (List.forall₂_same.mpr fun signal member =>
        ⟨_, rfl, (expressible.signals signal member).written⟩)⟩ }

theorem Expressible.written {schema : Schema} (expressible : Expressible schema) :
    Written schema (write schema) := by
  have distinct : ((schemaMembers schema).map Prod.fst).Nodup := by
    rw [show (schemaMembers schema).map Prod.fst = ["version", "messages"] from rfl]
    decide
  have read (key : String) (value : Option Json)
      (listed : (key, value) ∈ schemaMembers schema := by
        simp only [schemaMembers, List.mem_cons, true_or, or_true]) :
      Json.member? key (write schema) = value :=
    member?_present distinct listed
  exact {
    version := read _ _
    messages := ⟨_, read _ _, List.forall₂_map_right_iff.mpr
      (List.forall₂_same.mpr fun message member =>
        ⟨_, rfl, (expressible message member).written⟩)⟩ }

/-- A schema whose values the format has room for can be written, and each of its writings is
read as the schema itself. -/
theorem ofObject_of_written {schema : Schema} (expressible : Expressible schema) :
    Written schema (write schema) ∧
      ∀ entries, Written schema entries → ofObject false entries = .ok schema :=
  ⟨expressible.written, fun _ written => written.taken expressible⟩

def climate : Message where
  frameId := 0x18ff1234
  extended := true
  name := "Climate"
  length := 8
  comment := some "Cabin air"
  senders := ["PCM1"]
  cycleTime := some 100
  signals := [
    { name := "Temperature", start := 0, length := 12, byteOrder := .bigEndian, signed := true
      linear := ⟨0.01, 250⟩, bounds := ⟨some 229.52, some 270.47⟩, initial := some (-2048)
      unit := some "degK", comment := some "Vent"
      choices := some (.ofList [(-2048, "Fault"), (0, "Off"), (1, "On")]) }]

def climateSchema : Schema where
  version := some "1.0"
  messages := [climate]
  sound := by decide

def climateEntries : Entries :=
  [("messages", .array [.object
      [("signals", .array [.object
        [("choices", .object [("1", .text "On"), ("-2048", .text "Fault"), ("0", .text "Off")]),
          ("comment", .text "Vent"), ("initial", .whole (-2048)), ("unit", .text "degK"),
          ("maximum", .real 270.47), ("minimum", .real 229.52), ("offset", .whole 250),
          ("scale", .real 0.01), ("is_signed", .bool true), ("byte_order", .text "Motorola"),
          ("length", .whole 12), ("start", .whole 0), ("name", .text "Temperature")]]),
        ("comment", .text "Cabin air"), ("senders", .array [.text "PCM1"]),
        ("cycle_time", .whole 100), ("is_extended_frame", .bool true), ("length", .whole 8),
        ("frame_id", .whole 0x18ff1234), ("name", .text "Climate")]]),
    ("version", .text "1.0")]

theorem expressible_climate : Expressible climateSchema := by
  intro message member
  rcases List.mem_singleton.mp member with rfl
  refine ⟨by decide, by decide, fun signal signalMember => ?_⟩
  rcases List.mem_singleton.mp signalMember with rfl
  exact ⟨by decide, by decide, by decide, by decide, by decide, by decide, by decide, by decide,
    by decide⟩

theorem written_climate : Written climateSchema climateEntries where
  version := rfl
  messages := by
    refine ⟨_, rfl, .cons ⟨_, rfl, ?_⟩ .nil⟩
    refine ⟨rfl, rfl, rfl, rfl, rfl, rfl, rfl, _, rfl, .cons ⟨_, rfl, ?_⟩ .nil⟩
    exact {
      name := rfl
      start := rfl
      length := rfl
      byteOrder := ⟨_, rfl, "motorola", by decide, by decide⟩
      signed := rfl
      scale := ⟨_, rfl, .real (by decide)⟩
      offset := ⟨_, rfl, .whole (by rfl)⟩
      minimum := .some (.real (by decide))
      maximum := .some (.real (by decide))
      initial := rfl
      unit := rfl
      comment := rfl
      choices := .some
        (@ChoicesWritten.object _ [(1, "On"), (-2048, "Fault"), (0, "Off")] (by decide)) }

theorem ofObject_of_written_climate :
    Expressible climateSchema ∧ Written climateSchema climateEntries ∧
      ofObject false climateEntries = .ok climateSchema :=
  ⟨expressible_climate, written_climate,
    (ofObject_of_written expressible_climate).2 climateEntries written_climate⟩
end Catalog

end CanCodec
