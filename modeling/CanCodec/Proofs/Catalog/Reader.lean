import Mathlib.Data.List.Forall2
import CanCodec.Catalog.Reader
import CanCodec.Proofs.Schema
import CanCodec.Proofs.Traversal

/-! # What the reader of catalogs takes

One statement for each reader: which members of an object the fields of a signal, of a
message and of a schema come from, and nothing else decides whether the object is taken. -/

namespace CanCodec

namespace Catalog

theorem object?_eq_some_iff {value : Json} {entries : Entries} :
    value.object? = some entries ↔ value = .object entries := by
  cases value <;> simp [Json.object?]

theorem array?_eq_some_iff {value : Json} {elements : List Json} :
    value.array? = some elements ↔ value = .array elements := by
  cases value <;> simp [Json.array?]

theorem natural?_eq_some_iff {value : Json} {number : Nat} :
    value.natural? = some number ↔ value = .whole number := by
  cases value with
  | whole own =>
      simp only [Json.natural?, Json.whole.injEq]
      split
      · rw [Option.some.injEq]
        omega
      · simp only [reduceCtorEq, false_iff]
        omega
  | _ => simp [Json.natural?]

theorem naturalMember?_eq_some_iff {entries : Entries} {key : String} {number : Nat} :
    naturalMember? entries key = some number ↔
      Json.member? key entries = some (.whole number) := by
  simp [naturalMember?, Option.bind_eq_some_iff, natural?_eq_some_iff]

theorem require_ok_iff {ε α : Type} {problem : ε} {source : Option α} {value : α} :
    require problem source = .ok value ↔ source = some value := by
  cases source <;> simp [require]

theorem require32_ok_iff {ε : Type} {problem : ε} {source value : Nat} :
    require32 problem source = .ok value ↔ source = value ∧ value < Nat.pow 2 32 := by
  rw [require32]
  split
  next fits =>
    simp only [Except.ok.injEq]
    exact ⟨fun same => ⟨same, same ▸ fits⟩, And.left⟩
  next large =>
    simp only [reduceCtorEq, false_iff, not_and]
    rintro rfl
    exact large

/-! ## Signals -/

structure SignalTaken (prune : Bool) (entries : Entries) (signal : Signal) : Prop where
  name : textMember? entries "name" = some signal.name
  start : naturalMember? entries "start" = some signal.start ∧ signal.start < Nat.pow 2 32
  length : naturalMember? entries "length" = some signal.length ∧ signal.length < Nat.pow 2 32
  byteOrder : readByteOrder signal.name entries = .ok signal.byteOrder
  choices : readChoices signal.name prune entries = .ok signal.choices
  signed : boolMember entries "is_signed" = signal.signed
  scale : (realMember? entries "scale").getD 1 = signal.linear.scale
  offset : (realMember? entries "offset").getD 0 = signal.linear.offset
  minimum : realMember? entries "minimum" = signal.bounds.minimum
  maximum : realMember? entries "maximum" = signal.bounds.maximum
  initial : (Json.member? "initial" entries).bind Json.integer? = signal.initial
  unit : filledMember? entries "unit" = signal.unit
  comment : filledMember? entries "comment" = signal.comment

theorem readSignal_ok_iff {prune : Bool} {entries : Entries} {signal : Signal} :
    readSignal prune entries = .ok signal ↔ SignalTaken prune entries signal := by
  simp only [readSignal, bind_ok_iff, require_ok_iff, require32_ok_iff, pure, Except.pure,
    Except.ok.injEq]
  constructor
  · rintro ⟨name, named, start, started, _, ⟨rfl, startFits⟩, length, measured, _,
      ⟨rfl, lengthFits⟩, byteOrder, ordered, choices, chosen, rfl⟩
    exact ⟨named, ⟨started, startFits⟩, ⟨measured, lengthFits⟩, ordered, chosen, rfl, rfl, rfl,
      rfl, rfl, rfl, rfl, rfl⟩
  · rintro ⟨named, started, measured, ordered, chosen, signed, scale, offset, minimum, maximum,
      initial, unit, comment⟩
    refine ⟨signal.name, named, signal.start, started.1, _, ⟨rfl, started.2⟩, signal.length,
      measured.1, _, ⟨rfl, measured.2⟩, signal.byteOrder, ordered, signal.choices, chosen, ?_⟩
    rw [signed, scale, offset, minimum, maximum, initial, unit, comment]

theorem readSignals_ok_iff {message : String} {prune : Bool} {elements : List Json}
    {signals : List Signal} :
    readSignals message prune elements = .ok signals ↔
      List.Forall₂ (fun element signal => ∃ entries, element = .object entries ∧
        SignalTaken prune entries signal) elements signals := by
  induction elements generalizing signals with
  | nil =>
      rw [readSignals, List.forall₂_nil_left_iff, Except.ok.injEq]
      exact eq_comm
  | cons element rest induction =>
      simp only [readSignals, List.forall₂_cons_left_iff, ← object?_eq_some_iff,
        ← readSignal_ok_iff] at induction ⊢
      cases element.object? with
      | none => simp
      | some entries =>
          cases read : readSignal prune entries with
          | error problem => simp [read]
          | ok signal =>
              simp only [map_ok_iff, induction, Option.some.injEq, exists_eq_left', read,
                Except.ok.injEq]
              grind

/-! ## Messages -/

structure MessageTaken (prune : Bool) (entries : Entries) (message : Message) : Prop where
  name : textMember? entries "name" = some message.name
  frameId : naturalMember? entries "frame_id" = some message.frameId ∧
    message.frameId < Nat.pow 2 32
  length : naturalMember? entries "length" = some message.length
  signals : ∃ elements, signalElements message.name entries = .ok elements ∧
    List.Forall₂ (fun element signal => ∃ entries, element = .object entries ∧
      SignalTaken prune entries signal) elements message.signals
  cycleTime : readCycleTime message.name entries = .ok message.cycleTime
  extended : boolMember entries "is_extended_frame" = message.extended
  comment : filledMember? entries "comment" = message.comment
  senders : readSenders entries = message.senders

theorem readMessage_ok_iff {prune : Bool} {entries : Entries} {message : Message} :
    readMessage prune entries = .ok message ↔ MessageTaken prune entries message := by
  simp only [readMessage, bind_ok_iff, require_ok_iff, require32_ok_iff, readSignals_ok_iff, pure,
    Except.pure, Except.ok.injEq]
  constructor
  · rintro ⟨name, named, frameId, identified, _, ⟨rfl, fits⟩, length, measured, elements, listed,
      signals, taken, cycleTime, timed, rfl⟩
    exact ⟨named, ⟨identified, fits⟩, measured, ⟨elements, listed, taken⟩, timed, rfl, rfl, rfl⟩
  · rintro ⟨named, identified, measured, ⟨elements, listed, taken⟩, timed, extended, comment,
      senders⟩
    refine ⟨message.name, named, message.frameId, identified.1, _, ⟨rfl, identified.2⟩,
      message.length, measured, elements, listed, message.signals, taken, message.cycleTime, timed,
      ?_⟩
    rw [extended, comment, senders]

theorem readMessages_ok_iff {prune : Bool} {index : Nat} {elements : List Json}
    {messages : List Message} :
    readMessages prune index elements = .ok messages ↔
      List.Forall₂ (fun element message => ∃ entries, element = .object entries ∧
        MessageTaken prune entries message) elements messages := by
  induction elements generalizing index messages with
  | nil =>
      rw [readMessages, List.forall₂_nil_left_iff, Except.ok.injEq]
      exact eq_comm
  | cons element rest induction =>
      simp only [readMessages, List.forall₂_cons_left_iff, ← object?_eq_some_iff,
        ← readMessage_ok_iff] at induction ⊢
      cases element.object? with
      | none => simp
      | some entries =>
          cases read : readMessage prune entries with
          | error problem => simp [read]
          | ok message =>
              simp only [map_ok_iff, induction, Option.some.injEq, exists_eq_left', read,
                Except.ok.injEq]
              grind

/-! ## Catalogs -/

theorem ofObject_ok_iff {prune : Bool} {entries : Entries} {schema : Schema} :
    ofObject prune entries = .ok schema ↔
      textMember? entries "version" = schema.version ∧
        ∃ elements, Json.member? "messages" entries = some (.array elements) ∧
          List.Forall₂ (fun element message => ∃ entries, element = .object entries ∧
            MessageTaken prune entries message) elements schema.messages := by
  simp only [ofObject, bind_ok_iff, require_ok_iff, readMessages_ok_iff, mapError_ok_iff,
    Schema.accept_ok_iff, Option.bind_eq_some_iff, array?_eq_some_iff]
  constructor
  · rintro ⟨elements, ⟨_, held, rfl⟩, messages, taken, version, rfl⟩
    exact ⟨version.symm, elements, held, taken⟩
  · rintro ⟨version, elements, held, taken⟩
    exact ⟨elements, ⟨_, held, rfl⟩, schema.messages, taken, version.symm, rfl⟩

end Catalog

end CanCodec
