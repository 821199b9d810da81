import CanCodec.Catalog.Problem
import CanCodec.Catalog.Pruning
import CanCodec.Json.Reader
import CanCodec.Schema
import CanCodec.Text.Blank

/-! # Reading catalogs

A catalog is a JSON object with an array of messages, each with an array of signals.
A member of the wrong kind counts as absent where its absence is allowed, unless its
kind is required below. -/

namespace CanCodec.Catalog

abbrev Entries := List (String × Json)

def require {ε α : Type} (problem : ε) : Option α → Except ε α
  | some value => .ok value
  | none => .error problem

def textMember? (entries : Entries) (key : String) : Option String :=
  (Json.member? key entries).bind Json.text?

def filledMember? (entries : Entries) (key : String) : Option String :=
  (textMember? entries key).filter fun text => !text.isEmpty

def naturalMember? (entries : Entries) (key : String) : Option Nat :=
  (Json.member? key entries).bind Json.natural?

def realMember? (entries : Entries) (key : String) : Option Float :=
  (Json.member? key entries).bind Json.real?

def boolMember (entries : Entries) (key : String) : Bool :=
  ((Json.member? key entries).bind Json.bool?).getD false

def require32 {ε : Type} (problem : ε) (value : Nat) : Except ε Nat :=
  if value < Nat.pow 2 32 then .ok value else .error problem

/-! ## Signals -/

def byteOrderOfName (name : String) : Except SignalProblem ByteOrder :=
  let folded := name.toLower
  if folded ∈ ["little_endian", "intel", "little", "le"] then .ok .littleEndian
  else if folded ∈ ["big_endian", "motorola", "big", "be"] then .ok .bigEndian
  else .error (.unknownByteOrder folded)

def readByteOrder (signal : String) (entries : Entries) : Except SignalProblem ByteOrder :=
  match Json.member? "byte_order" entries with
  | none => .ok .littleEndian
  | some value => do byteOrderOfName (← require (.byteOrderNotText signal) value.text?)

/-- The largest key of a choice; the smallest is one below its negation. -/
def choiceLimit : Nat := Nat.pow 2 127 - 1

def readChoiceEntries (signal : String) : (choices : Choices) → Entries →
    Except SignalProblem Choices
  | choices, [] => .ok choices
  | choices, (key, value) :: rest =>
      match Text.readInteger 10 choiceLimit (Text.trim key.toList) with
      | .error problem => .error (.choiceKey signal key problem)
      | .ok raw =>
          match value.text? with
          | none => .error (.choiceLabel signal key)
          | some name => readChoiceEntries signal (choices.insert raw name) rest

def readChoices (signal : String) (prune : Bool) (entries : Entries) :
    Except SignalProblem (Option Choices) :=
  match Json.member? "choices" entries with
  | none => .ok none
  | some value => do
      let entries ← require (.choicesNotObject signal) value.object?
      let choices ← readChoiceEntries signal .empty entries
      return some (if prune then Pruning.prune choices else choices)

def readSignal (prune : Bool) (entries : Entries) : Except SignalProblem Signal := do
  let name ← require .missingName (textMember? entries "name")
  let start ← require (.missingStart name) (naturalMember? entries "start")
  let start ← require32 (.startOutOfRange name start) start
  let length ← require (.missingLength name) (naturalMember? entries "length")
  let length ← require32 (.lengthOutOfRange name length) length
  let byteOrder ← readByteOrder name entries
  let choices ← readChoices name prune entries
  return {
    name, start, length, byteOrder, choices
    signed := boolMember entries "is_signed"
    linear :=
      { scale := (realMember? entries "scale").getD 1
        offset := (realMember? entries "offset").getD 0 }
    bounds :=
      { minimum := realMember? entries "minimum"
        maximum := realMember? entries "maximum" }
    initial := (Json.member? "initial" entries).bind Json.integer?
    unit := filledMember? entries "unit"
    comment := filledMember? entries "comment" }

/-! ## Messages -/

def readSignals (message : String) (prune : Bool) :
    List Json → Except MessageProblem (List Signal)
  | [] => .ok []
  | element :: rest =>
      match element.object? with
      | none => .error (.signalNotObject message)
      | some entries =>
          match readSignal prune entries with
          | .error problem => .error (.signal message problem)
          | .ok signal => (readSignals message prune rest).map (signal :: ·)

def signalElements (message : String) (entries : Entries) :
    Except MessageProblem (List Json) :=
  match Json.member? "signals" entries with
  | none => .ok []
  | some value => require (.signalsNotArray message) value.array?

def readSenders (entries : Entries) : List String :=
  (((Json.member? "senders" entries).bind Json.array?).getD []).filterMap Json.text?

def readCycleTime (message : String) (entries : Entries) :
    Except MessageProblem (Option Nat) :=
  match naturalMember? entries "cycle_time" with
  | none => .ok none
  | some value => (require32 (.cycleTimeOutOfRange message) value).map some

def readMessage (prune : Bool) (entries : Entries) : Except MessageProblem Message := do
  let name ← require .missingName (textMember? entries "name")
  let frameId ← require (.missingFrameId name) (naturalMember? entries "frame_id")
  let frameId ← require32 (.frameIdOutOfRange name) frameId
  let length ← require (.missingLength name) (naturalMember? entries "length")
  let signals ← readSignals name prune (← signalElements name entries)
  let cycleTime ← readCycleTime name entries
  return {
    name, frameId, length, signals, cycleTime
    extended := boolMember entries "is_extended_frame"
    comment := filledMember? entries "comment"
    senders := readSenders entries }

def readMessages (prune : Bool) : (index : Nat) → List Json →
    Except CatalogProblem (List Message)
  | _, [] => .ok []
  | index, element :: rest =>
      match element.object? with
      | none => .error (.messageNotObject index)
      | some entries =>
          match readMessage prune entries with
          | .error problem => .error (.message problem)
          | .ok message => (readMessages prune (index + 1) rest).map (message :: ·)

def ofObject (prune : Bool) (entries : Entries) : Except CatalogProblem Schema := do
  let elements ← require .missingMessages ((Json.member? "messages" entries).bind Json.array?)
  let messages ← readMessages prune 0 elements
  (Schema.accept (textMember? entries "version") messages).mapError .rejected

def parse (prune : Bool) (source : String) : Except CatalogProblem Schema := do
  let value ← require .malformed (Json.parse? source)
  ofObject prune (← require .notObject value.object?)

end CanCodec.Catalog
