import Mathlib.Data.List.Forall2
import CanCodec.Proofs.Storage

/-! # The storage of records in generated C

The storage of records shows in three places of the generated files: in the line of each file's
first comment that tells of bit fields, in the line about its size in the comment before each
record, and in the members of the records. Everything else is the same text. -/

namespace CanCodec.C

/-! ## Code that knows no storage -/

section

variable (options : Options) (codec : Codec)

theorem packFunction_wire : packFunction options codec.wire = packFunction options codec := by
  simp only [packFunction, packProcedure, Codec.wire, Codec.fields, rawVariables, List.map_map,
    List.flatMap_map, List.isEmpty_map]
  rfl

theorem unpackFunction_wire : unpackFunction options codec.wire = unpackFunction options codec := by
  simp only [unpackFunction, unpackProcedure, Codec.wire, Codec.fields, rawVariables, List.map_map,
    List.flatMap_map, List.isEmpty_map]
  rfl

def conversions : Document := codec.fields.flatMap (conversionFunctions options codec.message)

theorem conversions_wire : conversions options codec.wire = conversions options codec := by
  simp only [conversions, Codec.wire, Codec.fields, List.flatMap_map]
  rfl

end

structure SameFunctions (options other : Options) (first second : Codec) : Prop where
  pack : packFunction options first = packFunction other second
  unpack : unpackFunction options first = unpackFunction other second
  conversions : conversions options first = conversions other second

theorem sameFunctions_ofMessage (options : Options) (message : Message) :
    SameFunctions { options with packed := false } { options with packed := true }
      (.ofMessage false message) (.ofMessage true message) := by
  have same := Codec.wire_ofMessage false true message
  constructor
  · rw [← packFunction_wire, same, packFunction_wire]
    rfl
  · rw [← unpackFunction_wire, same, unpackFunction_wire]
    rfl
  · rw [← conversions_wire, same, conversions_wire]
    rfl

theorem SameFunctions.messageFunctions_eq {options other : Options} {first second : Codec}
    (same : SameFunctions options other first second) :
    messageFunctions options first = messageFunctions other second := by
  rw [messageFunctions, messageFunctions, same.pack, same.unpack]
  exact congrArg _ same.conversions

theorem dispatchOrder_map_ofMessage (packed : Bool) (messages : List Message) :
    dispatchOrder (messages.map (Codec.ofMessage packed)) =
      (messages.mergeSort fun first second => first.frameId ≤ second.frameId).map
        (Codec.ofMessage packed) := by
  refine (List.map_mergeSort fun first _ second _ => ?_).symm
  rfl

theorem dispatchTable_map_ofMessage (options : Options) (messages : List Message) :
    dispatchTable { options with packed := false } (messages.map (Codec.ofMessage false)) =
      dispatchTable { options with packed := true } (messages.map (Codec.ofMessage true)) := by
  simp only [dispatchTable, List.isEmpty_map, List.map_map]
  rfl

/-! ## Documents that differ in storage -/

def storageLine (size : Nat) : String := docLine s!"Record storage: {size} bytes."

def bitFieldsLine : String := docLine "Records use bit fields."

inductive Item.Narrowed : Item → Item → Prop
  | same (item : Item) : Narrowed item item
  | member (type : Primitive) (name : String) (bits : Nat) :
      Narrowed (.code (Member.mk type name none).text)
        (.code (Member.mk type name (some bits)).text)

namespace Document

/-- Two documents differ at most in the line about bit fields of a comment that opens a file, in
the size that the comment of a record tells, and in the members between the opening and the
closing of a record. -/
inductive Restored : Document → Document → Prop
  | nil : Restored [] []
  | same (item : Item) {first second : Document} (rest : Restored first second) :
      Restored (item :: first) (item :: second)
  | banner (lines : List String) {first second : Document} (rest : Restored first second) :
      Restored (.comment "" "/*" lines :: first)
        (.comment "" "/*" (lines ++ [bitFieldsLine]) :: second)
  | record (before after : List String) (size narrowSize : Nat) (tag : String)
      {members narrowMembers : Document}
      (narrowed : List.Forall₂ Item.Narrowed members narrowMembers)
      {first second : Document} (rest : Restored first second) :
      Restored
        (.doc "" (before ++ storageLine size :: after) :: .code s!"struct {tag} \x7b" ::
          (members ++ .code "\x7d;" :: first))
        (.doc "" (before ++ storageLine narrowSize :: after) :: .code s!"struct {tag} \x7b" ::
          (narrowMembers ++ .code "\x7d;" :: second))

theorem Restored.refl (document : Document) : Restored document document := by
  induction document with
  | nil => exact .nil
  | cons item rest induction => exact .same item induction

theorem Restored.append {first second firstRest secondRest : Document}
    (head : Restored first second) (rest : Restored firstRest secondRest) :
    Restored (first ++ firstRest) (second ++ secondRest) := by
  induction head with
  | nil => exact rest
  | same item _ induction => exact .same item induction
  | banner lines _ induction => exact .banner lines induction
  | record before after size narrowSize tag narrowed _ induction =>
      simp only [List.cons_append, List.append_assoc]
      exact .record before after size narrowSize tag narrowed induction

theorem Restored.flatMap {α : Type} (inputs : List α) {first second : α → Document}
    (each : ∀ input, Restored (first input) (second input)) :
    Restored (inputs.flatMap first) (inputs.flatMap second) := by
  induction inputs with
  | nil => exact .nil
  | cons input rest induction => exact (each input).append induction

end Document

open Document

/-! ## Records -/

theorem restored_banner (options : Options) (version : Option String) (content : String) :
    Restored (banner { options with packed := false } version content)
      (banner { options with packed := true } version content) := by
  simp only [banner, Bool.false_eq_true, if_false, if_true, List.append_nil]
  exact .banner _ (.refl _)

theorem memberList_wire (fields : List Field) :
    memberList false (fields.map Field.wire) = memberList false fields := by
  induction fields with
  | nil => rfl
  | cons field rest induction =>
      cases rest with
      | nil => rfl
      | cons next later =>
          exact congrArg (fun document => memberItems false field ++ .blank :: document) induction

theorem narrowed_memberItems (field : Field) :
    List.Forall₂ Item.Narrowed (memberItems false field) (memberItems true field) :=
  .cons (.same _) (.cons (.member _ _ _) .nil)

theorem narrowed_memberList (fields : List Field) :
    List.Forall₂ Item.Narrowed (memberList false fields) (memberList true fields) := by
  induction fields with
  | nil => exact List.forall₂_same.mpr fun item _ => .same item
  | cons field rest induction =>
      cases rest with
      | nil => exact narrowed_memberItems field
      | cons next later =>
          exact List.rel_append (narrowed_memberItems field) (.cons (.same _) induction)

theorem narrowed_members (message : Message) :
    List.Forall₂ Item.Narrowed (memberList false (Codec.ofMessage false message).fields)
      (memberList true (Codec.ofMessage true message).fields) := by
  have same : (Codec.ofMessage false message).fields.map Field.wire =
      (Codec.ofMessage true message).fields.map Field.wire :=
    congrArg Codec.fields (Codec.wire_ofMessage false true message)
  rw [← memberList_wire, same, memberList_wire]
  exact narrowed_memberList _

theorem restored_recordItems (options : Options) (message : Message) :
    Restored (recordItems { options with packed := false } (.ofMessage false message))
      (recordItems { options with packed := true } (.ofMessage true message)) := by
  have members := narrowed_members message
  exact .record _ _ _ _ (recordTag options message) members .nil

/-! ## Files -/

variable (options : Options) (version : Option String) (messages : List Message)

theorem restored_recordHeader (fileName : String) :
    Restored
      (recordHeader { options with packed := false } version fileName
        (messages.map (Codec.ofMessage false)))
      (recordHeader { options with packed := true } version fileName
        (messages.map (Codec.ofMessage true))) := by
  have functions (message : Message) :=
    (sameFunctions_ofMessage options message).messageFunctions_eq
  simp only [recordHeader, List.flatMap_map, functions]
  have records := Restored.flatMap messages fun message =>
    .same .blank (restored_recordItems options message)
  exact ((((((restored_banner options version _).append (.refl _)).append (.refl _)).append
    (.refl _)).append records).append (.refl _)).append (.refl _)

theorem restored_dispatchHeader (fileName recordFile : String) :
    Restored
      (dispatchHeader { options with packed := false } version fileName recordFile
        (messages.map (Codec.ofMessage false)))
      (dispatchHeader { options with packed := true } version fileName recordFile
        (messages.map (Codec.ofMessage true))) := by
  simp only [dispatchHeader, messageCount, List.length_map]
  exact ((((((restored_banner options version _).append (.refl _)).append (.refl _)).append
    (.refl _)).append (.refl _)).append (.refl _)).append (.refl _)

theorem restored_dispatchSource (headerPath : String) :
    Restored
      (dispatchSource { options with packed := false } version headerPath
        (messages.map (Codec.ofMessage false)))
      (dispatchSource { options with packed := true } version headerPath
        (messages.map (Codec.ofMessage true))) := by
  simp only [dispatchSource, dispatchOrder_map_ofMessage, dispatchTable_map_ofMessage,
    lookupProcedure, messageCount, List.length_map, List.flatMap_map]
  exact ((((restored_banner options version _).append (.refl _)).append (.refl _)).append
    (.refl _)).append (.refl _)

end CanCodec.C

namespace CanCodec

structure Artifact.Restored (first second : Artifact) : Prop where
  role : first.role = second.role
  name : first.name = second.name
  content : ∃ document other, first.content = C.Document.text document ∧
    second.content = C.Document.text other ∧ C.Document.Restored document other

theorem Artifact.Restored.of_documents {document other : C.Document} (role : Role) (name : String)
    (restored : document.Restored other) :
    Restored ⟨role, name, document.text⟩ ⟨role, name, other.text⟩ :=
  ⟨rfl, rfl, document, other, rfl, rfl, restored⟩

/-- Two codebooks, and the options they are generated with, differ in the storage of records
only: on the wire, in the interchange definitions and in the functions of the generated code
they are the same. -/
structure Codebook.SameButStorage (schema : Schema) (options other : Options)
    (first second : Codebook) : Prop where
  skipped : first.skipped = second.skipped
  codecs : List.Forall₂ Codec.SameWire first.codecs second.codecs
  interchange : Generated.interchange first = Generated.interchange second
  definitions : Definition.all first = Definition.all second
  functions : List.Forall₂ (C.SameFunctions options other) first.codecs second.codecs
  table : C.dispatchTable options (C.dispatchOrder first.codecs) =
    C.dispatchTable other (C.dispatchOrder second.codecs)
  records : List.Forall₂ Artifact.Restored (Generated.records schema options first).artifacts
    (Generated.records schema other second).artifacts
  dispatch : ∀ names,
    List.Forall₂ Artifact.Restored (Generated.dispatch schema options names first).artifacts
      (Generated.dispatch schema other names second).artifacts

theorem Artifact.restored_recordHeader (schema : Schema) (options : Options) (name : String)
    (messages : List Message) (skipped : List LayoutFault) :
    Artifact.Restored
      (recordHeader schema { options with packed := false } name
        ⟨messages.map (Codec.ofMessage false), skipped⟩)
      (recordHeader schema { options with packed := true } name
        ⟨messages.map (Codec.ofMessage true), skipped⟩) :=
  .of_documents .records name (C.restored_recordHeader options schema.version messages name)

theorem Codebook.sameButStorage_ofMessage (schema : Schema) (options : Options)
    (messages : List Message) (skipped : List LayoutFault) :
    SameButStorage schema { options with packed := false } { options with packed := true }
      ⟨messages.map (Codec.ofMessage false), skipped⟩
      ⟨messages.map (Codec.ofMessage true), skipped⟩ := by
  have texts (message : Message) :
      Definition.text (.ofMessage false message) = Definition.text (.ofMessage true message) := by
    rw [← Definition.text_wire, Codec.wire_ofMessage false true, Definition.text_wire]
  exact {
    skipped := rfl
    codecs := by
      rw [List.forall₂_map_left_iff, List.forall₂_map_right_iff, List.forall₂_same]
      exact fun message _ => .of_wire (Codec.wire_ofMessage false true message)
    interchange := by
      simp only [Generated.interchange, List.map_map, Function.comp_def, Artifact.ofCodec, texts]
      rfl
    definitions := by
      simp only [Definition.all, List.map_map, Function.comp_def, texts]
      rfl
    functions := by
      rw [List.forall₂_map_left_iff, List.forall₂_map_right_iff, List.forall₂_same]
      exact fun message _ => C.sameFunctions_ofMessage options message
    table := by
      rw [C.dispatchOrder_map_ofMessage, C.dispatchOrder_map_ofMessage]
      exact C.dispatchTable_map_ofMessage options _
    records := .cons (Artifact.restored_recordHeader schema options _ messages skipped) .nil
    dispatch := fun names =>
      .cons (Artifact.restored_recordHeader schema options names.records messages skipped)
        (.cons (.of_documents .dispatchDeclarations names.declarations
            (C.restored_dispatchHeader options schema.version messages names.declarations
              names.records))
          (.cons (.of_documents .dispatchImplementation names.implementation
            (C.restored_dispatchSource options schema.version messages names.declarationsPath))
            .nil)) }

/-- Whether records keep their signals in whole integers or bit by bit decides neither whether a
catalog is planned nor anything but the storage itself. -/
theorem Codebook.plan_sameButStorage (schema : Schema) (options : Options) :
    (∃ fault, plan schema { options with packed := false } = .error fault ∧
        plan schema { options with packed := true } = .error fault) ∨
      ∃ whole narrow, plan schema { options with packed := false } = .ok whole ∧
        plan schema { options with packed := true } = .ok narrow ∧
        SameButStorage schema { options with packed := false } { options with packed := true }
          whole narrow := by
  rcases plan_packed schema options false true with failed | ⟨messages, skipped, whole, narrow⟩
  · exact .inl failed
  · exact .inr ⟨_, _, whole, narrow, sameButStorage_ofMessage schema options messages skipped⟩

def Codebook.pair : Message where
  frameId := 0x11
  name := "Pair"
  length := 2
  signals :=
    [{ name := "First", start := 0, length := 3, byteOrder := .littleEndian },
      { name := "Second", start := 3, length := 9, byteOrder := .littleEndian }]

-- The storage itself differs: one byte, a gap and two bytes, or two bytes together.
example :
    (Codec.ofMessage false Codebook.pair).layout.sizeBytes = 4 ∧
      (Codec.ofMessage true Codebook.pair).layout.sizeBytes = 2 := by decide

end CanCodec
