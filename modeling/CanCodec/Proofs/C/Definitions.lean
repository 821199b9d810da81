import CanCodec.Artifact
import CanCodec.Proofs.C.Comments
import CanCodec.Proofs.C.Names

/-! # Definitions in a record header

The lines of a record header that start a definition name exactly what is defined, so a
name is defined twice when two names made from the catalog are the same. -/

namespace CanCodec.C

/-! ## Lines that define -/

namespace Item

def isDefinition : Item → Bool
  | .code text => ["#define ", "struct ", "static inline "].any fun start =>
      start.toList.isPrefixOf text.toList
  | _ => false

/-- What a definition names. The type that a function returns is one word. -/
inductive Defines : Item → String → Prop
  | guard (name : String) : Defines (.code ("#define " ++ name)) name
  | constant (name body : String) : Defines (.code (Macro.mk name body).text) name
  | record (name : String) : Defines (.code s!"struct {name} \x7b") name
  | function (type name rest : String) (word : ' ' ∉ type.toList) :
      Defines (.code ("static inline " ++ type ++ " " ++ name ++ "(" ++ rest)) name

theorem Defines.isDefinition {item : Item} {name : String} (defines : Defines item name) :
    item.isDefinition = true := by
  cases defines with
  | guard => simp [Item.isDefinition]
  | constant => simp [Item.isDefinition, Macro.text, toString]
  | record => simp [Item.isDefinition, toString]
  | function => simp [Item.isDefinition]

theorem isDefinition_of_indented {text : String} (indented : text.toList.head? = some ' ') :
    (Item.code text).isDefinition = false := by
  rcases List.head?_eq_some_iff.mp indented with ⟨rest, characters⟩
  simp [isDefinition, characters, List.isPrefixOf]

end Item

namespace Document

def Declares (document : Document) (names : List String) : Prop :=
  List.Forall₂ Item.Defines (document.filter Item.isDefinition) names

theorem Declares.nil : Declares [] [] := List.Forall₂.nil

theorem Declares.append {first second : Document} {firstNames secondNames : List String}
    (head : first.Declares firstNames) (rest : second.Declares secondNames) :
    Declares (first ++ second) (firstNames ++ secondNames) := by
  rw [Declares, List.filter_append]
  exact List.rel_append head rest

theorem Declares.cons {item : Item} {name : String} {document : Document} {names : List String}
    (defines : item.Defines name) (rest : document.Declares names) :
    Declares (item :: document) (name :: names) := by
  rw [Declares, List.filter_cons, if_pos defines.isDefinition]
  exact .cons defines rest

theorem Declares.cons_plain {item : Item} {document : Document} {names : List String}
    (plain : item.isDefinition = false) (rest : document.Declares names) :
    Declares (item :: document) names := by
  rwa [Declares, List.filter_cons, if_neg (by simp [plain])]

theorem Declares.of_plain {document : Document}
    (plain : ∀ item ∈ document, item.isDefinition = false) : document.Declares [] := by
  rw [Declares, List.filter_eq_nil_iff.mpr fun item member => by simp [plain item member]]
  exact .nil

theorem Declares.flatMap {α : Type} {inputs : List α} {lines : α → Document}
    {names : α → List String} (each : ∀ input ∈ inputs, (lines input).Declares (names input)) :
    Declares (inputs.flatMap lines) (inputs.flatMap names) := by
  rw [Declares, List.filter_flatMap]
  exact forall₂_flatMap each

end Document

/-! ## Macros and records -/

theorem declares_macroItems (options : Options) (message : Message) :
    (macroItems options message).Declares ((macroNames options message).map Name.text) := by
  have names : (macroNames options message).map Name.text =
      (messageMacros options message).map Macro.name := by
    simp only [macroNames, messageMacros, choiceStems, List.map_append, List.map_map,
      List.map_flatMap]
    congr 1
    · cases message.cycleTime <;> rfl
    · refine List.flatMap_congr fun signal _ => ?_
      rw [choiceMacros]
      cases signal.choices with
      | none => rfl
      | some choices =>
          simp only [Option.map_some, Option.getD_some, List.map_map]
          rfl
  rw [names, macroItems]
  refine .cons_plain rfl ?_
  induction messageMacros options message with
  | nil => exact .nil
  | cons constant rest induction => exact .cons (.constant _ _) induction

def members (packed : Bool) : List Field → List Member
  | [] => [⟨byteType, "dummy", none⟩]
  | fields => fields.map (fieldMember packed)

def Item.isMember : Item → Bool
  | .code text => text.toList.head? = some ' '
  | _ => false

theorem Member.head?_text (member : Member) : member.text.toList.head? = some ' ' := by
  rw [Member.text]
  split <;> simp [toString]

theorem filter_memberList (packed : Bool) (fields : List Field) :
    (memberList packed fields).filter Item.isMember =
      (members packed fields).map fun member => .code member.text := by
  have one : ∀ field, (memberItems packed field).filter Item.isMember =
      [.code (fieldMember packed field).text] := by
    intro field
    simp [memberItems, Item.isMember, memberDoc, Item.doc, Member.head?_text]
  fun_induction memberList packed fields with
  | case1 => rfl
  | case2 field => exact one field
  | case3 field rest more induction =>
      rw [List.filter_append, one, List.filter_cons, if_neg (by decide), induction]
      cases rest with
      | nil => exact absurd rfl more
      | cons => rfl

theorem filter_recordItems (options : Options) (codec : Codec) :
    (recordItems options codec).filter Item.isMember =
      (members codec.layout.packed codec.fields).map fun member => .code member.text := by
  have head : ∀ tag : String, (Item.code s!"struct {tag} \x7b").isMember = false := by
    simp [Item.isMember, toString]
  have doc : (recordDoc codec).isMember = false := rfl
  have close : (Item.code "\x7d;").isMember = false := by decide
  simp [recordItems, filter_memberList, doc, head, close]

theorem isDefinition_of_mem_memberList {packed : Bool} {fields : List Field} :
    ∀ item ∈ memberList packed fields, item.isDefinition = false := by
  have one : ∀ field, ∀ item ∈ memberItems packed field, item.isDefinition = false := by
    intro field
    rw [memberItems, List.forall_mem_cons, List.forall_mem_singleton]
    exact ⟨rfl, Item.isDefinition_of_indented (Member.head?_text _)⟩
  fun_induction memberList packed fields with
  | case1 => decide
  | case2 field => exact one field
  | case3 field rest _ induction =>
      rw [List.forall_mem_append, List.forall_mem_cons]
      exact ⟨one field, rfl, induction⟩

theorem declares_recordItems (options : Options) (codec : Codec) :
    (recordItems options codec).Declares [recordTag options codec.message] := by
  have head : Document.Declares
      [recordDoc codec, .code s!"struct {recordTag options codec.message} \x7b"]
      [recordTag options codec.message] :=
    .cons_plain rfl (.cons (.record _) .nil)
  have close : Document.Declares [.code "\x7d;"] [] := .cons_plain (by decide) .nil
  exact (head.append (.of_plain isDefinition_of_mem_memberList)).append close

/-! ## Functions that pack and unpack -/

def Block.items : Block → Document
  | .stop | .give _ => []
  | .blank rest | .declare _ _ _ rest | .assign _ _ rest => rest.items
  | .plain items rest => items ++ rest.items
  | .test _ body rest | .loop _ body rest => body.items ++ rest.items
  | .choose _ first second rest => first.items ++ (second.items ++ rest.items)

theorem Block.isDefinition_of_mem_document {block : Block} {indent : String}
    (indented : indent.toList.head? = some ' ')
    (plain : ∀ item ∈ block.items, item.isDefinition = false) :
    ∀ item ∈ block.document indent, item.isDefinition = false := by
  induction block generalizing indent with
  | stop => simp [document]
  | give value =>
      rw [document, List.forall_mem_singleton]
      exact Item.isDefinition_of_indented (by simp [indented])
  | blank rest induction =>
      rw [document, List.forall_mem_cons]
      exact ⟨rfl, induction indented plain⟩
  | plain items rest induction =>
      rw [Block.items, List.forall_mem_append] at plain
      rw [document, List.forall_mem_append]
      exact ⟨plain.1, induction indented plain.2⟩
  | declare _ _ _ rest induction | assign _ _ rest induction =>
      rw [document, List.forall_mem_cons]
      exact ⟨Item.isDefinition_of_indented (by simp [indented]), induction indented plain⟩
  | test _ body rest bodyInduction restInduction | loop _ body rest bodyInduction restInduction =>
      rw [Block.items, List.forall_mem_append] at plain
      rw [document, List.cons_append, List.forall_mem_cons, List.forall_mem_append,
        List.forall_mem_cons]
      exact ⟨Item.isDefinition_of_indented (by simp [indented]),
        bodyInduction (by simp [indented]) plain.1,
        Item.isDefinition_of_indented (by simp [indented]), restInduction indented plain.2⟩
  | choose _ first second rest firstInduction secondInduction restInduction =>
      rw [Block.items, List.forall_mem_append, List.forall_mem_append] at plain
      rw [document, List.cons_append, List.cons_append, List.append_assoc, List.forall_mem_cons,
        List.forall_mem_append, List.cons_append, List.forall_mem_cons, List.forall_mem_append,
        List.forall_mem_cons]
      exact ⟨Item.isDefinition_of_indented (by simp [indented]),
        firstInduction (by simp [indented]) plain.1,
        Item.isDefinition_of_indented (by simp [indented]),
        secondInduction (by simp [indented]) plain.2.1,
        Item.isDefinition_of_indented (by simp [indented]), restInduction indented plain.2.2⟩

theorem Signature.defines {signature : Signature} (result : signature.result = .int) :
    Item.Defines (.code ("static inline " ++ signature.tallText ++ "\n\x7b")) signature.name := by
  have defines := Item.Defines.function "int" signature.name ("\n    " ++
    ",\n    ".intercalate (signature.parameters.map Declaration.text) ++ ")\n\x7b") (by decide)
  convert defines using 2
  rw [tallText, result, ← String.toList_inj]
  simp [DataType.text]

theorem Procedure.declares {procedure : Procedure}
    (result : procedure.signature.result = .int)
    (plain : ∀ item ∈ procedure.body.items, item.isDefinition = false) :
    (procedure.document ("static inline " ++ procedure.signature.tallText)).Declares
      [procedure.signature.name] :=
  have body := Document.Declares.of_plain (Block.isDefinition_of_mem_document rfl plain)
  .cons (Signature.defines result) (body.append (.cons_plain (by decide) .nil))

theorem isDefinition_of_mem_rawVariables {fields : List Field} :
    ∀ item ∈ rawVariables fields, item.isDefinition = false := by
  rw [rawVariables, List.forall_mem_map]
  exact fun field _ => Item.isDefinition_of_indented (by simp [toString])

theorem isDefinition_of_mem_statements (statements : List Statement) :
    ∀ item ∈ Item.blank :: statements.map fun statement => .code statement.text,
      item.isDefinition = false := by
  rw [List.forall_mem_cons, List.forall_mem_map]
  refine ⟨rfl, fun statement _ => Item.isDefinition_of_indented ?_⟩
  cases statement <;> simp [Statement.text]

theorem declares_packFunction (options : Options) (codec : Codec) :
    (packFunction options codec).Declares [packName options codec.message] := by
  have plain : ∀ item ∈ (packProcedure options codec).body.items, item.isDefinition = false := by
    simp only [packProcedure, sizeTest, Block.items, List.append_nil, List.nil_append,
      List.forall_mem_append, List.forall_mem_flatMap]
    refine ⟨⟨isDefinition_of_mem_rawVariables, ?_⟩, ?_,
      fun field _ => isDefinition_of_mem_statements _⟩
    · split <;> decide
    · rw [clearItems]
      split
      · simp
      · rw [List.forall_mem_singleton]
        exact Item.isDefinition_of_indented (by simp [toString])
  exact .cons_plain rfl ((Procedure.declares rfl plain).append (.cons_plain rfl .nil))

theorem declares_unpackFunction (options : Options) (codec : Codec) :
    (unpackFunction options codec).Declares [unpackName options codec.message] := by
  have plain : ∀ item ∈ (unpackProcedure options codec).body.items, item.isDefinition = false := by
    simp only [unpackProcedure, sizeTest, Block.items, List.append_nil, List.nil_append,
      List.forall_mem_append, List.forall_mem_flatMap]
    refine ⟨⟨isDefinition_of_mem_rawVariables, ?_⟩, fun field _ => isDefinition_of_mem_statements _⟩
    split <;> decide
  exact .cons_plain rfl ((Procedure.declares rfl plain).append (.cons_plain rfl .nil))

/-! ## Functions that convert -/

theorem notMem_cName (type : Primitive) : ' ' ∉ type.cName.toList := by
  rcases type with ⟨width, signed⟩
  cases width <;> cases signed <;> decide

theorem declares_function {name heading : String} {lines : List String} {body : Document}
    (type rest : String) (word : ' ' ∉ type.toList)
    (text : heading = "static inline " ++ type ++ " " ++ name ++ "(" ++ rest)
    (plain : ∀ item ∈ body, item.isDefinition = false) :
    Document.Declares (.doc "" lines :: .code heading :: body) [name] := by
  rw [text]
  exact .cons_plain rfl (.cons (.function type name rest word) (.of_plain plain))

theorem EncoderStep.head?_text (step : EncoderStep) : step.text.toList.head? = some ' ' := by
  have guard : ∀ condition statement, (guarded condition statement).toList.head? = some ' ' := by
    simp [guarded, toString]
  have rounding : ∀ offset scale : String,
      (s!"    raw = round((value - {offset}) / {scale});").toList.head? = some ' ' := by
    simp [toString]
  cases step with
  | round => exact rounding _ _
  | raise | lower | stepDown | stepUp | floor | ceiling => exact guard _ _

theorem declares_encodeFunction (options : Options) (message : Message) (field : Field) :
    (encodeFunction options message field).Declares [encodeName options message field.signal] := by
  simp only [encodeFunction, List.cons_append, List.nil_append]
  refine declares_function field.primitive.cName "double value)\n\x7b" (notMem_cName _)
    (by simp [← String.toList_inj, toString]) ?_
  have result : ∀ type : String, (Item.code s!"    return ({type})raw;").isDefinition = false :=
    fun type => Item.isDefinition_of_indented (by simp [toString])
  simp only [List.forall_mem_cons, List.forall_mem_append, List.forall_mem_map, result]
  exact ⟨by decide, rfl, fun step _ => Item.isDefinition_of_indented step.head?_text, by decide⟩

theorem declares_decodeFunction (options : Options) (message : Message) (field : Field) :
    (decodeFunction options message field).Declares [decodeName options message field.signal] := by
  refine declares_function "double" (field.primitive.cName ++ " value)\n\x7b") (by decide)
    (by simp [← String.toList_inj, toString]) ?_
  have result : ∀ scale offset : String,
      (Item.code s!"    return ((double)value * {scale} + {offset});").isDefinition = false :=
    fun scale offset => Item.isDefinition_of_indented (by simp [toString])
  simp only [List.forall_mem_cons, result]
  decide

theorem declares_rangeFunction (options : Options) (message : Message) (field : Field) :
    (rangeFunction options message field).Declares [rangeName options message field.signal] := by
  simp only [rangeFunction, List.cons_append, List.nil_append]
  refine declares_function "bool" (field.primitive.cName ++ " value)\n\x7b") (by decide)
    (by simp [← String.toList_inj, toString]) ?_
  have decoded : ∀ name : String,
      (Item.code s!"    double physical = {name}(value);").isDefinition = false :=
    fun name => Item.isDefinition_of_indented (by simp [toString])
  have result : ∀ tests : String,
      (Item.code ("    return (" ++ tests ++ ");")).isDefinition = false :=
    fun tests => Item.isDefinition_of_indented (by simp)
  rw [List.forall_mem_append]
  refine ⟨?_, by decide⟩
  split
  · decide
  · simp only [List.forall_mem_cons, decoded, result]
    decide

theorem declares_messageFunctions (options : Options) (codec : Codec)
    (own : codec.fields.map Field.signal = codec.message.signals) :
    (messageFunctions options codec).Declares
      ((functionNames options codec.message).map Name.text) := by
  have conversions : Document.Declares
      (codec.fields.flatMap (conversionFunctions options codec.message))
      (codec.fields.flatMap fun field => [encodeName options codec.message field.signal] ++
        [decodeName options codec.message field.signal] ++
        [rangeName options codec.message field.signal]) :=
    .flatMap fun field _ => ((declares_encodeFunction _ _ field).append
      (declares_decodeFunction _ _ field)).append (declares_rangeFunction _ _ field)
  have names : (functionNames options codec.message).map Name.text =
      [packName options codec.message] ++ [unpackName options codec.message] ++
        codec.fields.flatMap fun field => [encodeName options codec.message field.signal] ++
          [decodeName options codec.message field.signal] ++
          [rangeName options codec.message field.signal] := by
    simp only [functionNames, signalNames, ← own, List.map_map, List.flatMap_map, List.map_append,
      List.map_flatMap]
    rfl
  rw [names]
  exact ((declares_packFunction options codec).append
    (declares_unpackFunction options codec)).append conversions

/-! ## Headers -/

theorem declares_preamble :
    Document.Declares [systemHeaders, .blank, linkageStart, .blank, .code helpersText] [] := by
  have helpersPlain : ∀ functions : String, (Item.code
      ("#ifndef CAN_ENDEC_HELPERS\n#define CAN_ENDEC_HELPERS\n\n" ++ functions ++
        "\n#endif /* CAN_ENDEC_HELPERS */")).isDefinition = false := by
    simp [Item.isDefinition, List.isPrefixOf]
  refine .of_plain ?_
  simp only [List.forall_mem_cons]
  refine ⟨?_, rfl, ?_, rfl, helpersPlain _, by simp⟩
  · simp [systemHeaders, Item.isDefinition, List.isPrefixOf]
  · simp [linkageStart, Item.isDefinition, List.isPrefixOf]

theorem declares_closing (guard : String) :
    Document.Declares [.blank, linkageEnd, .blank, guardEnd guard] [] := by
  refine .cons_plain rfl (.cons_plain ?_ (.cons_plain rfl (.cons_plain ?_ .nil)))
  · simp [linkageEnd, Item.isDefinition, List.isPrefixOf]
  · simp [guardEnd, Item.isDefinition, List.isPrefixOf, toString]

theorem declares_guardStart (guard : String) : (guardStart guard).Declares [guard] :=
  .cons_plain (by simp [Item.isDefinition, List.isPrefixOf, toString])
    (.cons (.guard guard) (.cons_plain rfl .nil))

theorem declares_recordHeader (options : Options) (version : Option String) (fileName : String)
    {codecs : List Codec}
    (own : ∀ codec ∈ codecs, codec.fields.map Field.signal = codec.message.signals) :
    (recordHeader options version fileName codecs).Declares
      (guardName options fileName ::
        (definedNames options (codecs.map Codec.message)).map Name.text) := by
  have top : (banner options version "Message records and codecs").Declares [] :=
    .cons_plain rfl (.cons_plain rfl .nil)
  have macros : Document.Declares
      (codecs.flatMap fun codec => .blank :: macroItems options codec.message)
      (codecs.flatMap fun codec => (macroNames options codec.message).map Name.text) :=
    .flatMap fun codec _ => .cons_plain rfl (declares_macroItems options codec.message)
  have records : Document.Declares
      (codecs.flatMap fun codec => .blank :: recordItems options codec)
      (codecs.flatMap fun codec => [recordTag options codec.message]) :=
    .flatMap fun codec _ => .cons_plain rfl (declares_recordItems options codec)
  have functions : Document.Declares
      (codecs.flatMap fun codec => .blank :: messageFunctions options codec)
      (codecs.flatMap fun codec => (functionNames options codec.message).map Name.text) :=
    .flatMap fun codec member =>
      .cons_plain rfl (declares_messageFunctions options codec (own codec member))
  have whole := (((((top.append (declares_guardStart (guardName options fileName))).append
    declares_preamble).append macros).append records).append functions).append
      (declares_closing (guardName options fileName))
  have names : (definedNames options (codecs.map Codec.message)).map Name.text =
      codecs.flatMap (fun codec => (macroNames options codec.message).map Name.text) ++
        codecs.flatMap (fun codec => [recordTag options codec.message]) ++
        codecs.flatMap fun codec => (functionNames options codec.message).map Name.text := by
    simp only [definedNames, List.map_append, List.map_flatMap, List.flatMap_map, List.map_map,
      ← List.map_eq_flatMap]
    rfl
  rw [names]
  rw [List.append_nil] at whole
  exact whole

/-! ## Distinct identifiers -/

/-- The names of helper functions end in a digit, other names do not. -/
theorem Name.text_notMem_helpers (name : Name) : name.text ∉ helpers.map Function.name := by
  intro member
  have digits : ∀ helper ∈ helpers.map Function.name,
      helper.toList.getLast?.any Char.isDigit = true := by decide +kernel
  have last := digits _ member
  rw [Name.text, String.toList_append] at last
  cases ending : name.ending <;> simp [ending, Ending.text] at last

theorem nodup_helpers : (helpers.map Function.name).Nodup := by decide +kernel

theorem nodup_members_iff {codec : Codec} (packed : Bool)
    (own : codec.fields.map Field.signal = codec.message.signals) :
    ((members packed codec.fields).map Member.name).Nodup ↔
      (codec.message.signals.map memberName).Nodup := by
  rw [← own, List.map_map]
  cases codec.fields with
  | nil => simp [members]
  | cons field rest =>
      rw [members, List.map_map]
      · rfl
      · simp

theorem nodup_signalNames_iff (options : Options) (message : Message) :
    (signalNames options message).Nodup ↔ (message.signals.map memberName).Nodup := by
  have named : signalNames options message =
      (message.signals.map memberName).map (baseName options message ++ "_" ++ ·) := by
    rw [List.map_map]
    rfl
  have injective : Function.Injective (baseName options message ++ "_" ++ ·) := by
    intro first second same
    simpa [← String.toList_inj] using same
  rw [named, List.nodup_map_iff injective]

theorem map_signal_ofMessage (packed : Bool) (message : Message) :
    (Codec.ofMessage packed message).fields.map Field.signal = message.signals := by
  refine (RecordLayout.map_signal_layFields packed 0 0 _).trans ?_
  simp [Frame.placing, Function.comp_def]

theorem infix_flatMap_of_mem {lines : Codec → Document} {codecs : List Codec} {codec : Codec}
    (member : codec ∈ codecs) :
    lines codec <:+: codecs.flatMap fun codec => .blank :: lines codec :=
  (List.suffix_cons _ _).isInfix.trans (List.infix_of_mem_flatten (List.mem_map_of_mem member))

section

variable (options : Options) (version : Option String) (fileName : String) {codecs : List Codec}
  {codec : Codec} (member : codec ∈ codecs)

include member

theorem macroItems_infix_recordHeader :
    macroItems options codec.message <:+: recordHeader options version fileName codecs := by
  have header : (codecs.flatMap fun codec => .blank :: macroItems options codec.message) <:+:
      recordHeader options version fileName codecs := by
    simp only [recordHeader]
    rw [List.append_assoc _ (codecs.flatMap fun codec => _ :: recordItems options codec),
      List.append_assoc _ (_ ++ _)]
    exact List.infix_append _ _ _
  exact (infix_flatMap_of_mem member).trans header

theorem recordItems_infix_recordHeader :
    recordItems options codec <:+: recordHeader options version fileName codecs := by
  have header : (codecs.flatMap fun codec => .blank :: recordItems options codec) <:+:
      recordHeader options version fileName codecs := by
    simp only [recordHeader]
    rw [List.append_assoc _ (codecs.flatMap fun codec => _ :: messageFunctions options codec)]
    exact List.infix_append _ _ _
  exact (infix_flatMap_of_mem member).trans header

theorem messageFunctions_infix_recordHeader :
    messageFunctions options codec <:+: recordHeader options version fileName codecs :=
  (infix_flatMap_of_mem member).trans (List.infix_append _ _ _)

end

def wiperSchema : Schema where
  version := none
  messages :=
    [{ frameId := 0x31
       name := "WiperStatus"
       length := 2
       signals :=
        [{ name := "Mode", start := 0, length := 2, byteOrder := .littleEndian
           choices := some ⟨[(0, "Off"), (1, "Slow")], by simp [Ascending]⟩ },
          { name := "SweepSpeed", start := 8, length := 8, byteOrder := .littleEndian }]
       cycleTime := some 100 },
      { frameId := 0x32, name := "WiperRequest", length := 1, signals := [] }]
  sound := by decide

/-- Two messages with one name in lower case, two signals and two choices with one name, and
a signal whose name continues the name of its message. -/
def collidingSchema : Schema where
  version := none
  messages :=
    [{ frameId := 1
       name := "Foo"
       length := 2
       signals :=
        [{ name := "BarX", start := 0, length := 8, byteOrder := .littleEndian
           choices := some ⟨[(0, "Off"), (1, "off")], by simp [Ascending]⟩ },
          { name := "bar_x", start := 8, length := 8, byteOrder := .littleEndian }] },
      { frameId := 2
        name := "FooBar"
        length := 1
        signals := [{ name := "X", start := 0, length := 8, byteOrder := .littleEndian }] },
      { frameId := 3, name := "foo", length := 1, signals := [] }]
  sound := by decide

end CanCodec.C
