import CanCodec.Artifact
import CanCodec.Proofs.Codebook.Partition
import CanCodec.Proofs.C.Comments
import CanCodec.Proofs.Decimal.Style

/-! # Free text in generated C

A catalog's comments, units, senders and version stand in the comments of the generated
files. As long as none of them ends its comment, and neither does a name before it, they
leave no trace in the code: each file is compared with the one that is generated without
free text. -/

namespace CanCodec

/-! ## Catalogs without free text -/

def Signal.bare (signal : Signal) : Signal := { signal with unit := none, comment := none }

def Message.bare (message : Message) : Message :=
  { message with signals := message.signals.map Signal.bare, comment := none, senders := [] }

def Field.bare (field : Field) : Field := { field with signal := field.signal.bare }

def Codec.bare (codec : Codec) : Codec where
  message := codec.message.bare
  layout := { codec.layout with fields := codec.layout.fields.map Field.bare }

namespace RecordLayout

theorem map_bare_layFields (packed : Bool) (cursor index : Nat) (signals : List Signal) :
    (layFields packed cursor index (signals.map Frame.placing)).map Field.bare =
      layFields packed cursor index ((signals.map Signal.bare).map Frame.placing) := by
  induction signals generalizing cursor index with
  | nil => rfl
  | cons signal rest induction =>
      simp only [List.map_cons, layFields, induction]
      rfl

theorem stop_map_bare (fields : List Field) : stop (fields.map Field.bare) = stop fields := by
  rw [stop, List.foldl_map]
  rfl

theorem alignment_map_bare (fields : List Field) :
    alignment (fields.map Field.bare) = alignment fields := by
  rw [alignment, List.foldl_map]
  rfl

end RecordLayout

theorem Codec.bare_ofMessage (packed : Bool) (message : Message) :
    (ofMessage packed message).bare = ofMessage packed message.bare := by
  simp only [bare, ofMessage, RecordLayout.ofPlan, Message.bare,
    ← RecordLayout.map_bare_layFields, RecordLayout.stop_map_bare,
    RecordLayout.alignment_map_bare]

theorem Message.inFrame_bare {message : Message} : message.bare.InFrame ↔ message.InFrame := by
  simp only [InFrame, bare, List.forall_mem_map]
  rfl

theorem Codebook.map_bare_codecs {schema : Schema} {options : Options} {codebook : Codebook}
    (planned : plan schema options = .ok codebook) :
    codebook.codecs.map Codec.bare =
      ((schema.messages.map Message.bare).filter fun message => message.InFrame).map
        (Codec.ofMessage options.packed) := by
  rw [codecs_eq_map planned, List.map_map, List.filter_map, List.map_map]
  simp only [Function.comp_def, Codec.bare_ofMessage, Message.inFrame_bare]

/-! ## Code that knows no free text -/

namespace C

variable (options : Options) (codec : Codec)

theorem macroItems_bare :
    macroItems options codec.bare.message = macroItems options codec.message := by
  simp only [macroItems, messageMacros, Codec.bare, Message.bare, List.flatMap_map]
  rfl

theorem packFunction_bare : packFunction options codec.bare = packFunction options codec := by
  simp only [packFunction, packProcedure, Codec.bare, Codec.fields, rawVariables, List.map_map,
    List.flatMap_map, List.isEmpty_map]
  rfl

theorem unpackFunction_bare : unpackFunction options codec.bare = unpackFunction options codec := by
  simp only [unpackFunction, unpackProcedure, Codec.bare, Codec.fields, rawVariables, List.map_map,
    List.flatMap_map, List.isEmpty_map]
  rfl

theorem messageFunctions_bare :
    messageFunctions options codec.bare = messageFunctions options codec := by
  rw [messageFunctions, packFunction_bare, unpackFunction_bare]
  simp only [Codec.bare, Codec.fields, List.flatMap_map]
  rfl

theorem dispatchOrder_bare (codecs : List Codec) :
    dispatchOrder (codecs.map Codec.bare) = (dispatchOrder codecs).map Codec.bare := by
  refine (List.map_mergeSort fun first _ second _ => ?_).symm
  rfl

theorem dispatchTable_bare (rows : List Codec) :
    dispatchTable options (rows.map Codec.bare) = dispatchTable options rows := by
  simp only [dispatchTable, List.isEmpty_map, List.map_map]
  rfl

theorem messageCount_bare (codecs : List Codec) :
    messageCount options (codecs.map Codec.bare) = messageCount options codecs := by
  simp only [messageCount, List.length_map]

theorem lookupProcedure_bare (codecs : List Codec) :
    lookupProcedure options (codecs.map Codec.bare) = lookupProcedure options codecs := by
  simp only [lookupProcedure, messageCount_bare]

/-! ## Texts that end no comment -/

def NoSlash (text : String) : Prop := '/' ∉ text.toList

instance (text : String) : Decidable (NoSlash text) := inferInstanceAs (Decidable (¬ _))

@[simp] theorem noSlash_append {first second : String} :
    NoSlash (first ++ second) ↔ NoSlash first ∧ NoSlash second := by
  simp only [NoSlash, String.toList_append, List.mem_append, not_or]

@[simp] theorem noSlash_toString {text : String} : NoSlash (toString text) ↔ NoSlash text := .rfl

theorem IsClean.of_noSlash {text : String} (noSlash : NoSlash text) : IsClean text :=
  ends_eq_false_of_notMem noSlash

theorem isClean_append_break {before after : String} {character : Char}
    (isBreak : IsBreak character) (beforeClean : IsClean before) (afterClean : IsClean after) :
    IsClean (before ++ String.singleton character ++ after) := by
  rw [IsClean, String.toList_append, String.toList_append, String.toList_singleton,
    List.append_assoc, List.singleton_append, ends_append_break isBreak, beforeClean, afterClean]
  rfl

theorem isClean_after {label text : String} (spaced : label.toList.getLast? = some ' ')
    (noSlash : NoSlash label) (clean : IsClean text) : IsClean (label ++ text) := by
  rcases List.getLast?_eq_some_iff.mp spaced with ⟨before, labelEqual⟩
  have start : ends before = false := ends_eq_false_of_notMem fun member =>
    noSlash (labelEqual ▸ List.mem_append_left [' '] member)
  rw [IsClean, String.toList_append, labelEqual, List.append_assoc, List.singleton_append,
    ends_append_break (by decide), start, clean]
  rfl

theorem isClean_docLine {text : String} (clean : IsClean text) : IsClean (docLine text) :=
  isClean_after rfl (by decide) clean

@[simp] theorem noSlash_nat (value : Nat) : NoSlash (toString value) := by
  intro member
  have digits : (toString value).toList = Nat.toDigits 10 value := Nat.toList_repr
  rw [digits] at member
  exact absurd (Nat.isDigit_of_mem_toDigits (by decide) (by decide) member) (by decide)

@[simp] theorem noSlash_int (value : Int) : NoSlash (toString value) := by
  rw [Int.toString_eq_repr, Int.repr_eq_if]
  split
  · exact noSlash_nat _
  · exact noSlash_append.mpr ⟨by decide, noSlash_nat _⟩

@[simp] theorem noSlash_plain (value : Float) : NoSlash (FloatStyle.plain.write value) :=
  fun member => absurd (FloatStyle.isFigure_of_mem_write member) (by decide)

@[simp] theorem noSlash_byteOrder (order : ByteOrder) : NoSlash order.name := by
  cases order <;> decide

theorem isClean_between {before inner after : String} (start : NoSlash before)
    (clean : IsClean inner) (stop : NoSlash after) {first last : Char} (opens : IsBreak first)
    (closes : IsBreak last) :
    IsClean (before ++ String.singleton first ++ inner ++ String.singleton last ++ after) :=
  isClean_append_break closes (isClean_append_break opens (.of_noSlash start) clean)
    (.of_noSlash stop)

theorem isClean_rangeText {signal : Signal} (unitClean : ∀ text ∈ signal.unit, IsClean text) :
    IsClean (rangeText signal) := by
  rw [rangeText]
  split
  next minimum maximum _ _ =>
    have unit : IsClean (signal.unit.getD "-") := by
      cases given : signal.unit with
      | none => decide
      | some text => exact unitClean text given
    have start : NoSlash (s!"Range: {signal.range.low}..{signal.range.high}" ++
        s!" ({FloatStyle.plain.write minimum}..{FloatStyle.plain.write maximum}") := by
      simp only [noSlash_append, noSlash_toString, noSlash_int, noSlash_plain, and_true]
      decide
    have stop : NoSlash "" := by decide
    have between := @isClean_between _ _ _ start unit stop ' ' ')' (by decide) (by decide)
    simpa [String.append_assoc, toString] using between
  next =>
    refine .of_noSlash ?_
    simp only [noSlash_append, noSlash_toString, noSlash_int, and_true]
    decide

theorem isClean_intercalate {texts : List String} (clean : ∀ text ∈ texts, IsClean text) :
    IsClean (", ".intercalate texts) := by
  induction texts with
  | nil => decide
  | cons text rest induction =>
      have textClean := clean text List.mem_cons_self
      have others := induction fun other member => clean other (List.mem_cons_of_mem text member)
      cases rest with
      | nil => simpa using textClean
      | cons next later =>
          have separator : ", ".toList = [',', ' '] := rfl
          rw [IsClean, String.intercalate_cons_cons, String.toList_append, String.toList_append,
            separator, List.append_assoc, List.cons_append, List.cons_append, List.nil_append,
            ends_append_break (by decide), ends_cons_of_break (by decide), textClean, others]
          rfl

end C

/-! ## Catalogs whose texts end no comment -/

open C

structure Signal.CleanTexts (signal : Signal) : Prop where
  comment : ∀ text ∈ signal.comment, IsClean text
  unit : ∀ text ∈ signal.unit, IsClean text

/-- The free texts of a message, and the name that stands before them, end no comment. -/
structure Message.CleanTexts (message : Message) : Prop where
  name : IsClean message.name
  comment : ∀ text ∈ message.comment, IsClean text
  senders : ∀ sender ∈ message.senders, IsClean sender
  signals : ∀ signal ∈ message.signals, signal.CleanTexts

theorem Signal.cleanTexts_bare (signal : Signal) : signal.bare.CleanTexts :=
  ⟨by simp [bare], by simp [bare]⟩

theorem Message.CleanTexts.bare {message : Message} (clean : message.CleanTexts) :
    message.bare.CleanTexts where
  name := clean.name
  comment := by simp [Message.bare]
  senders := by simp [Message.bare]
  signals := by
    intro signal member
    rcases List.mem_map.mp member with ⟨source, -, rfl⟩
    exact source.cleanTexts_bare

structure Schema.CleanTexts (schema : Schema) : Prop where
  version : ∀ text ∈ schema.version, IsClean text
  messages : ∀ message ∈ schema.messages, message.CleanTexts

namespace C

theorem opens_file : Item.Opens "" "/*" := ⟨by simp, .inl rfl⟩

theorem opens_doc : Item.Opens "" "/**" := ⟨by simp, .inr rfl⟩

theorem opens_memberDoc : Item.Opens "    " "/**" := ⟨by simp [IsBreak], .inr rfl⟩

theorem clean_optional {comment : Option String} (clean : ∀ text ∈ comment, IsClean text) :
    ∀ line ∈ (comment.map fun comment => [docLine comment, docBreak]).getD [], IsClean line := by
  cases comment with
  | none => simp
  | some text =>
      intro line member
      rcases List.mem_cons.mp member with rfl | member
      · exact isClean_docLine (clean text rfl)
      · rw [List.mem_singleton.mp member]
        decide

theorem exists_banner_lines {options : Options} {version : Option String} {content : String}
    (database : IsClean options.database) (contentClean : IsClean content)
    (clean : ∀ text ∈ version, IsClean text) :
    ∃ lines, banner options version content = [.comment "" "/*" lines, .blank] ∧
      ∀ line ∈ lines, IsClean line := by
  refine ⟨_, rfl, ?_⟩
  simp only [List.forall_mem_append, List.forall_mem_cons, List.not_mem_nil, false_implies,
    implies_true, and_true]
  refine ⟨⟨⟨isClean_docLine (by decide), isClean_docLine ?_, isClean_docLine contentClean⟩, ?_⟩, ?_⟩
  · exact isClean_after rfl (by decide) database
  · cases version with
    | none => simp
    | some text =>
        intro line member
        rw [List.mem_singleton.mp member]
        exact isClean_docLine (isClean_after rfl (by decide) (clean text rfl))
  · split
    · simpa using isClean_docLine (by decide)
    · simp

theorem exists_memberDoc_lines {field : Field} (clean : field.signal.CleanTexts) :
    ∃ lines, memberDoc field = .doc "    " lines ∧ ∀ line ∈ lines, IsClean line := by
  refine ⟨_, rfl, ?_⟩
  simp only [List.forall_mem_append, List.forall_mem_cons, List.not_mem_nil, false_implies,
    implies_true, and_true]
  refine ⟨⟨clean_optional clean.comment, isClean_docLine (isClean_rangeText clean.unit),
    isClean_docLine (.of_noSlash ?_), isClean_docLine (.of_noSlash ?_),
    isClean_docLine (.of_noSlash ?_)⟩, ?_⟩
  · simp only [noSlash_append, noSlash_toString, noSlash_plain, and_true]
    decide
  · simp only [noSlash_append, noSlash_toString, noSlash_plain, and_true]
    decide
  · simp only [noSlash_append, noSlash_toString, noSlash_nat, noSlash_byteOrder, and_true]
    decide
  · split
    · simpa using isClean_docLine (by decide)
    · simp

theorem exists_recordDoc_lines {codec : Codec} (clean : codec.message.CleanTexts) :
    ∃ lines, recordDoc codec = .doc "" lines ∧ ∀ line ∈ lines, IsClean line := by
  refine ⟨_, rfl, ?_⟩
  simp only [List.forall_mem_append, List.forall_mem_cons, List.not_mem_nil, false_implies,
    implies_true, and_true]
  refine ⟨⟨⟨⟨isClean_docLine ?_, by decide⟩, clean_optional clean.comment⟩, ?_⟩,
    isClean_docLine (.of_noSlash ?_), by decide, isClean_docLine (by decide)⟩
  · have named : IsClean (codec.message.name ++ String.singleton '.' ++ "") :=
      isClean_append_break (by decide) clean.name (by decide)
    have line :
        IsClean ("Signals in message " ++ (codec.message.name ++ String.singleton '.' ++ "")) :=
      isClean_after rfl (by decide) named
    simpa [String.append_assoc, toString] using line
  · split
    · simp
    · simpa using isClean_docLine
        (isClean_after rfl (by decide) (isClean_intercalate clean.senders))
  · simp only [noSlash_append, noSlash_toString, noSlash_nat, and_true]
    decide

theorem alike_banner {options : Options} {version : Option String} {content : String}
    (database : IsClean options.database) (contentClean : IsClean content)
    (clean : ∀ text ∈ version, IsClean text) :
    Document.Alike (banner options version content) (banner options none content) := by
  rcases exists_banner_lines database contentClean clean with ⟨lines, equal, linesClean⟩
  rcases @exists_banner_lines options none content database contentClean (by simp) with
    ⟨bareLines, bareEqual, bareClean⟩
  rw [equal, bareEqual]
  exact .cons (.comment _ _ _ _ opens_file linesClean bareClean) (.cons (.same _) .nil)

theorem alike_memberItems {packed : Bool} {field : Field} (clean : field.signal.CleanTexts) :
    Document.Alike (memberItems packed field) (memberItems packed field.bare) := by
  rcases exists_memberDoc_lines clean with ⟨lines, equal, linesClean⟩
  rcases @exists_memberDoc_lines field.bare field.signal.cleanTexts_bare with
    ⟨bareLines, bareEqual, bareClean⟩
  rw [memberItems, memberItems, equal, bareEqual]
  exact .cons (.comment _ _ _ _ opens_memberDoc linesClean bareClean) (.cons (.same _) .nil)

theorem alike_memberList {packed : Bool} {fields : List Field}
    (clean : ∀ field ∈ fields, field.signal.CleanTexts) :
    Document.Alike (memberList packed fields) (memberList packed (fields.map Field.bare)) := by
  induction fields with
  | nil => exact .refl _
  | cons field rest induction =>
      have head : Document.Alike (memberItems packed field) (memberItems packed field.bare) :=
        alike_memberItems (clean field List.mem_cons_self)
      have later := induction fun other member => clean other (List.mem_cons_of_mem field member)
      cases rest with
      | nil => exact head
      | cons next others => exact head.append (.cons (.same .blank) later)

theorem alike_recordItems {options : Options} {codec : Codec} (clean : codec.message.CleanTexts)
    (fields : ∀ field ∈ codec.fields, field.signal.CleanTexts) :
    Document.Alike (recordItems options codec) (recordItems options codec.bare) := by
  rcases exists_recordDoc_lines clean with ⟨lines, equal, linesClean⟩
  rcases @exists_recordDoc_lines codec.bare clean.bare with ⟨bareLines, bareEqual, bareClean⟩
  rw [recordItems, recordItems, equal, bareEqual]
  have head : Item.Alike (.doc "" lines) (.doc "" bareLines) :=
    .comment _ _ _ _ opens_doc linesClean bareClean
  refine Document.Alike.append (.append (.cons head (.cons (.same _) .nil)) ?_) (.refl _)
  exact alike_memberList fields

/-! ## Files -/

theorem recordHeader_bare {options : Options} {version : Option String} {codecs : List Codec}
    (fileName : String) (database : IsClean options.database)
    (versionClean : ∀ text ∈ version, IsClean text)
    (clean : ∀ codec ∈ codecs, codec.message.CleanTexts ∧
      ∀ field ∈ codec.fields, field.signal.CleanTexts) :
    withoutComments (recordHeader options version fileName codecs).text =
      withoutComments (recordHeader options none fileName (codecs.map Codec.bare)).text := by
  apply Document.Alike.withoutComments_eq
  have macros : (codecs.map Codec.bare).flatMap
        (fun codec => .blank :: macroItems options codec.message) =
      codecs.flatMap fun codec => .blank :: macroItems options codec.message := by
    simp only [List.flatMap_map, macroItems_bare]
  have functions : (codecs.map Codec.bare).flatMap
        (fun codec => .blank :: messageFunctions options codec) =
      codecs.flatMap fun codec => .blank :: messageFunctions options codec := by
    simp only [List.flatMap_map, messageFunctions_bare]
  have records : Document.Alike (codecs.flatMap fun codec => .blank :: recordItems options codec)
      ((codecs.map Codec.bare).flatMap fun codec => .blank :: recordItems options codec) := by
    rw [List.flatMap_map]
    exact .flatMap fun codec member =>
      .cons (.same _) (alike_recordItems (clean codec member).1 (clean codec member).2)
  simp only [recordHeader]
  rw [macros, functions]
  exact (((((alike_banner database (by decide) versionClean).append (.refl _)).append
    (.refl _)).append (.refl _)).append records).append (.refl _) |>.append (.refl _)

theorem dispatchHeader_bare {options : Options} {version : Option String} {codecs : List Codec}
    (fileName recordFile : String) (database : IsClean options.database)
    (versionClean : ∀ text ∈ version, IsClean text) :
    withoutComments (dispatchHeader options version fileName recordFile codecs).text =
      withoutComments
        (dispatchHeader options none fileName recordFile (codecs.map Codec.bare)).text := by
  apply Document.Alike.withoutComments_eq
  simp only [dispatchHeader, messageCount_bare]
  have top := @alike_banner options version "Transceiver declarations" database (by decide)
    versionClean
  exact ((((top.append (.refl _)).append (.refl _)).append (.refl _)).append (.refl _)).append
    (.refl _) |>.append (.refl _)

theorem dispatchSource_bare {options : Options} {version : Option String} {codecs : List Codec}
    (headerPath : String) (database : IsClean options.database)
    (versionClean : ∀ text ∈ version, IsClean text) :
    withoutComments (dispatchSource options version headerPath codecs).text =
      withoutComments (dispatchSource options none headerPath (codecs.map Codec.bare)).text := by
  apply Document.Alike.withoutComments_eq
  simp only [dispatchSource, dispatchOrder_bare, dispatchTable_bare, lookupProcedure_bare,
    List.flatMap_map]
  have top := @alike_banner options version "Transceiver implementation" database (by decide)
    versionClean
  exact ((((top.append (.refl _)).append (.refl _)).append (.refl _)).append (.refl _)).append
    (.refl _) |>.append (.refl _)

end C

/-! ## Runs -/

def Artifact.code (artifact : Artifact) : Role × String × String :=
  (artifact.role, artifact.name, C.withoutComments artifact.content)

theorem Codebook.cleanTexts_of_plan {schema : Schema} {options : Options} {codebook : Codebook}
    (planned : plan schema options = .ok codebook) (clean : schema.CleanTexts) :
    ∀ codec ∈ codebook.codecs, codec.message.CleanTexts ∧
      ∀ field ∈ codec.fields, field.signal.CleanTexts := by
  intro codec member
  rw [codecs_eq_map planned] at member
  rcases List.mem_map.mp member with ⟨message, messageMember, rfl⟩
  have messageClean := clean.messages message (List.mem_of_mem_filter messageMember)
  refine ⟨messageClean, fun field fieldMember => ?_⟩
  rcases RecordLayout.exists_of_mem_layFields fieldMember with ⟨placed, placedMember, same, -⟩
  rcases List.mem_map.mp placedMember with ⟨signal, signalMember, rfl⟩
  rw [same]
  exact messageClean.signals signal signalMember

/-- What the files of a plan hold outside of comments is fixed by the catalog without its
free texts. -/
theorem Generated.code_dispatch {schema : Schema} {options : Options} {codebook : Codebook}
    (names : ArtifactNames) (planned : Codebook.plan schema options = .ok codebook)
    (database : C.IsClean options.database) (clean : schema.CleanTexts) :
    (dispatch schema options names codebook).artifacts.map Artifact.code =
      let codecs := ((schema.messages.map Message.bare).filter fun message => message.InFrame).map
        (Codec.ofMessage options.packed)
      [(.records, names.records, C.withoutComments
          (C.recordHeader options none names.records codecs).text),
        (.dispatchDeclarations, names.declarations, C.withoutComments
          (C.dispatchHeader options none names.declarations names.records codecs).text),
        (.dispatchImplementation, names.implementation, C.withoutComments
          (C.dispatchSource options none names.declarationsPath codecs).text)] := by
  have codecsClean := Codebook.cleanTexts_of_plan planned clean
  simp only [dispatch, List.map_cons, List.map_nil, Artifact.code, Artifact.recordHeader,
    C.recordHeader_bare names.records database clean.version codecsClean,
    C.dispatchHeader_bare names.declarations names.records database clean.version,
    C.dispatchSource_bare names.declarationsPath database clean.version,
    Codebook.map_bare_codecs planned]

/-- Two catalogs that differ in free texts only give files that differ in comments only, if
no free text and no name before one ends its comment. -/
theorem Generated.code_eq_of_bare_eq (first second : Schema) (options : Options)
    (names : ArtifactNames) (firstBook secondBook : Codebook)
    (firstPlanned : Codebook.plan first options = .ok firstBook)
    (secondPlanned : Codebook.plan second options = .ok secondBook)
    (same : first.messages.map Message.bare = second.messages.map Message.bare)
    (database : C.IsClean options.database) (firstClean : first.CleanTexts)
    (secondClean : second.CleanTexts) :
    (dispatch first options names firstBook).artifacts.map Artifact.code =
      (dispatch second options names secondBook).artifacts.map Artifact.code := by
  rw [code_dispatch names firstPlanned database firstClean,
    code_dispatch names secondPlanned database secondClean, same]

namespace Generated

def noted : Message where
  frameId := 0x31
  name := "Beacon"
  length := 1
  comment := some "On/off."
  senders := ["Gateway"]
  signals :=
    [{ name := "Speed", start := 0, length := 8, byteOrder := .littleEndian, unit := some "m/s"
       comment := some "Over ground*", bounds := { minimum := some 0, maximum := some 100 } }]

def notedSchema : Schema where
  version := some "1.0"
  messages := [noted]
  sound := by decide

/-- The message without its texts, in a catalog with some version. -/
def versionSchema (version : Option String) : Schema where
  version := version
  messages := [noted.bare]
  sound := by decide

theorem code_eq_of_bare_eq_noted :
    (dispatch notedSchema {} {} ⟨[.ofMessage false noted], []⟩).artifacts.map Artifact.code =
      (dispatch (versionSchema none) {} {} ⟨[.ofMessage false noted.bare], []⟩).artifacts.map
        Artifact.code := by
  have clean : noted.CleanTexts := by
    refine ⟨by decide, by decide, by decide, fun signal member => ?_⟩
    rw [List.mem_singleton.mp member]
    exact ⟨by decide, by decide⟩
  have notedClean : notedSchema.CleanTexts :=
    ⟨by decide, fun message member => List.mem_singleton.mp member ▸ clean⟩
  have bareClean : (versionSchema none).CleanTexts :=
    ⟨by decide, fun message member => List.mem_singleton.mp member ▸ clean.bare⟩
  exact code_eq_of_bare_eq _ _ {} {} _ _ (by rfl) (by rfl) (by rfl) (by decide) notedClean bareClean

theorem head_code_recordHeader {version : Option String} {fileName : String} {codebook : Codebook}
    {lines : List String} {head : Option Char}
    (top : C.banner {} version "Message records and codecs" = [.comment "" "/*" lines, .blank])
    (left : ∀ after, (C.erase false ((C.Item.comment "" "/*" lines).text.toList ++ after)).head? =
      head) :
    (Artifact.recordHeader (versionSchema version) {} fileName codebook).code.2.2.toList.head? =
      head := by
  simp only [Artifact.code, Artifact.recordHeader, C.withoutComments, String.toList_ofList,
    versionSchema, C.recordHeader, top, List.cons_append, C.Document.text, List.map_cons,
    String.join_cons, String.toList_append, left]

/-- A version that ends its comment and opens another puts its middle into the code. -/
theorem code_differs_terminated :
    Codebook.plan (versionSchema (some "*/ int injected; /*")) {} =
        .ok ⟨[.ofMessage false noted.bare], []⟩ ∧
      Codebook.plan (versionSchema none) {} = .ok ⟨[.ofMessage false noted.bare], []⟩ ∧
      (versionSchema (some "*/ int injected; /*")).messages.map Message.bare =
        (versionSchema none).messages.map Message.bare ∧
      (dispatch (versionSchema (some "*/ int injected; /*")) {} {}
          ⟨[.ofMessage false noted.bare], []⟩).artifacts.map Artifact.code ≠
        (dispatch (versionSchema none) {} {} ⟨[.ofMessage false noted.bare], []⟩).artifacts.map
          Artifact.code := by
  refine ⟨by rfl, by rfl, by rfl, fun same => ?_⟩
  have heads := congrArg (fun codes => codes.head?.map fun code => code.2.2.toList.head?) same
  simp only [dispatch, List.map_cons, List.head?_cons, Option.map_some, Option.some.injEq] at heads
  let lines := [C.docLine "Auto-generated by can_endec_gen.", C.docLine "Database: can",
    C.docLine "Message records and codecs"]
  have first : (Artifact.recordHeader (versionSchema (some "*/ int injected; /*")) {} "endec.hpp"
      ⟨[.ofMessage false noted.bare], []⟩).code.2.2.toList.head? = some ' ' := by
    refine @head_code_recordHeader _ _ _
      (lines ++ [" * Catalog version: " ++ "*/" ++ " int injected; /*"]) _ rfl fun after => ?_
    rcases @C.Item.erase_comment_of_ended lines " * Catalog version: " (by decide) (by decide)
      " int injected; /*" [] after with ⟨tail, erased⟩
    rw [erased]
    exact congrArg List.head? (C.erase_cons_of_break (by decide) false _)
  have second : (Artifact.recordHeader (versionSchema none) {} "endec.hpp"
      ⟨[.ofMessage false noted.bare], []⟩).code.2.2.toList.head? = some '\n' := by
    rcases @C.exists_banner_lines {} none "Message records and codecs" (by decide) (by decide)
      nofun with ⟨lines, top, clean⟩
    refine head_code_recordHeader top fun after => ?_
    rw [(C.Item.erase_comment C.opens_file clean after).1]
    rfl
  rw [first, second] at heads
  cases heads

end Generated

end CanCodec
