import CanCodec.Definition
import CanCodec.Proofs.Codec
import CanCodec.Proofs.Decimal.Style
import CanCodec.Proofs.Split

/-! # Free text in definitions

Comments, units and bounds stand in lines that start with `#`. A comment is cut into lines
first and a bound is one line, so neither leaves its lines. A unit is written as it is: what
follows its first line break stands in lines of its own. The other lines are then those of the
definition without notes, with the lines that units break off put between them. -/

namespace CanCodec

/-! ## Messages without notes -/

def Signal.unannotated (signal : Signal) : Signal :=
  { signal with bounds := {}, unit := none, comment := none }

def Message.unannotated (message : Message) : Message :=
  { message with signals := message.signals.map Signal.unannotated, comment := none }

/-! ## Lines of a free text -/

theorem Text.notMem_of_mem_lineList {characters line : List Char}
    (member : line ∈ lineList characters) : '\n' ∉ line := by
  induction characters using lineList.induct generalizing line with
  | case1 => cases member
  | case2 rest induction =>
      rw [lineList] at member
      rcases List.mem_cons.mp member with rfl | member
      · exact List.not_mem_nil
      · exact induction member
  | case3 rest _ induction =>
      rw [lineList, if_pos rfl] at member
      rcases List.mem_cons.mp member with rfl | member
      · exact List.not_mem_nil
      · exact induction member
      assumption
  | case4 character rest _ different induction =>
      rw [lineList, if_neg different] at member
      · cases lines : lineList rest with
        | nil =>
            rw [lines, extendFirst] at member
            rw [List.mem_singleton.mp member, List.mem_singleton]
            exact Ne.symm different
        | cons first others =>
            rw [lines, extendFirst] at member
            rw [lines] at induction
            rcases List.mem_cons.mp member with rfl | member
            · rw [List.mem_cons, not_or]
              exact ⟨Ne.symm different, induction List.mem_cons_self⟩
            · exact induction (List.mem_cons_of_mem first member)
      assumption

namespace Definition

/-! ## Code lines -/

def IsCode (line : List Char) : Bool := line.head? != some '#'

def codeLines (text : List Char) : List (List Char) := (Text.split '\n' text).filter IsCode

/-- The lines that a text puts after a `#` before it. -/
def strayLines (text : List Char) : List (List Char) :=
  (Text.split '\n' text).tail.filter IsCode

theorem codeLines_append_break (before after : List Char) :
    codeLines (before ++ '\n' :: after) = codeLines before ++ codeLines after := by
  rw [codeLines, Text.split_append_separator, List.filter_append]
  rfl

theorem split_cons_of_ne {character : Char} (different : character ≠ '\n') (text : List Char) :
    ∃ first others, Text.split '\n' text = first :: others ∧
      Text.split '\n' (character :: text) = (character :: first) :: others := by
  cases parts : Text.split '\n' text with
  | nil => exact absurd parts (Text.split_ne_nil _ _)
  | cons first others => exact ⟨first, others, rfl, by rw [Text.split, if_neg different, parts]⟩

theorem codeLines_hash (text : List Char) : codeLines ('#' :: text) = strayLines text := by
  rcases split_cons_of_ne (by decide : '#' ≠ '\n') text with ⟨first, others, parts, hashed⟩
  rw [codeLines, strayLines, hashed, parts]
  exact List.filter_cons_of_neg (by simp [IsCode])

theorem strayLines_append {before : List Char} (absent : '\n' ∉ before) (after : List Char) :
    strayLines (before ++ after) = strayLines after := by
  induction before with
  | nil => rfl
  | cons character rest induction =>
      rw [List.mem_cons, not_or] at absent
      rcases split_cons_of_ne (Ne.symm absent.1) (rest ++ after) with
        ⟨first, others, parts, extended⟩
      rw [← induction absent.2, List.cons_append, strayLines, strayLines, extended, parts]
      rfl

theorem strayLines_of_notMem {text : List Char} (absent : '\n' ∉ text) : strayLines text = [] := by
  rw [strayLines, Text.split_of_notMem absent]
  rfl

/-! ## Code lines of a definition -/

def Line.content (line : Line) : List Char := line.text.toList.dropLast

theorem Line.toList_text (line : Line) : line.text.toList = line.content ++ ['\n'] := by
  have ended : ∃ content, line.text.toList = content ++ ['\n'] := by
    cases line with
    | blank => exact ⟨[], rfl⟩
    | note text => exact ⟨_, String.toList_append⟩
    | constant type name value => exact ⟨_, String.toList_append⟩
    | field type name default => cases default <;> exact ⟨_, String.toList_append⟩
  rcases ended with ⟨characters, equal⟩
  rw [content, equal, List.dropLast_concat]

def Line.code (line : Line) : List (List Char) := codeLines line.content

theorem codeLines_join (lines : List Line) :
    codeLines (String.join (lines.map Line.text)).toList = lines.flatMap Line.code ++ [[]] := by
  induction lines with
  | nil => rfl
  | cons line rest induction =>
      rw [List.map_cons, String.join_cons, String.toList_append, line.toList_text,
        List.append_assoc, List.singleton_append, codeLines_append_break, induction,
        List.flatMap_cons, List.append_assoc]
      rfl

theorem Line.code_note (text : String) : (note text).code = strayLines text.toList := by
  have content : (note text).content = '#' :: ' ' :: text.toList := by
    have split := (note text).toList_text
    rw [Line.text, String.toList_append, String.toList_append] at split
    exact (List.append_cancel_right split).symm
  rw [code, content, codeLines_hash]
  exact strayLines_append (by decide : '\n' ∉ [' ']) _

def brokenOff (signal : Signal) : List (List Char) :=
  (signal.unit.map fun unit => strayLines unit.toList).getD []

theorem code_noteLines (text : Option String) : (noteLines text).flatMap Line.code = [] := by
  cases text with
  | none => rfl
  | some text =>
      refine List.flatMap_eq_nil_iff.mpr fun line member => ?_
      rcases List.mem_map.mp member with ⟨content, contentMember, rfl⟩
      rcases List.mem_map.mp contentMember with ⟨characters, charactersMember, rfl⟩
      rw [Line.code_note, String.toList_ofList]
      exact strayLines_of_notMem (Text.notMem_of_mem_lineList charactersMember)

theorem notMem_plain (value : Float) : '\n' ∉ (FloatStyle.plain.write value).toList := fun member =>
  absurd (FloatStyle.isFigure_of_mem_write member) (by decide)

theorem code_boundsLines (bounds : Bounds Float) :
    (boundsLines bounds).flatMap Line.code = [] := by
  have code (text : String) (oneLine : '\n' ∉ text.toList) :
      [Line.note text].flatMap Line.code = [] := by
    rw [List.flatMap_singleton, Line.code_note, strayLines_of_notMem oneLine]
  rcases bounds with ⟨_ | minimum, _ | maximum⟩
  · rfl
  · exact code _ (by simp [toString, notMem_plain])
  · exact code _ (by simp [toString, notMem_plain])
  · exact code _ (by simp [toString, notMem_plain])

def declaredLines (signal : Signal) : List (List Char) :=
  let field : Field := ⟨0, signal, [], 0, 0⟩
  (constantLines field).flatMap Line.code ++
    (Line.field (fieldType field) (fieldName signal) (defaultText field)).code

/-- The code lines of a signal: a blank one, what its unit breaks off, and its declarations. -/
def signalLines (signal : Signal) : List (List Char) :=
  [] :: (brokenOff signal ++ declaredLines signal.unannotated)

theorem code_fieldLines (field : Field) :
    (fieldLines field).flatMap Line.code = signalLines field.signal := by
  have unit : (field.signal.unit.map fun unit => Line.note s!"Unit: {unit}").toList.flatMap
      Line.code = brokenOff field.signal := by
    rw [brokenOff]
    cases field.signal.unit with
    | none => rfl
    | some unit =>
        rw [Option.map_some, Option.toList_some, List.flatMap_singleton, Line.code_note,
          String.toList_append, strayLines_append (by decide)]
        rfl
  simp only [fieldLines, List.flatMap_append, code_noteLines, unit, code_boundsLines,
    List.append_assoc, List.flatMap_singleton]
  rfl

theorem code_headLines (message : Message) :
    (headLines message).flatMap Line.code =
      (headLines message.unannotated).flatMap Line.code := by
  simp only [headLines, List.flatMap_append, code_noteLines]
  rfl

/-- The code lines of a definition are those of the message without notes, with the lines that
units break off in between. -/
theorem codeLines_text {message : Message} {packed strict : Bool} {codec : Codec}
    (planned : Codec.plan message packed strict = .ok codec) :
    codeLines (text codec).toList =
      (headLines message.unannotated).flatMap Line.code ++
        message.signals.flatMap signalLines ++ [[]] := by
  rcases Codec.plan_ok_iff.mp planned with ⟨-, -, equal⟩
  have messageEqual : codec.message = message := by rw [equal]
  have signals : codec.fields.map Field.signal = message.signals := by
    rw [equal, Codec.fields, RecordLayout.ofPlan, RecordLayout.map_signal_layFields, List.map_map]
    exact List.map_id _
  rw [text, codeLines_join, lines, List.flatMap_append, code_headLines, List.flatMap_assoc,
    messageEqual, ← signals, List.flatMap_map]
  simp only [code_fieldLines]

/-! ## Two messages -/

section

variable {first second : List Signal}

theorem flatMap_signalLines_eq
    (same : first.map Signal.unannotated = second.map Signal.unannotated)
    (units : first.map brokenOff = second.map brokenOff) :
    first.flatMap signalLines = second.flatMap signalLines := by
  induction first generalizing second with
  | nil =>
      rw [List.map_nil, eq_comm, List.map_eq_nil_iff] at same
      rw [same]
  | cons signal rest induction =>
      cases second with
      | nil => cases same
      | cons other others =>
          rw [List.map_cons, List.map_cons, List.cons.injEq] at same units
          rw [List.flatMap_cons, List.flatMap_cons, induction same.2 units.2, signalLines,
            signalLines, same.1, units.1]

theorem length_flatMap_signalLines
    (same : first.map Signal.unannotated = second.map Signal.unannotated) :
    (first.flatMap signalLines).length + (second.flatMap brokenOff).length =
      (second.flatMap signalLines).length + (first.flatMap brokenOff).length := by
  induction first generalizing second with
  | nil =>
      rw [List.map_nil, eq_comm, List.map_eq_nil_iff] at same
      rw [same]
  | cons signal rest induction =>
      cases second with
      | nil => cases same
      | cons other others =>
          rw [List.map_cons, List.map_cons, List.cons.injEq] at same
          have counted := induction same.2
          simp only [List.flatMap_cons, List.length_append, signalLines, List.length_cons, same.1]
          omega

end

theorem brokenOff_of_notMem {signal : Signal}
    (oneLine : ∀ unit ∈ signal.unit, '\n' ∉ unit.toList) : brokenOff signal = [] := by
  rw [brokenOff]
  cases given : signal.unit with
  | none => rfl
  | some unit => exact strayLines_of_notMem (oneLine unit given)

/-- The code lines of two messages that differ in comments, units and bounds only. Comments and
bounds put nothing there: the code lines are the same if each signal's unit breaks off the same
lines in both messages, as units without line breaks do. Each line that a unit breaks off is one
code line more; so beside a message whose units break off nothing, the code lines are the same
only if the units of the other one break off nothing either. -/
theorem codeLines_differ_by_units (first second : Message)
    (firstPacked firstStrict secondPacked secondStrict : Bool) (firstCodec secondCodec : Codec)
    (firstPlanned : Codec.plan first firstPacked firstStrict = .ok firstCodec)
    (secondPlanned : Codec.plan second secondPacked secondStrict = .ok secondCodec)
    (same : first.unannotated = second.unannotated) :
    ((∀ signal ∈ first.signals ++ second.signals, ∀ unit ∈ signal.unit, '\n' ∉ unit.toList) →
      codeLines (text firstCodec).toList = codeLines (text secondCodec).toList) ∧
    (first.signals.map brokenOff = second.signals.map brokenOff →
      codeLines (text firstCodec).toList = codeLines (text secondCodec).toList) ∧
    (codeLines (text firstCodec).toList).length + (second.signals.flatMap brokenOff).length =
      (codeLines (text secondCodec).toList).length + (first.signals.flatMap brokenOff).length ∧
    ((∀ signal ∈ second.signals, brokenOff signal = []) →
      (codeLines (text firstCodec).toList = codeLines (text secondCodec).toList ↔
        ∀ signal ∈ first.signals, brokenOff signal = [])) := by
  have signals : first.signals.map Signal.unannotated = second.signals.map Signal.unannotated :=
    congrArg Message.signals same
  have unitsAgree (units : first.signals.map brokenOff = second.signals.map brokenOff) :
      codeLines (text firstCodec).toList = codeLines (text secondCodec).toList := by
    rw [codeLines_text firstPlanned, codeLines_text secondPlanned, same,
      flatMap_signalLines_eq signals units]
  have counted : (codeLines (text firstCodec).toList).length +
      (second.signals.flatMap brokenOff).length =
        (codeLines (text secondCodec).toList).length +
          (first.signals.flatMap brokenOff).length := by
    have lengths := length_flatMap_signalLines signals
    rw [codeLines_text firstPlanned, codeLines_text secondPlanned, same]
    simp only [List.length_append]
    omega
  have sameCount : first.signals.length = second.signals.length := by
    simpa using congrArg List.length signals
  have silent (firstSilent : ∀ signal ∈ first.signals, brokenOff signal = [])
      (secondSilent : ∀ signal ∈ second.signals, brokenOff signal = []) :
      first.signals.map brokenOff = second.signals.map brokenOff := by
    rw [List.map_eq_replicate_iff.mpr firstSilent, List.map_eq_replicate_iff.mpr secondSilent,
      sameCount]
  refine ⟨fun oneLine => unitsAgree (silent ?_ ?_), unitsAgree, counted, fun secondSilent => ?_⟩
  · exact fun signal member => brokenOff_of_notMem (oneLine signal (List.mem_append_left _ member))
  · exact fun signal member => brokenOff_of_notMem (oneLine signal (List.mem_append_right _ member))
  · refine ⟨fun equal => ?_, fun firstSilent => unitsAgree (silent firstSilent secondSilent)⟩
    rw [equal, List.flatMap_eq_nil_iff.mpr secondSilent, List.length_nil, Nat.add_left_cancel_iff,
      eq_comm, List.length_eq_zero_iff] at counted
    exact List.flatMap_eq_nil_iff.mp counted

def probe (comment unit : Option String) (bounds : Bounds Float) : Message where
  frameId := 0x31
  name := "Probe"
  length := 1
  comment := comment
  signals :=
    [{ name := "Level", start := 0, length := 8, byteOrder := .littleEndian, bounds := bounds
       unit := unit, comment := comment }]

def probeCodec (packed : Bool) (message : Message) : Codec where
  message := message
  layout := .ofPlan message.name packed (message.signals.map Frame.placing)

theorem codeLines_differ_by_units_probe :
    codeLines (text (probeCodec false
        (probe (some "Two\nlines") (some "m") { minimum := some 0 }))).toList =
      codeLines (text (probeCodec true (probe none none {}))).toList := by
  have differ := codeLines_differ_by_units
    (probe (some "Two\nlines") (some "m") { minimum := some 0 }) (probe none none {})
    false true true true (probeCodec false _) (probeCodec true _) (by rfl) (by rfl) (by rfl)
  exact differ.1 (by decide)

/-- A unit of two lines puts its second line between those of the definition. -/
theorem codeLines_differ_probe :
    Codec.plan (probe none (some "m\nuint8 injected") {}) false true =
        .ok (probeCodec false (probe none (some "m\nuint8 injected") {})) ∧
      Codec.plan (probe none none {}) false true = .ok (probeCodec false (probe none none {})) ∧
      (probe none (some "m\nuint8 injected") {}).unannotated = (probe none none {}).unannotated ∧
      codeLines (text (probeCodec false (probe none (some "m\nuint8 injected") {}))).toList =
        [[], "uint8 injected".toList, "uint8 level".toList, []] ∧
      codeLines (text (probeCodec false (probe none (some "m\nuint8 injected") {}))).toList ≠
        codeLines (text (probeCodec false (probe none none {}))).toList := by
  have broken : codeLines
      (text (probeCodec false (probe none (some "m\nuint8 injected") {}))).toList =
        [[], "uint8 injected".toList, "uint8 level".toList, []] := by decide +kernel
  have plain : codeLines (text (probeCodec false (probe none none {}))).toList =
      [[], "uint8 level".toList, []] := by decide +kernel
  refine ⟨by rfl, by rfl, by rfl, broken, ?_⟩
  rw [broken, plain]
  decide

end Definition

end CanCodec
