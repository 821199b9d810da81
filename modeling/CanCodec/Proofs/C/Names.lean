import Mathlib.Data.List.Count
import Mathlib.Data.List.Flatten
import Mathlib.Data.List.Nodup
import CanCodec.C.Header
import CanCodec.Proofs.Codebook.Partition

/-! # Names that a record header defines

Each name is a stem with an ending that tells what is named. Names with different endings
differ, so a name is defined twice exactly when two stems of one kind coincide. -/

namespace CanCodec.C

/-! ## Stems and endings -/

inductive Ending
  | frameId
  | length
  | extended
  | cycleTime
  | choice
  | record
  | pack
  | unpack
  | encode
  | decode
  | range
  deriving Repr, DecidableEq

def Ending.text : Ending → String
  | .frameId => "_FRAME_ID"
  | .length => "_LENGTH"
  | .extended => "_IS_EXTENDED"
  | .cycleTime => "_CYCLE_TIME_MS"
  | .choice => "_CHOICE"
  | .record => "_t"
  | .pack => "_pack"
  | .unpack => "_unpack"
  | .encode => "_encode"
  | .decode => "_decode"
  | .range => "_is_in_range"

structure Name where
  stem : String
  ending : Ending
  deriving Repr, DecidableEq

def Name.text (name : Name) : String := name.stem ++ name.ending.text

theorem Ending.eq_of_suffix {first second : Ending}
    (isSuffix : first.text.toList <:+ second.text.toList) : first = second := by
  cases first <;> cases second <;> first | rfl | exact absurd isSuffix (by decide)

theorem Name.text_inj {first second : Name} : first.text = second.text ↔ first = second := by
  refine ⟨fun same => ?_, congrArg _⟩
  have characters : first.stem.toList ++ first.ending.text.toList =
      second.stem.toList ++ second.ending.text.toList := by
    rw [← String.toList_append, ← String.toList_append]
    exact congrArg String.toList same
  have sameEnding : first.ending = second.ending := by
    have firstEnds : first.ending.text.toList <:+
        second.stem.toList ++ second.ending.text.toList := ⟨_, characters⟩
    rcases List.suffix_or_suffix_of_suffix firstEnds (List.suffix_append _ _) with shorter | shorter
    · exact Ending.eq_of_suffix shorter
    · exact (Ending.eq_of_suffix shorter).symm
  rw [sameEnding, List.append_left_inj, String.toList_inj] at characters
  cases first
  cases second
  cases characters
  cases sameEnding
  rfl

theorem count_eq_count_stem (names : List Name) (name : Name) :
    names.count name =
      ((names.filter fun other => other.ending = name.ending).map Name.stem).count name.stem := by
  induction names with
  | nil => rfl
  | cons first rest induction =>
      rw [List.count_cons, induction, List.filter_cons]
      by_cases sameEnding : first.ending = name.ending
      · have same : first = name ↔ first.stem = name.stem := by
          cases first
          cases name
          simp_all
        simp [sameEnding, same, List.count_cons]
      · have different : first ≠ name := fun same => sameEnding (same ▸ rfl)
        simp [sameEnding, different]

theorem nodup_iff_forall_ending {names : List Name} :
    names.Nodup ↔ ∀ ending,
      ((names.filter fun name => name.ending = ending).map Name.stem).Nodup := by
  simp only [List.nodup_iff_count_le_one, count_eq_count_stem]
  exact ⟨fun distinct ending stem => distinct ⟨stem, ending⟩, fun distinct name => distinct _ _⟩

/-! ## Names of a catalog -/

variable (options : Options)

def choiceStems (message : Message) : List String :=
  message.signals.flatMap fun signal =>
    ((signal.choices.map fun choices => choices.entries).getD []).map fun entry =>
      s!"{macroName options message}_{Identifier.upper signal.name}_{Identifier.upper entry.2}"

def macroNames (message : Message) : List Name :=
  [⟨macroName options message, .frameId⟩, ⟨macroName options message, .length⟩,
    ⟨macroName options message, .extended⟩] ++
  (message.cycleTime.map fun _ => ⟨macroName options message, .cycleTime⟩).toList ++
  (choiceStems options message).map fun stem => ⟨stem, .choice⟩

def signalNames (message : Message) : List String :=
  message.signals.map (signalName options message)

def functionNames (message : Message) : List Name :=
  [⟨baseName options message, .pack⟩, ⟨baseName options message, .unpack⟩] ++
    (signalNames options message).flatMap fun stem =>
      [⟨stem, .encode⟩, ⟨stem, .decode⟩, ⟨stem, .range⟩]

/-- The names that the header defines for some messages: macros, records, functions. -/
def definedNames (messages : List Message) : List Name :=
  messages.flatMap (macroNames options) ++
  messages.map (fun message => ⟨baseName options message, .record⟩) ++
  messages.flatMap (functionNames options)

def stems (messages : List Message) : Ending → List String
  | .frameId | .length | .extended => messages.map (macroName options)
  | .cycleTime => messages.flatMap fun message =>
      (message.cycleTime.map fun _ => macroName options message).toList
  | .choice => messages.flatMap (choiceStems options)
  | .record | .pack | .unpack => messages.map (baseName options)
  | .encode | .decode | .range => messages.flatMap (signalNames options)

theorem filter_map_name {α : Type} (inputs : List α) (stem : α → String) (kind ending : Ending) :
    ((inputs.map fun input => Name.mk (stem input) kind).filter
        fun name => name.ending = ending).map Name.stem =
      if kind = ending then inputs.map stem else [] := by
  induction inputs with
  | nil => simp
  | cons input rest induction =>
      by_cases same : kind = ending
      · simpa [same] using induction
      · simp [same]

theorem filter_macroNames (message : Message) (ending : Ending) :
    ((macroNames options message).filter fun name => name.ending = ending).map Name.stem =
      match ending with
      | .frameId | .length | .extended => [macroName options message]
      | .cycleTime => (message.cycleTime.map fun _ => macroName options message).toList
      | .choice => choiceStems options message
      | _ => [] := by
  simp only [macroNames, List.filter_append, List.map_append,
    filter_map_name (choiceStems options message) fun stem => stem]
  cases message.cycleTime <;> cases ending <;> simp

theorem filter_functionNames (message : Message) (ending : Ending) :
    ((functionNames options message).filter fun name => name.ending = ending).map Name.stem =
      match ending with
      | .pack | .unpack => [baseName options message]
      | .encode | .decode | .range => signalNames options message
      | _ => [] := by
  cases ending <;> simp [functionNames, List.filter_flatMap, List.map_flatMap]

theorem filter_definedNames (messages : List Message) (ending : Ending) :
    ((definedNames options messages).filter fun name => name.ending = ending).map Name.stem =
      stems options messages ending := by
  have none : messages.flatMap (fun _ => ([] : List String)) = [] :=
    List.flatMap_eq_nil_iff.mpr fun _ _ => rfl
  simp only [definedNames, List.filter_append, List.filter_flatMap, List.map_append,
    List.map_flatMap, filter_macroNames, filter_functionNames, filter_map_name]
  cases ending <;> simp [stems, none, List.map_eq_flatMap]

theorem count_definedNames (messages : List Message) (name : Name) :
    ((definedNames options messages).map Name.text).count name.text =
      (stems options messages name.ending).count name.stem := by
  rw [List.count_map_of_injective _ _ fun _ _ => Name.text_inj.mp, count_eq_count_stem,
    filter_definedNames]

/-- The names that are made from a catalog are distinct when the stems of its macros, of its
conversion functions and of its choices are. -/
theorem nodup_definedNames_iff {messages : List Message} :
    ((definedNames options messages).map Name.text).Nodup ↔
      (messages.map (macroName options)).Nodup ∧
        (messages.flatMap (signalNames options)).Nodup ∧
        (messages.flatMap (choiceStems options)).Nodup := by
  rw [List.nodup_map_iff fun _ _ => Name.text_inj.mp, nodup_iff_forall_ending]
  simp only [filter_definedNames]
  constructor
  · exact fun distinct => ⟨distinct .frameId, distinct .encode, distinct .choice⟩
  · rintro ⟨macros, signals, choices⟩ ending
    -- The stem of a message's macros is made from the stem of its functions.
    have bases : (messages.map (baseName options)).Nodup := by
      refine List.Nodup.of_map Identifier.upper ?_
      rw [List.map_map]
      exact macros
    have periods :
        (stems options messages .cycleTime).Sublist (messages.map (macroName options)) := by
      rw [stems, List.map_eq_flatMap]
      refine List.Sublist.flatMap_right messages fun message _ => ?_
      cases message.cycleTime <;> simp
    cases ending with
    | frameId | length | extended => exact macros
    | cycleTime => exact macros.sublist periods
    | choice => exact choices
    | record | pack | unpack => exact bases
    | encode | decode | range => exact signals

end CanCodec.C
