import CanCodec.Schema

/-! # What an accepted schema promises

Each signal of a schema has 1 to 64 bits, and after the check of its choices each choice
is a raw value of its signal's range. -/

namespace CanCodec

theorem Signal.length_bounds {message : String} {signal : Signal}
    (sound : signal.violation? message = none) : 0 < signal.length ∧ signal.length ≤ 64 := by
  simp only [Signal.violation?] at sound
  split at sound
  · cases sound
  · split at sound
    · cases sound
    · omega

theorem Message.signals_sound {earlier : List Message} {message : Message}
    (sound : message.violation? earlier = none) (signal : Signal)
    (member : signal ∈ message.signals) : signal.violation? message.name = none := by
  simp only [Message.violation?] at sound
  split at sound
  · cases sound
  · split at sound
    · cases sound
    · split at sound
      · cases sound
      · exact List.findSome?_eq_none_iff.mp sound signal member

theorem firstViolation_cons_eq_none_iff {earlier rest : List Message} {message : Message} :
    firstViolation earlier (message :: rest) = none ↔
      message.violation? earlier = none ∧ firstViolation (message :: earlier) rest = none := by
  rw [firstViolation]
  cases message.violation? earlier <;> simp

theorem exists_violation?_eq_none {earlier messages : List Message}
    (sound : firstViolation earlier messages = none) (message : Message)
    (member : message ∈ messages) : ∃ before, message.violation? before = none := by
  induction messages generalizing earlier with
  | nil => cases member
  | cons head rest induction =>
      rcases firstViolation_cons_eq_none_iff.mp sound with ⟨headSound, sound⟩
      rcases List.mem_cons.mp member with equal | member
      · exact ⟨earlier, equal ▸ headSound⟩
      · exact induction sound member

theorem Message.violation?_bounds {earlier : List Message} {message : Message}
    (sound : message.violation? earlier = none) :
    message.frameId ≤ Message.maxExtendedId ∧ message.length ≤ Message.maxLength ∧
      ∀ other ∈ earlier, other.frameId ≠ message.frameId := by
  simp only [Message.violation?] at sound
  split at sound
  · cases sound
  · rename_i inRange
    split at sound
    · cases sound
    · rename_i short
      split at sound
      · cases sound
      · rename_i fresh
        have limit : message.idLimit ≤ Message.maxExtendedId := by
          rw [Message.idLimit]
          split <;> decide
        refine ⟨by omega, by omega, fun other member same => ?_⟩
        have absent := List.find?_eq_none.mp fresh other member
        simp [same] at absent

theorem nodup_frameIds_of_firstViolation {earlier messages : List Message}
    (sound : firstViolation earlier messages = none) :
    (∀ other ∈ earlier, ∀ message ∈ messages, other.frameId ≠ message.frameId) ∧
      (messages.map Message.frameId).Nodup := by
  induction messages generalizing earlier with
  | nil => simp
  | cons head rest induction =>
      rcases firstViolation_cons_eq_none_iff.mp sound with ⟨headSound, sound⟩
      have fresh := (Message.violation?_bounds headSound).2.2
      rcases induction sound with ⟨others, distinct⟩
      refine ⟨fun other otherMember message member => ?_,
        List.nodup_cons.mpr ⟨fun listed => ?_, distinct⟩⟩
      · rcases List.mem_cons.mp member with equal | member
        · rw [equal]
          exact fresh other otherMember
        · exact others other (List.mem_cons_of_mem head otherMember) message member
      · rcases List.mem_map.mp listed with ⟨message, member, same⟩
        exact others head List.mem_cons_self message member same.symm

namespace Schema

/-- A schema carries its soundness, so what is accepted is only known by its parts. -/
theorem accept_ok_iff {version : Option String} {messages : List Message}
    {schema : Schema} :
    accept version messages = .ok schema ↔
      schema.version = version ∧ schema.messages = messages := by
  rcases schema with ⟨ownVersion, ownMessages, ownSound⟩
  rw [accept]
  split
  next sound =>
    simp only [Except.ok.injEq, mk.injEq]
    exact and_congr eq_comm eq_comm
  next fault broken =>
    simp only [reduceCtorEq, false_iff, not_and]
    rintro - rfl
    rw [ownSound] at broken
    cases broken

theorem signal_length_bounds (schema : Schema) {message : Message} {signal : Signal}
    (messageMember : message ∈ schema.messages) (member : signal ∈ message.signals) :
    0 < signal.length ∧ signal.length ≤ 64 := by
  rcases exists_violation?_eq_none schema.sound message messageMember with ⟨before, sound⟩
  exact Signal.length_bounds (Message.signals_sound sound signal member)

theorem message_bounds (schema : Schema) {message : Message}
    (member : message ∈ schema.messages) :
    message.frameId ≤ Message.maxExtendedId ∧ message.length ≤ Message.maxLength := by
  rcases exists_violation?_eq_none schema.sound message member with ⟨before, sound⟩
  have bounds := Message.violation?_bounds sound
  exact ⟨bounds.1, bounds.2.1⟩

theorem nodup_frameIds (schema : Schema) : (schema.messages.map Message.frameId).Nodup :=
  (nodup_frameIds_of_firstViolation schema.sound).2

end Schema

def Signal.ChoicesInRange (signal : Signal) : Prop :=
  ∀ choices, signal.choices = some choices →
    ∀ entry ∈ choices.entries, signal.range.contains entry.1 = true

def Schema.ChoicesInRange (schema : Schema) : Prop :=
  ∀ message ∈ schema.messages, ∀ signal ∈ message.signals, signal.ChoicesInRange

theorem Signal.choicesInRange_of_checked {message : String} {signal : Signal}
    (checked : signal.choiceViolation? message = none) : signal.ChoicesInRange := by
  intro choices declared entry member
  simp only [Signal.choiceViolation?, declared, Option.bind_eq_bind, Option.bind_some,
    Option.pure_def, Option.bind_eq_none_iff, reduceCtorEq, imp_false] at checked
  have noViolation : choices.entries.find? (fun entry => !signal.range.contains entry.1) = none :=
    Option.eq_none_iff_forall_ne_some.mpr checked
  have contained := List.find?_eq_none.mp noViolation entry member
  simpa using contained

theorem Schema.choicesInRange (schema : Schema) (checked : schema.choiceViolation? = none)
    {message : Message} {signal : Signal} (messageMember : message ∈ schema.messages)
    (member : signal ∈ message.signals) : signal.ChoicesInRange := by
  have messageChecked := List.findSome?_eq_none_iff.mp checked message messageMember
  exact Signal.choicesInRange_of_checked
    (List.findSome?_eq_none_iff.mp messageChecked signal member)

theorem Signal.choiceViolation?_eq_some {message : String} {signal : Signal} {fault : Fault}
    (found : signal.choiceViolation? message = some fault) :
    ∃ choices, signal.choices = some choices ∧ ∃ entry ∈ choices.entries,
      signal.range.contains entry.1 = false ∧
        fault = .badChoice message signal.name entry.1 entry.2 := by
  simp only [Signal.choiceViolation?, Option.bind_eq_bind, Option.pure_def] at found
  rcases Option.bind_eq_some_iff.mp found with ⟨choices, declared, searched⟩
  rcases Option.bind_eq_some_iff.mp searched with ⟨entry, isFirst, same⟩
  have outside := List.find?_some isFirst
  exact ⟨choices, declared, entry, List.mem_of_find?_eq_some isFirst, by simpa using outside,
    (Option.some.inj same).symm⟩

theorem Signal.choiceViolation?_eq_none_iff {message : String} {signal : Signal} :
    signal.choiceViolation? message = none ↔ signal.ChoicesInRange := by
  refine ⟨choicesInRange_of_checked, fun inRange => ?_⟩
  cases checked : signal.choiceViolation? message with
  | none => rfl
  | some fault =>
      rcases choiceViolation?_eq_some checked with ⟨choices, declared, entry, member, outside, _⟩
      rw [inRange choices declared entry member] at outside
      cases outside

theorem Schema.choiceViolation?_eq_none_iff {schema : Schema} :
    schema.choiceViolation? = none ↔ schema.ChoicesInRange := by
  simp only [Schema.choiceViolation?, List.findSome?_eq_none_iff,
    Signal.choiceViolation?_eq_none_iff, Schema.ChoicesInRange]

theorem Schema.choiceViolation?_eq_some {schema : Schema} {fault : Fault}
    (found : schema.choiceViolation? = some fault) :
    ∃ before message after, schema.messages = before ++ message :: after ∧
      (∀ other ∈ before, ∀ signal ∈ other.signals, signal.ChoicesInRange) ∧
      ∃ passed signal rest, message.signals = passed ++ signal :: rest ∧
        (∀ other ∈ passed, other.ChoicesInRange) ∧
        ∃ choices, signal.choices = some choices ∧ ∃ entry ∈ choices.entries,
          signal.range.contains entry.1 = false ∧
            fault = .badChoice message.name signal.name entry.1 entry.2 := by
  rcases List.findSome?_eq_some_iff.mp found with ⟨before, message, after, split, here, none⟩
  rcases List.findSome?_eq_some_iff.mp here with ⟨passed, signal, rest, signalSplit, reported, clear⟩
  refine ⟨before, message, after, split, fun other member signal signalMember => ?_,
    passed, signal, rest, signalSplit, fun other member => ?_,
    Signal.choiceViolation?_eq_some reported⟩
  · exact Signal.choiceViolation?_eq_none_iff.mp
      (List.findSome?_eq_none_iff.mp (none other member) signal signalMember)
  · exact Signal.choiceViolation?_eq_none_iff.mp (clear other member)

end CanCodec
