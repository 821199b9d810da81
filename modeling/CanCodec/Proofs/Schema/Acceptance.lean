import CanCodec.Proofs.Double.Rational
import CanCodec.Proofs.Schema
import CanCodec.Proofs.Traversal

/-! # Which catalogs are accepted

The rules of a catalog are stated one by one, without the order in which they are tried. A
list of messages is accepted exactly when it keeps all of them; a refusal names the first
message that breaks one, and the first rule it breaks. -/

namespace CanCodec

/-! ## Rules -/

namespace Signal

def HasValidScale (signal : Signal) : Prop :=
  signal.linear.scale.isFinite = true ∧ Double.toRat signal.linear.scale ≠ 0

def HasValidLength (signal : Signal) : Prop := 1 ≤ signal.length ∧ signal.length ≤ 64

structure IsValid (signal : Signal) : Prop where
  scale : signal.HasValidScale
  length : signal.HasValidLength

inductive Breaks (message : String) (signal : Signal) : Fault → Prop
  | scale (broken : ¬signal.HasValidScale) : Breaks message signal (.badScale message signal.name)
  | length (scale : signal.HasValidScale) (broken : ¬signal.HasValidLength) :
      Breaks message signal (.badLength message signal.name signal.length)

end Signal

namespace Message

/-- Standard frame ids have 11 bits, extended ones 29. -/
def HasValidId (message : Message) : Prop :=
  message.frameId ≤ if message.extended then 0x1fffffff else 0x7ff

def HasValidLength (message : Message) : Prop := message.length ≤ 64

structure IsValid (message : Message) : Prop where
  id : message.HasValidId
  length : message.HasValidLength
  signals : ∀ signal ∈ message.signals, signal.IsValid

structure IsOnlyWithId (messages : List Message) (frameId : Nat) (message : Message) : Prop where
  mem : message ∈ messages
  uses : message.frameId = frameId
  unique : ∀ other ∈ messages, other.frameId = frameId → other = message

inductive Breaks (before : List Message) (message : Message) : Fault → Prop
  | id (broken : ¬message.HasValidId) :
      Breaks before message (.badMessage message.name (.idRange message.frameId message.extended))
  | length (id : message.HasValidId) (broken : ¬message.HasValidLength) :
      Breaks before message (.badMessage message.name (.payloadLength message.length))
  | duplicate (id : message.HasValidId) (length : message.HasValidLength) (first : Message)
      (used : IsOnlyWithId before message.frameId first) :
      Breaks before message (.duplicateFrame message.frameId first.name message.name)
  | signal (id : message.HasValidId) (length : message.HasValidLength)
      (fresh : ∀ other ∈ before, other.frameId ≠ message.frameId)
      (passed : List Signal) (signal : Signal) (rest : List Signal)
      (split : message.signals = passed ++ signal :: rest)
      (valid : ∀ other ∈ passed, other.IsValid) {fault : Fault}
      (breaks : signal.Breaks message.name fault) : Breaks before message fault

end Message

/-- A list of messages keeps every rule. Frame ids are distinct over standard and extended
frames together. -/
structure IsCatalog (messages : List Message) : Prop where
  valid : ∀ message ∈ messages, message.IsValid
  distinct : (messages.map Message.frameId).Nodup

/-! ## Signals -/

namespace Signal

theorem hasValidScale_iff {signal : Signal} :
    signal.HasValidScale ↔
      (signal.linear.scale == 0 || !signal.linear.scale.isFinite) = false := by
  rw [HasValidScale, Bool.or_eq_false_iff, Bool.not_eq_false', and_comm]
  refine and_congr_left fun finite => ?_
  have number := Double.isNaN_of_isFinite finite
  have zero : Double.level 0 = 0 := rfl
  rw [← Bool.not_eq_true, Double.beq_iff_level number rfl, zero, Double.toRat_eq_level finite]
  simp

theorem hasValidLength_iff {signal : Signal} :
    signal.HasValidLength ↔ ¬(signal.length = 0 ∨ 64 < signal.length) := by
  unfold HasValidLength
  omega

theorem violation?_eq_some_iff {message : String} {signal : Signal} {fault : Fault} :
    signal.violation? message = some fault ↔ signal.Breaks message fault := by
  rw [violation?]
  constructor
  · intro found
    split at found
    · next broken =>
        cases found
        exact .scale fun valid => by simp [hasValidScale_iff.mp valid] at broken
    · next scale =>
        have scale := hasValidScale_iff.mpr (Bool.not_eq_true _ ▸ scale)
        split at found
        · next broken =>
            cases found
            exact .length scale fun valid => hasValidLength_iff.mp valid broken
        · cases found
  · intro breaks
    cases breaks with
    | scale broken => rw [if_pos (Bool.not_eq_false _ ▸ mt hasValidScale_iff.mpr broken)]
    | length scale broken =>
        rw [if_neg (by simp [hasValidScale_iff.mp scale]),
          if_pos (not_not.mp (mt hasValidLength_iff.mpr broken))]

theorem violation?_eq_none_iff {message : String} {signal : Signal} :
    signal.violation? message = none ↔ signal.IsValid := by
  constructor
  · intro sound
    have unbroken : ∀ fault, ¬signal.Breaks message fault := fun fault breaks => by
      rw [violation?_eq_some_iff.mpr breaks] at sound
      cases sound
    by_contra invalid
    by_cases scale : signal.HasValidScale
    · exact unbroken _ (.length scale fun length => invalid ⟨scale, length⟩)
    · exact unbroken _ (.scale scale)
  · intro valid
    refine Option.eq_none_iff_forall_ne_some.mpr fun fault found => ?_
    cases violation?_eq_some_iff.mp found with
    | scale broken => exact broken valid.scale
    | length _ broken => exact broken valid.length

end Signal

/-! ## Messages -/

namespace Message

theorem hasValidId_iff {message : Message} :
    message.HasValidId ↔ ¬message.idLimit < message.frameId :=
  Nat.not_lt.symm

theorem hasValidLength_iff {message : Message} :
    message.HasValidLength ↔ ¬maxLength < message.length :=
  Nat.not_lt.symm

theorem findSome?_violation?_eq_none_iff {message : Message} :
    message.signals.findSome? (Signal.violation? message.name) = none ↔
      ∀ signal ∈ message.signals, signal.IsValid := by
  simp only [List.findSome?_eq_none_iff, Signal.violation?_eq_none_iff]

theorem findSome?_violation?_eq_some_iff {message : Message} {fault : Fault} :
    message.signals.findSome? (Signal.violation? message.name) = some fault ↔
      ∃ passed signal rest, message.signals = passed ++ signal :: rest ∧
        (∀ other ∈ passed, other.IsValid) ∧ signal.Breaks message.name fault := by
  simp only [List.findSome?_eq_some_iff, Signal.violation?_eq_some_iff,
    Signal.violation?_eq_none_iff]
  grind

theorem isOnlyWithId_iff {before : List Message} (distinct : (before.map frameId).Nodup)
    {used : Nat} {first : Message} :
    IsOnlyWithId before used first ↔
      before.reverse.find? (fun other => other.frameId = used) = some first := by
  have unique : ∀ {message other}, message ∈ before → other ∈ before →
      message.frameId = other.frameId → message = other := fun mem otherMem same =>
    List.inj_on_of_nodup_map distinct mem otherMem same
  constructor
  · intro only
    cases found : before.reverse.find? (fun other => other.frameId = used) with
    | none =>
        have absent := List.find?_eq_none.mp found first (List.mem_reverse.mpr only.mem)
        simp [only.uses] at absent
    | some other =>
        have otherMem := List.mem_reverse.mp (List.mem_of_find?_eq_some found)
        have otherUses : other.frameId = used := by simpa using List.find?_some found
        rw [only.unique other otherMem otherUses]
  · intro found
    have mem := List.mem_reverse.mp (List.mem_of_find?_eq_some found)
    have uses : first.frameId = used := by simpa using List.find?_some found
    exact ⟨mem, uses, fun other otherMem same => unique otherMem mem (same.trans uses.symm)⟩

theorem find?_frameId_eq_none_iff {before : List Message} {used : Nat} :
    before.reverse.find? (fun other => other.frameId = used) = none ↔
      ∀ other ∈ before, other.frameId ≠ used := by
  simp [List.find?_eq_none]

theorem violation?_eq_none_iff {before : List Message} {message : Message} :
    message.violation? before.reverse = none ↔
      message.IsValid ∧ ∀ other ∈ before, other.frameId ≠ message.frameId := by
  constructor
  · intro sound
    rw [violation?] at sound
    split at sound
    · cases sound
    next id =>
      split at sound
      · cases sound
      next length =>
        split at sound
        · cases sound
        next fresh =>
          exact ⟨⟨hasValidId_iff.mpr id, hasValidLength_iff.mpr length,
            findSome?_violation?_eq_none_iff.mp sound⟩, find?_frameId_eq_none_iff.mp fresh⟩
  · rintro ⟨valid, fresh⟩
    rw [violation?, if_neg (hasValidId_iff.mp valid.id), if_neg (hasValidLength_iff.mp valid.length),
      find?_frameId_eq_none_iff.mpr fresh]
    exact findSome?_violation?_eq_none_iff.mpr valid.signals

theorem violation?_eq_some_iff {before : List Message} (distinct : (before.map frameId).Nodup)
    {message : Message} {fault : Fault} :
    message.violation? before.reverse = some fault ↔ message.Breaks before fault := by
  constructor
  · intro found
    rw [violation?] at found
    split at found
    next broken =>
      cases found
      exact .id fun valid => hasValidId_iff.mp valid broken
    next id =>
      have id := hasValidId_iff.mpr id
      split at found
      next broken =>
        cases found
        exact .length id fun valid => hasValidLength_iff.mp valid broken
      next length =>
        have length := hasValidLength_iff.mpr length
        split at found
        next first used =>
          cases found
          exact .duplicate id length first ((isOnlyWithId_iff distinct).mpr used)
        next fresh =>
          rcases findSome?_violation?_eq_some_iff.mp found with
            ⟨passed, signal, rest, split, valid, breaks⟩
          exact .signal id length (find?_frameId_eq_none_iff.mp fresh) passed signal rest split
            valid breaks
  · intro breaks
    rw [violation?]
    cases breaks with
    | id broken => rw [if_pos (not_not.mp (mt hasValidId_iff.mpr broken))]
    | length id broken =>
        rw [if_neg (hasValidId_iff.mp id), if_pos (not_not.mp (mt hasValidLength_iff.mpr broken))]
    | duplicate id length first used =>
        rw [if_neg (hasValidId_iff.mp id), if_neg (hasValidLength_iff.mp length),
          (isOnlyWithId_iff distinct).mp used]
    | signal id length fresh passed signal rest split valid breaks =>
        rw [if_neg (hasValidId_iff.mp id), if_neg (hasValidLength_iff.mp length),
          find?_frameId_eq_none_iff.mpr fresh]
        exact findSome?_violation?_eq_some_iff.mpr ⟨passed, signal, rest, split, valid, breaks⟩

end Message

/-! ## Catalogs -/

section

variable {before messages : List Message} {message : Message} {fault : Fault}

theorem isCatalog_nil : IsCatalog [] := ⟨by simp, by simp⟩

theorem IsCatalog.of_append (catalog : IsCatalog (before ++ messages)) : IsCatalog before := by
  have distinct := catalog.distinct
  rw [List.map_append] at distinct
  exact ⟨fun message member => catalog.valid message (List.mem_append_left messages member),
    distinct.of_append_left⟩

theorem isCatalog_concat_iff : IsCatalog (before ++ [message]) ↔
    IsCatalog before ∧ message.violation? before.reverse = none := by
  rw [Message.violation?_eq_none_iff]
  constructor
  · intro catalog
    have distinct := catalog.distinct
    rw [List.map_append, List.nodup_append] at distinct
    refine ⟨catalog.of_append, catalog.valid message (by simp), fun other member => ?_⟩
    exact distinct.2.2 other.frameId (List.mem_map_of_mem member) message.frameId (by simp)
  · rintro ⟨catalog, valid, fresh⟩
    refine ⟨fun other member => ?_, ?_⟩
    · rcases List.mem_append.mp member with member | member
      · exact catalog.valid other member
      · exact List.mem_singleton.mp member ▸ valid
    · rw [List.map_append, List.nodup_append]
      exact ⟨catalog.distinct, by simp, by simpa using fresh⟩

/-- After messages that keep every rule, no fault is reported for more messages exactly when
they keep every rule together. -/
theorem firstViolation_eq_none_iff (catalog : IsCatalog before) :
    firstViolation before.reverse messages = none ↔ IsCatalog (before ++ messages) := by
  induction messages generalizing before with
  | nil => simpa [firstViolation] using catalog
  | cons message rest induction =>
      have regroup : before ++ message :: rest = before ++ [message] ++ rest := by simp
      rw [firstViolation_cons_eq_none_iff]
      constructor
      · rintro ⟨sound, remaining⟩
        have longer := induction (isCatalog_concat_iff.mpr ⟨catalog, sound⟩)
        rw [List.reverse_append, ← regroup] at longer
        exact longer.mp remaining
      · intro whole
        rw [regroup] at whole
        have sound := (isCatalog_concat_iff.mp whole.of_append).2
        have longer := induction (isCatalog_concat_iff.mpr ⟨catalog, sound⟩)
        rw [List.reverse_append] at longer
        exact ⟨sound, longer.mpr whole⟩

theorem firstViolation_eq_some_iff (catalog : IsCatalog before) :
    firstViolation before.reverse messages = some fault ↔
      ∃ passed message rest, messages = passed ++ message :: rest ∧
        IsCatalog (before ++ passed) ∧ message.Breaks (before ++ passed) fault := by
  induction messages generalizing before with
  | nil => simp [firstViolation]
  | cons message rest induction =>
      have breaks {fault : Fault} :
          message.violation? before.reverse = some fault ↔ message.Breaks before fault :=
        Message.violation?_eq_some_iff catalog.distinct
      rw [firstViolation, exists_split_cons_iff]
      cases found : message.violation? before.reverse with
      | some first =>
          have ended (passed : List Message) : ¬IsCatalog (before ++ message :: passed) := by
            intro whole
            rw [← List.singleton_append, ← List.append_assoc] at whole
            rw [(isCatalog_concat_iff.mp whole.of_append).2] at found
            cases found
          simp [ended, catalog, ← breaks, found]
      | none =>
          have longer := induction (isCatalog_concat_iff.mpr ⟨catalog, found⟩)
          rw [List.reverse_append] at longer
          simpa [← breaks, found] using longer

end

theorem Schema.isCatalog (schema : Schema) : IsCatalog schema.messages :=
  (firstViolation_eq_none_iff isCatalog_nil).mp schema.sound

/-- A list of messages is accepted exactly when it keeps every rule, and then unchanged. It is
refused for the first message that breaks a rule after its predecessors, with the first rule
that this message breaks. -/
theorem accept_iff_isCatalog (version : Option String) (messages : List Message) :
    ((∃ schema, Schema.accept version messages = .ok schema) ↔ IsCatalog messages) ∧
      (∀ schema, Schema.accept version messages = .ok schema ↔
        schema.version = version ∧ schema.messages = messages) ∧
      ∀ fault, Schema.accept version messages = .error fault ↔
        ∃ before message after, messages = before ++ message :: after ∧ IsCatalog before ∧
          message.Breaks before fault := by
  have none_iff : firstViolation [] messages = none ↔ IsCatalog messages :=
    (firstViolation_eq_none_iff isCatalog_nil :)
  have some_iff {fault : Fault} : firstViolation [] messages = some fault ↔
      ∃ before message after, messages = before ++ message :: after ∧ IsCatalog before ∧
        message.Breaks before fault :=
    (firstViolation_eq_some_iff isCatalog_nil :)
  refine ⟨?_, fun schema => Schema.accept_ok_iff, fun fault => ?_⟩
  · rw [← none_iff]
    refine ⟨fun ⟨schema, accepted⟩ => ?_, fun sound => ?_⟩
    · rw [← (Schema.accept_ok_iff.mp accepted).2]
      exact schema.sound
    · exact ⟨⟨version, messages, sound⟩, Schema.accept_ok_iff.mpr ⟨rfl, rfl⟩⟩
  · rw [← some_iff, Schema.accept]
    split
    next sound => simp [sound]
    next broken => simp [broken]

/-- A message that breaks two rules and has an invalid signal is refused for its length. -/
example : firstViolation []
    [⟨5, false, "First", 1, [], none, [], none⟩,
      ⟨5, true, "Second", 65, [⟨"Speed", 0, 0, .littleEndian, false, ⟨0, 0⟩, {}, none, none, none,
        none⟩], none, [], none⟩] =
    some (.badMessage "Second" (.payloadLength 65)) := by decide

end CanCodec
