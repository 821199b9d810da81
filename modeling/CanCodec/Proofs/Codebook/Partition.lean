import Mathlib.Data.List.Find
import CanCodec.Proofs.Codebook
import CanCodec.Proofs.Frame.Refusal

/-! # What a plan takes and what it leaves out

A lenient plan divides a catalog into the messages whose signals all fit and the others. A
strict plan takes the whole catalog or names the first thing that is wrong with it, and
where it succeeds a lenient plan gives the same codecs. -/

namespace CanCodec

namespace Message

def InFrame (message : Message) : Prop :=
  ∀ signal ∈ message.signals, signal.start + signal.length ≤ 8 * message.length

instance (message : Message) : Decidable message.InFrame :=
  inferInstanceAs (Decidable (∀ _ ∈ _, _))

def firstExcess? (message : Message) : Option LayoutFault :=
  (message.signals.find? fun signal => 8 * message.length < signal.start + signal.length).map
    (Signal.excess message)

def Plannable (message : Message) : Prop :=
  message.InFrame ∧ message.signals.Pairwise Signal.Apart

/-- The signals before some signal have their places, and that one has none. -/
def RefusedFor (message : Message) (fault : LayoutFault) : Prop :=
  ∃ before signal after, message.signals = before ++ signal :: after ∧
    (∀ other ∈ before, other.Fits message.length) ∧ before.Pairwise Signal.Apart ∧
    signal.Misplaced message true before fault

theorem fits_iff_inFrame {message : Message}
    (positive : ∀ signal ∈ message.signals, 0 < signal.length) :
    (∀ signal ∈ message.signals, signal.Fits message.length) ↔ message.InFrame :=
  forall₂_congr fun signal member => and_iff_right (positive signal member)

theorem firstExcess?_eq_none_iff {message : Message} :
    message.firstExcess? = none ↔ message.InFrame := by
  simp only [firstExcess?, Option.map_eq_none_iff, List.find?_eq_none, decide_eq_true_eq,
    Nat.not_lt, InFrame]

end Message

/-! ## One message -/

namespace Codec

def ofMessage (packed : Bool) (message : Message) : Codec :=
  ⟨message, .ofPlan message.name packed (message.signals.map Frame.placing)⟩

theorem plan_error_iff {message : Message} {packed strict : Bool} {fault : LayoutFault} :
    plan message packed strict = .error fault ↔
      Frame.planMessage message strict = .error fault := by
  rw [plan]
  cases Frame.planMessage message strict <;> simp [Except.map]

theorem message_of_plan {message : Message} {packed strict : Bool} {codec : Codec}
    (planned : plan message packed strict = .ok codec) : codec.message = message := by
  rw [(plan_ok_iff.mp planned).2.2]

theorem plan_lenient_error_iff {message : Message} {packed : Bool} {fault : LayoutFault}
    (positive : ∀ signal ∈ message.signals, 0 < signal.length) :
    plan message packed false = .error fault ↔ message.firstExcess? = some fault := by
  have search : (message.signals.find? fun signal => !decide (signal.Fits message.length)) =
      message.signals.find? fun signal =>
        decide (8 * message.length < signal.start + signal.length) := by
    apply List.find?_congr
    intro signal member
    have positive := positive signal member
    rw [Bool.eq_iff_iff, Bool.not_eq_true', decide_eq_false_iff_not, decide_eq_true_eq,
      Signal.Fits]
    omega
  rw [plan_error_iff, Frame.planMessage_lenient, search, Message.firstExcess?]
  cases message.signals.find? _ <;> simp

theorem plan_lenient_ok_iff {message : Message} {packed : Bool}
    (positive : ∀ signal ∈ message.signals, 0 < signal.length) :
    (∃ codec, plan message packed false = .ok codec) ↔ message.InFrame := by
  simp only [plan_ok_iff, Bool.false_eq_true, false_implies, true_and, exists_and_left,
    exists_eq, and_true, Message.fits_iff_inFrame positive]

theorem plan_strict_ok_iff {message : Message} (packed : Bool)
    (positive : ∀ signal ∈ message.signals, 0 < signal.length) :
    (∃ codec, plan message packed true = .ok codec) ↔ message.Plannable := by
  simp only [plan_ok_iff, true_implies, exists_and_left, exists_eq, and_true,
    Message.fits_iff_inFrame positive, Message.Plannable]

theorem plan_lenient_of_strict {message : Message} {packed : Bool} {codec : Codec}
    (planned : plan message packed true = .ok codec) :
    plan message packed false = .ok codec := by
  rcases plan_ok_iff.mp planned with ⟨fits, _, equal⟩
  exact plan_ok_iff.mpr ⟨fits, by simp, equal⟩

end Codec

/-! ## Catalogs -/

namespace Codebook

/-- A lenient plan keeps the messages in their frames and reports the others, each list in
catalog order. -/
structure Divides (messages : List Message) (packed : Bool) (codebook : Codebook) : Prop where
  taken : codebook.codecs.map Codec.message = messages.filter fun message => message.InFrame
  planned : codebook.codecs.map Except.ok =
    (messages.filter fun message => message.InFrame).map
      fun message => Codec.plan message packed false
  skipped : codebook.skipped = messages.filterMap Message.firstExcess?
  total : codebook.codecs.length + codebook.skipped.length = messages.length

theorem divides_planSome {messages : List Message} (packed : Bool)
    (positive : ∀ message ∈ messages, ∀ signal ∈ message.signals, 0 < signal.length) :
    (planSome packed messages).Divides messages packed := by
  induction messages with
  | nil => constructor <;> rfl
  | cons message rest induction =>
      have here := positive message List.mem_cons_self
      have others := induction fun other member => positive other (List.mem_cons_of_mem _ member)
      rw [planSome]
      cases planned : Codec.plan message packed false with
      | ok codec =>
          have inFrame := (Codec.plan_lenient_ok_iff here).mp ⟨codec, planned⟩
          have noExcess := Message.firstExcess?_eq_none_iff.mpr inFrame
          constructor
          · simp [inFrame, others.taken, Codec.message_of_plan planned]
          · simp [inFrame, others.planned, planned]
          · simp [noExcess, others.skipped]
          · have total := others.total
            simp only [List.length_cons]
            omega
      | error fault =>
          have excess := (Codec.plan_lenient_error_iff here).mp planned
          have outside : ¬ message.InFrame := by
            rw [← Message.firstExcess?_eq_none_iff, excess]
            simp
          constructor
          · simp [outside, others.taken]
          · simp [outside, others.planned]
          · simp [excess, others.skipped]
          · have total := others.total
            simp only [List.length_cons]
            omega

theorem planAll_ok_iff {messages : List Message} (packed : Bool)
    (positive : ∀ message ∈ messages, ∀ signal ∈ message.signals, 0 < signal.length) :
    (∃ codecs, planAll packed messages = .ok codecs) ↔
      ∀ message ∈ messages, message.Plannable := by
  constructor
  · intro success message member
    rcases success with ⟨codecs, planned⟩
    have listed : Codec.plan message packed true ∈ codecs.map Except.ok := by
      rw [← mapM_ok_iff.mp planned]
      exact List.mem_map_of_mem (f := fun message => Codec.plan message packed true) member
    rcases List.mem_map.mp listed with ⟨codec, _, codecPlanned⟩
    exact (Codec.plan_strict_ok_iff packed (positive message member)).mp ⟨codec, codecPlanned.symm⟩
  · intro plannable
    cases planned : planAll packed messages with
    | ok codecs => exact ⟨codecs, rfl⟩
    | error fault =>
        rcases mapM_error_iff.mp planned with ⟨before, message, after, split, _, refused⟩
        have member : message ∈ messages := by simp [split]
        rcases (Codec.plan_strict_ok_iff packed (positive message member)).mpr
          (plannable message member) with ⟨codec, accepted⟩
        rw [refused] at accepted
        cases accepted

theorem planAll_error {messages : List Message} {packed : Bool} {fault : LayoutFault}
    (positive : ∀ message ∈ messages, ∀ signal ∈ message.signals, 0 < signal.length)
    (failed : planAll packed messages = .error fault) :
    ∃ before message after, messages = before ++ message :: after ∧
      (∀ other ∈ before, other.Plannable) ∧ ¬ message.Plannable ∧
      Codec.plan message packed true = .error fault ∧ message.RefusedFor fault := by
  rcases mapM_error_iff.mp failed with ⟨before, message, after, split, passed, refused⟩
  have sourced : ∀ other ∈ before, other ∈ messages := by
    intro other member
    rw [split]
    exact List.mem_append_left _ member
  have member : message ∈ messages := by simp [split]
  refine ⟨before, message, after, split, fun other otherMember => ?_, fun plannable => ?_,
    refused, ?_⟩
  · exact (Codec.plan_strict_ok_iff packed (positive other (sourced other otherMember))).mp
      (passed other otherMember)
  · rcases (Codec.plan_strict_ok_iff packed (positive message member)).mpr plannable
      with ⟨codec, accepted⟩
    rw [refused] at accepted
    cases accepted
  · rcases Frame.planMessage_error (Codec.plan_error_iff.mp refused) with
      ⟨first, signal, rest, signals, fits, apart, misplaced⟩
    exact ⟨first, signal, rest, signals, fits, apart rfl, misplaced⟩

theorem planSome_of_planAll {messages : List Message} {packed : Bool} {codecs : List Codec}
    (planned : planAll packed messages = .ok codecs) :
    planSome packed messages = ⟨codecs, []⟩ := by
  have values : messages.map (fun message => Codec.plan message packed true) =
      codecs.map Except.ok := mapM_ok_iff.mp planned
  clear planned
  induction messages generalizing codecs with
  | nil =>
      rw [List.map_nil, eq_comm, List.map_eq_nil_iff] at values
      rw [planSome, values]
  | cons message rest induction =>
      cases codecs with
      | nil => cases values
      | cons codec others =>
          rw [List.map_cons, List.map_cons, List.cons.injEq] at values
          rw [planSome, Codec.plan_lenient_of_strict values.1, induction values.2]

/-- Every plan divides its catalog; a strict one leaves nothing out. -/
theorem divides_of_plan {schema : Schema} {options : Options} {codebook : Codebook}
    (planned : plan schema options = .ok codebook) :
    codebook.Divides schema.messages options.packed := by
  have lenient : planSome options.packed schema.messages = codebook := by
    rw [plan] at planned
    split at planned
    · rcases planStrict_ok_iff.mp planned with ⟨_, codecs, values, equal⟩
      rw [planSome_of_planAll (mapM_ok_iff.mpr values), equal]
    · exact Except.ok.inj planned
  rw [← lenient]
  exact divides_planSome options.packed fun message member signal signalMember =>
    (schema.signal_length_bounds member signalMember).1

theorem map_message_codecs {schema : Schema} {options : Options} {codebook : Codebook}
    (planned : plan schema options = .ok codebook) :
    codebook.codecs.map Codec.message =
      schema.messages.filter fun message => message.InFrame :=
  (divides_of_plan planned).taken

theorem codecs_eq_map {schema : Schema} {options : Options} {codebook : Codebook}
    (planned : plan schema options = .ok codebook) :
    codebook.codecs = (schema.messages.filter fun message => message.InFrame).map
      (Codec.ofMessage options.packed) := by
  have own : ∀ codec ∈ codebook.codecs,
      codec = Codec.ofMessage options.packed codec.message := by
    intro codec member
    have listed : (.ok codec : Except LayoutFault Codec) ∈ codebook.codecs.map Except.ok :=
      List.mem_map_of_mem member
    rw [(divides_of_plan planned).planned] at listed
    rcases List.mem_map.mp listed with ⟨message, _, codecPlanned⟩
    rw [(Codec.plan_ok_iff.mp codecPlanned).2.2]
    rfl
  rw [← map_message_codecs planned, List.map_map]
  exact (List.map_id _).symm.trans (List.map_congr_left own)

/-- A lenient plan never fails and divides the catalog. A strict plan succeeds exactly when
all choices are in range and all messages can be planned; then it skips nothing and the
lenient plan is the same. When it fails, it reports the first choice out of range, or, if
there is none, the first message that cannot be planned. -/
theorem plan_divides_catalog (schema : Schema) (options : Options) :
    (∃ codebook, plan schema { options with strict := false } = .ok codebook ∧
      codebook.Divides schema.messages options.packed) ∧
    ((∃ codebook, plan schema { options with strict := true } = .ok codebook) ↔
      schema.ChoicesInRange ∧ ∀ message ∈ schema.messages, message.Plannable) ∧
    (∀ codebook, plan schema { options with strict := true } = .ok codebook →
      codebook.skipped = [] ∧ plan schema { options with strict := false } = .ok codebook) ∧
    ∀ fault, plan schema { options with strict := true } = .error fault →
      (¬ schema.ChoicesInRange →
        ∃ before message after, schema.messages = before ++ message :: after ∧
          (∀ other ∈ before, ∀ signal ∈ other.signals, signal.ChoicesInRange) ∧
          ∃ passed signal rest, message.signals = passed ++ signal :: rest ∧
            (∀ other ∈ passed, other.ChoicesInRange) ∧
            ∃ choices, signal.choices = some choices ∧ ∃ entry ∈ choices.entries,
              signal.range.contains entry.1 = false ∧
                fault = .badChoice message.name signal.name entry.1 entry.2) ∧
      (schema.ChoicesInRange →
        ∃ before message after, schema.messages = before ++ message :: after ∧
          (∀ other ∈ before, other.Plannable) ∧ ¬ message.Plannable ∧
          ∃ layoutFault, fault = .layout layoutFault ∧
            Codec.plan message options.packed true = .error layoutFault ∧
            message.RefusedFor layoutFault) := by
  have positive : ∀ message ∈ schema.messages, ∀ signal ∈ message.signals, 0 < signal.length :=
    fun message member signal signalMember => (schema.signal_length_bounds member signalMember).1
  simp only [plan, if_true, Bool.false_eq_true, if_false, planStrict]
  refine ⟨⟨_, rfl, divides_planSome options.packed positive⟩, ?_, ?_, ?_⟩
  · rw [← Schema.choiceViolation?_eq_none_iff, ← planAll_ok_iff options.packed positive]
    cases schema.choiceViolation? with
    | some fault => simp
    | none => cases planAll options.packed schema.messages <;> simp
  · intro codebook planned
    cases checked : schema.choiceViolation? with
    | some fault => simp [checked] at planned
    | none =>
        cases all : planAll options.packed schema.messages with
        | error fault => simp [checked, all] at planned
        | ok codecs =>
            simp only [checked, all, Except.ok.injEq] at planned
            rw [← planned, planSome_of_planAll all]
            exact ⟨rfl, rfl⟩
  · intro fault failed
    constructor
    · intro outside
      cases checked : schema.choiceViolation? with
      | none => exact absurd (Schema.choiceViolation?_eq_none_iff.mp checked) outside
      | some violation =>
          simp only [checked, Except.error.injEq] at failed
          rw [← failed]
          exact Schema.choiceViolation?_eq_some checked
    · intro inRange
      rw [Schema.choiceViolation?_eq_none_iff.mpr inRange] at failed
      cases all : planAll options.packed schema.messages with
      | ok codecs => simp [all] at failed
      | error layoutFault =>
          simp only [all, Except.error.injEq] at failed
          rcases planAll_error positive all with
            ⟨before, message, after, split, passed, notPlannable, refused, reason⟩
          exact ⟨before, message, after, split, passed, notPlannable, layoutFault, failed.symm,
            refused, reason⟩

end Codebook

end CanCodec
