import CanCodec.Codebook
import CanCodec.Proofs.Codec
import CanCodec.Proofs.Schema

/-! # Codecs of a schema

A codebook holds plans of its schema's messages, and a strict one only where all choices
are in range and no two signals meet. -/

namespace CanCodec

namespace Codebook

theorem planStrict_ok_iff {schema : Schema} {packed : Bool} {codebook : Codebook} :
    planStrict schema packed = .ok codebook ↔
      schema.choiceViolation? = none ∧ ∃ codecs,
        schema.messages.map (fun message => Codec.plan message packed true) = codecs.map .ok ∧
          codebook = ⟨codecs, []⟩ := by
  simp only [planStrict]
  cases checked : schema.choiceViolation? with
  | some fault => simp
  | none =>
      cases planned : planAll packed schema.messages with
      | error fault =>
          simp only [reduceCtorEq, true_and, false_iff]
          intro accepted
          rcases accepted with ⟨codecs, values, _⟩
          have success : planAll packed schema.messages = .ok codecs := mapM_ok_iff.mpr values
          rw [planned] at success
          cases success
      | ok codecs =>
          have values := mapM_ok_iff.mp planned
          simp only [Except.ok.injEq, true_and]
          constructor
          · intro same
            exact ⟨codecs, values, same.symm⟩
          · intro accepted
            rcases accepted with ⟨others, otherValues, equal⟩
            have same : codecs = others :=
              (List.map_inj_right fun _ _ equal => Except.ok.inj equal).mp
                (values.symm.trans otherValues)
            rw [equal, same]

theorem of_mem_plan_strict {schema : Schema} {options : Options} {codebook : Codebook}
    {codec : Codec} (strict : options.strict = true)
    (planned : plan schema options = .ok codebook) (member : codec ∈ codebook.codecs) :
    codec.message ∈ schema.messages ∧ codec.Planned ∧
      codec.message.signals.Pairwise Signal.Apart ∧
      ∀ signal ∈ codec.message.signals, signal.ChoicesInRange := by
  simp only [plan, strict, if_true] at planned
  rcases planStrict_ok_iff.mp planned with ⟨checked, codecs, values, equal⟩
  rw [equal] at member
  have listed : Except.ok codec ∈
      schema.messages.map (fun message => Codec.plan message options.packed true) := by
    rw [values]
    exact List.mem_map_of_mem member
  rcases List.mem_map.mp listed with ⟨message, messageMember, codecPlanned⟩
  rcases Codec.plan_ok_iff.mp codecPlanned with ⟨_, apart, codecEqual⟩
  have messageEqual : codec.message = message := by rw [codecEqual]
  rw [messageEqual]
  refine ⟨messageMember, ?_, apart rfl, ?_⟩
  · apply Codec.Planned.of_plan codecPlanned
    intro signal signalMember
    exact (schema.signal_length_bounds messageMember signalMember).2
  · intro signal signalMember
    exact schema.choicesInRange checked messageMember signalMember

theorem exists_codec_of_strict {schema : Schema} {options : Options} {codebook : Codebook}
    {message : Message} (strict : options.strict = true)
    (planned : plan schema options = .ok codebook) (member : message ∈ schema.messages) :
    ∃ codec ∈ codebook.codecs, codec.message = message := by
  simp only [plan, strict, if_true] at planned
  rcases planStrict_ok_iff.mp planned with ⟨-, codecs, values, equal⟩
  have listed : Codec.plan message options.packed true ∈ codecs.map .ok :=
    values ▸ List.mem_map_of_mem member
  rcases List.mem_map.mp listed with ⟨codec, codecMember, codecPlanned⟩
  refine ⟨codec, equal ▸ codecMember, ?_⟩
  rw [(Codec.plan_ok_iff.mp codecPlanned.symm).2.2]

end Codebook

end CanCodec
