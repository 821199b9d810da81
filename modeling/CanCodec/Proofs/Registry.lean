import Mathlib.Data.List.Nodup
import CanCodec.Registry
import CanCodec.Proofs.Codebook.Partition
import CanCodec.Proofs.Encoding

/-! # What a registry finds

A registry of a schema holds each planned codec under its frame id. -/

namespace CanCodec

namespace Codebook

theorem message_mem {schema : Schema} {options : Options} {codebook : Codebook}
    {codec : Codec} (planned : plan schema options = .ok codebook)
    (member : codec ∈ codebook.codecs) : codec.message ∈ schema.messages := by
  have listed : codec.message ∈ codebook.codecs.map Codec.message := List.mem_map_of_mem member
  rw [map_message_codecs planned] at listed
  exact (List.mem_filter.mp listed).1

theorem nodup_frameIds {schema : Schema} {options : Options} {codebook : Codebook}
    (planned : plan schema options = .ok codebook) :
    (codebook.codecs.map Codec.frameId).Nodup := by
  have kept : (codebook.codecs.map Codec.message).Sublist schema.messages := by
    rw [map_message_codecs planned]
    exact List.filter_sublist
  have distinct := schema.nodup_frameIds.sublist (kept.map Message.frameId)
  rw [List.map_map] at distinct
  exact distinct

end Codebook

/-! ## Refusals of a codec -/

namespace Codec

theorem encode_fault {codec : Codec} {record : Record} {fault : Fault}
    (refused : codec.encode record = .error (.fault fault)) :
    ∃ signal name, fault = .unknownChoice signal name := by
  rcases mapM_error_iff.mp (encode_error_iff.mp refused) with ⟨_, field, _, _, _, failed⟩
  rcases Signal.rawOf_fault_iff.mp failed with ⟨name, _, same⟩
  exact ⟨_, name, same⟩

theorem decode_error_iff {codec : Codec} {payload : Payload} {fault : Fault} :
    codec.decode payload = .error fault ↔
      payload.length < codec.wireLength ∧
        fault = .truncated codec.frameId codec.wireLength payload.length := by
  rw [decode, checkLength]
  split
  next short => simp [Except.map, short, eq_comm]
  next long => simp [Except.map, long]

end Codec

/-! ## Codecs by frame id -/

def latest? (history : List Codec) (frameId : Nat) : Option Codec :=
  (history.filter fun codec => codec.frameId = frameId).getLast?

theorem latest?_eq_none_iff {history : List Codec} {frameId : Nat} :
    latest? history frameId = none ↔ ∀ codec ∈ history, codec.frameId ≠ frameId := by
  simp [latest?]

theorem mem_of_latest? {history : List Codec} {frameId : Nat} {codec : Codec}
    (latest : latest? history frameId = some codec) :
    codec ∈ history ∧ codec.frameId = frameId := by
  have member := List.mem_of_getLast? latest
  simpa only [List.mem_filter, decide_eq_true_eq] using member

namespace Registry

theorem get?_foldl_register (codecs : List Codec) (registry : Registry) (frameId : Nat) :
    (codecs.foldl register registry).codecs.get? frameId =
      (latest? codecs frameId).or (registry.codecs.get? frameId) := by
  induction codecs generalizing registry with
  | nil => rfl
  | cons codec rest induction =>
      rw [List.foldl_cons, induction, register, AscendingMap.get?_insert, latest?, latest?]
      by_cases same : codec.frameId = frameId
      · cases last : (rest.filter fun codec => codec.frameId = frameId).getLast? with
        | none => simp [same, List.getLast?_cons, last]
        | some entry => simp [same, List.getLast?_cons, last]
      · simp [same]

theorem get?_ofCodebook (codebook : Codebook) (frameId : Nat) :
    (ofCodebook codebook).codecs.get? frameId = latest? codebook.codecs frameId := by
  rw [ofCodebook, get?_foldl_register]
  exact Option.or_none

theorem codec_eq (registry : Registry) (frameId : Nat) :
    registry.codec frameId = match registry.codecs.get? frameId with
      | some codec => .ok codec
      | none => .error (.unknownFrame frameId) := rfl

theorem codec_error_iff {codebook : Codebook} {frameId : Nat} {fault : Fault} :
    (ofCodebook codebook).codec frameId = .error fault ↔
      fault = .unknownFrame frameId ∧ ∀ codec ∈ codebook.codecs, codec.frameId ≠ frameId := by
  rw [codec_eq, get?_ofCodebook, ← latest?_eq_none_iff]
  cases latest? codebook.codecs frameId <;> simp [eq_comm]

theorem of_codec_ok {codebook : Codebook} {frameId : Nat} {found : Codec}
    (isFound : (ofCodebook codebook).codec frameId = .ok found) :
    found ∈ codebook.codecs ∧ found.frameId = frameId := by
  rw [codec_eq, get?_ofCodebook] at isFound
  cases last : latest? codebook.codecs frameId with
  | none => simp [last] at isFound
  | some other =>
      simp only [last, Except.ok.injEq] at isFound
      exact mem_of_latest? (isFound ▸ last)

theorem codec_ok_iff {codebook : Codebook} {frameId : Nat} {found : Codec}
    (distinct : (codebook.codecs.map Codec.frameId).Nodup) :
    (ofCodebook codebook).codec frameId = .ok found ↔
      found ∈ codebook.codecs ∧ found.frameId = frameId := by
  refine ⟨of_codec_ok, fun member => ?_⟩
  cases isFound : (ofCodebook codebook).codec frameId with
  | error fault => exact absurd member.2 ((codec_error_iff.mp isFound).2 found member.1)
  | ok other =>
      have otherMember := of_codec_ok isFound
      rw [List.inj_on_of_nodup_map distinct otherMember.1 member.1
        (otherMember.2.trans member.2.symm)]

theorem send_of_codec {registry : Registry} {frameId : Nat} {codec : Codec}
    (found : registry.codec frameId = .ok codec) (record : Record) :
    registry.send frameId record = codec.encode record := by
  rw [send, found]
  rfl

theorem send_of_no_codec {registry : Registry} {frameId : Nat} {fault : Fault}
    (missing : registry.codec frameId = .error fault) (record : Record) :
    registry.send frameId record = .error (.fault fault) := by
  rw [send, missing]
  rfl

theorem send_unknown_iff {registry : Registry} {frameId : Nat} {record : Record} :
    registry.send frameId record = .error (.fault (.unknownFrame frameId)) ↔
      registry.codec frameId = .error (.unknownFrame frameId) := by
  cases found : registry.codec frameId with
  | error fault => simp [send_of_no_codec found]
  | ok codec =>
      simp only [send_of_codec found, reduceCtorEq, iff_false]
      intro refused
      rcases Codec.encode_fault refused with ⟨_, _, same⟩
      cases same

theorem receive_unknown_iff {registry : Registry} {frameId : Nat} {payload : Payload} :
    registry.receive frameId payload = .error (.unknownFrame frameId) ↔
      registry.codec frameId = .error (.unknownFrame frameId) := by
  cases found : registry.codec frameId with
  | error fault => simp [receive, found, bind, Except.bind]
  | ok codec => simp [receive, found, bind, Except.bind, Codec.decode_error_iff]

theorem receive_truncated_iff {codebook : Codebook} {frameId : Nat} {payload : Payload} :
    (∃ expected, (ofCodebook codebook).receive frameId payload =
        .error (.truncated frameId expected payload.length)) ↔
      ∃ codec, (ofCodebook codebook).codec frameId = .ok codec ∧
        payload.length < codec.wireLength := by
  cases found : (ofCodebook codebook).codec frameId with
  | error fault =>
      have same := (codec_error_iff.mp found).1
      simp [receive, found, bind, Except.bind, same]
  | ok codec =>
      have same := (of_codec_ok found).2
      simp [receive, found, bind, Except.bind, Codec.decode_error_iff, same]

end Registry

end CanCodec
