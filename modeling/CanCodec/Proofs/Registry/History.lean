import Mathlib.Data.List.Dedup
import CanCodec.Proofs.AscendingMap
import CanCodec.Proofs.OrderedMap
import CanCodec.Proofs.Registry

/-! # Registries over whole runs

A registry behaves as its history says: the codecs that it was built from, in catalog
order, and then those registered since. Of the codecs of one frame id, the latest sends and
receives. -/

namespace CanCodec

/-! ## Histories of codecs -/

def IsLatest (history : List Codec) (frameId : Nat) (codec : Codec) : Prop :=
  codec.frameId = frameId ∧ ∃ before after, history = before ++ codec :: after ∧
    ∀ other ∈ after, other.frameId ≠ frameId

theorem latest?_append (history : List Codec) (codec : Codec) (frameId : Nat) :
    latest? (history ++ [codec]) frameId =
      if codec.frameId = frameId then some codec else latest? history frameId := by
  by_cases same : codec.frameId = frameId <;> simp [latest?, List.filter_append, same]

theorem latest?_eq_some_iff {history : List Codec} {frameId : Nat} {codec : Codec} :
    latest? history frameId = some codec ↔ IsLatest history frameId codec :=
  getLast?_filter_eq_some_iff

theorem IsLatest.of_nodup {history : List Codec} {codec : Codec}
    (distinct : (history.map Codec.frameId).Nodup) (member : codec ∈ history) :
    IsLatest history codec.frameId codec := by
  rcases List.append_of_mem member with ⟨before, after, rfl⟩
  refine ⟨rfl, before, after, rfl, fun other otherMember same => ?_⟩
  rw [List.map_append, List.map_cons, List.nodup_append, List.nodup_cons] at distinct
  exact distinct.2.1.1 (same ▸ List.mem_map_of_mem otherMember)

namespace Registry

/-! ## What a history says of a registry -/

/-- A registry finds the codecs of `history`, each under its frame id, the latest of each
frame id. -/
structure Reflects (registry : Registry) (history : List Codec) : Prop where
  ascending : registry.frameIds.Pairwise (· < ·)
  listed : ∀ frameId, frameId ∈ registry.frameIds ↔
    ∃ codec ∈ history, codec.frameId = frameId
  size : registry.size = (history.map Codec.frameId).dedup.length
  finds : ∀ frameId codec, registry.codec frameId = .ok codec ↔ IsLatest history frameId codec
  misses : ∀ frameId fault, registry.codec frameId = .error fault ↔
    fault = .unknownFrame frameId ∧ ∀ codec ∈ history, codec.frameId ≠ frameId
  sends : ∀ frameId codec, IsLatest history frameId codec →
    ∀ record, registry.send frameId record = codec.encode record
  receives : ∀ frameId codec, IsLatest history frameId codec →
    ∀ payload, registry.receive frameId payload = codec.decode payload
  unknown : ∀ frameId, (∀ codec ∈ history, codec.frameId ≠ frameId) →
    (∀ record, registry.send frameId record = .error (.fault (.unknownFrame frameId))) ∧
      ∀ payload, registry.receive frameId payload = .error (.unknownFrame frameId)

variable {registry : Registry} {history : List Codec}

theorem mem_frameIds_iff {frameId : Nat} :
    frameId ∈ registry.frameIds ↔ ∃ codec, registry.codecs.get? frameId = some codec := by
  simp [frameIds, AscendingMap.keys, AscendingMap.get?_eq_some_iff]

theorem nodup_frameIds (registry : Registry) : registry.frameIds.Nodup :=
  registry.codecs.nodup_keys

theorem Reflects.of_get?
    (entries : ∀ frameId, registry.codecs.get? frameId = latest? history frameId) :
    registry.Reflects history := by
  have listed : ∀ frameId, frameId ∈ registry.frameIds ↔
      ∃ codec ∈ history, codec.frameId = frameId := by
    intro frameId
    rw [mem_frameIds_iff, entries, ← Option.ne_none_iff_exists', ne_eq, latest?_eq_none_iff]
    simp
  have ascending : registry.frameIds.Pairwise (· < ·) :=
    List.pairwise_map.mpr registry.codecs.ascending
  have finds : ∀ frameId codec,
      registry.codec frameId = .ok codec ↔ IsLatest history frameId codec := by
    intro frameId codec
    rw [codec_eq, entries, ← latest?_eq_some_iff]
    cases latest? history frameId <;> simp
  have misses : ∀ frameId fault, registry.codec frameId = .error fault ↔
      fault = .unknownFrame frameId ∧ ∀ codec ∈ history, codec.frameId ≠ frameId := by
    intro frameId fault
    rw [codec_eq, entries, ← latest?_eq_none_iff]
    cases latest? history frameId <;> simp [eq_comm]
  refine ⟨ascending, listed, ?_, finds, misses, ?_, ?_, ?_⟩
  · have same : registry.frameIds.Perm (history.map Codec.frameId).dedup := by
      rw [List.perm_ext_iff_of_nodup registry.nodup_frameIds (List.nodup_dedup _)]
      simp [listed]
    rw [← same.length_eq, frameIds, AscendingMap.keys, List.length_map]
    rfl
  · intro frameId codec latest record
    exact send_of_codec ((finds frameId codec).mpr latest) record
  · intro frameId codec latest payload
    simp [receive, (finds frameId codec).mpr latest, bind, Except.bind]
  · intro frameId absent
    have missing := (misses frameId _).mpr ⟨rfl, absent⟩
    exact ⟨fun record => send_unknown_iff.mpr missing, fun payload => receive_unknown_iff.mpr missing⟩

/-! ## Runs -/

inductive Request
  | register (codec : Codec)
  | send (frameId : Nat) (record : Record)
  | receive (frameId : Nat) (payload : Payload)

inductive Reply
  | registered
  | sent (result : Except (Failure Fault) Payload)
  | received (result : Except Fault Record)

def serve (registry : Registry) : Request → Reply × Registry
  | .register codec => (.registered, registry.register codec)
  | .send frameId record => (.sent (registry.send frameId record), registry)
  | .receive frameId payload => (.received (registry.receive frameId payload), registry)

def serveAll (registry : Registry) : List Request → List Reply × Registry
  | [] => ([], registry)
  | request :: rest =>
      let (reply, next) := registry.serve request
      let (replies, last) := next.serveAll rest
      (reply :: replies, last)

namespace Request

def codecs : Request → List Codec
  | .register codec => [codec]
  | .send _ _ => []
  | .receive _ _ => []

def reply (history : List Codec) : Request → Reply
  | .register _ => .registered
  | .send frameId record =>
      .sent (((latest? history frameId).map fun codec => codec.encode record).getD
        (.error (.fault (.unknownFrame frameId))))
  | .receive frameId payload =>
      .received (((latest? history frameId).map fun codec => codec.decode payload).getD
        (.error (.unknownFrame frameId)))

def replies (history : List Codec) : List Request → List Reply
  | [] => []
  | request :: rest => request.reply history :: replies (history ++ request.codecs) rest

end Request

/-- The codecs that are found, and the messages left out, after one request. -/
theorem serve_spec (request : Request)
    (entries : ∀ frameId, registry.codecs.get? frameId = latest? history frameId) :
    (registry.serve request).1 = request.reply history ∧
      (∀ frameId, (registry.serve request).2.codecs.get? frameId =
        latest? (history ++ request.codecs) frameId) ∧
      (registry.serve request).2.skipped = registry.skipped := by
  cases request with
  | register codec =>
      refine ⟨rfl, fun frameId => ?_, rfl⟩
      rw [Request.codecs, latest?_append, ← entries]
      exact AscendingMap.get?_insert registry.codecs codec.frameId frameId codec
  | send frameId record =>
      refine ⟨?_, by rwa [Request.codecs, List.append_nil], rfl⟩
      simp only [serve, Request.reply, send, codec_eq, entries]
      cases latest? history frameId <;> rfl
  | receive frameId payload =>
      refine ⟨?_, by rwa [Request.codecs, List.append_nil], rfl⟩
      simp only [serve, Request.reply, receive, codec_eq, entries]
      cases latest? history frameId <;> rfl

structure Follows (start : Registry) (history : List Codec) (requests : List Request) :
    Prop where
  replies : (start.serveAll requests).1 = Request.replies history requests
  reflects : (start.serveAll requests).2.Reflects (history ++ requests.flatMap Request.codecs)
  skipped : (start.serveAll requests).2.skipped = start.skipped

theorem Follows.of_get? (requests : List Request)
    (entries : ∀ frameId, registry.codecs.get? frameId = latest? history frameId) :
    registry.Follows history requests := by
  -- Every step keeps the entries equal to the latest codecs of the history.
  induction requests generalizing registry history with
  | nil => exact ⟨rfl, .of_get? (by rwa [List.flatMap_nil, List.append_nil]), rfl⟩
  | cons request rest induction =>
      rcases serve_spec request entries with ⟨reply, next, kept⟩
      have others := induction next
      constructor
      · rw [Request.replies, ← reply, ← others.replies]
        rfl
      · rw [List.flatMap_cons, ← List.append_assoc]
        exact others.reflects
      · exact others.skipped.trans kept

theorem skipped_ofCodebook (codebook : Codebook) :
    (ofCodebook codebook).skipped = codebook.skipped := by
  have kept : ∀ (codecs : List Codec) (registry : Registry),
      (codecs.foldl register registry).skipped = registry.skipped := by
    intro codecs
    induction codecs with
    | nil => exact fun _ => rfl
    | cons codec rest induction => exact fun registry => induction (registry.register codec)
  exact kept codebook.codecs _

/-- However a registry was built, any run of requests answers and ends as its history says:
the latest codec of each frame id is found, sends and receives, and the messages left out
stay the same. A registry of a schema starts with one codec for each message that its plan
takes. -/
theorem follows_history (requests : List Request) :
    (empty.Follows [] requests ∧ empty.skipped = []) ∧
    ∀ schema options registry, ofSchema schema options = .ok registry →
      ∃ codebook, Codebook.plan schema options = .ok codebook ∧
        codebook.codecs.map Codec.message =
          schema.messages.filter (fun message => message.InFrame) ∧
        registry.frameIds.Perm (codebook.codecs.map Codec.frameId) ∧
        (∀ codec ∈ codebook.codecs, registry.codec codec.frameId = .ok codec) ∧
        registry.skipped = codebook.skipped ∧
        registry.Follows codebook.codecs requests := by
  refine ⟨⟨.of_get? requests fun frameId => rfl, rfl⟩, ?_⟩
  intro schema options registry built
  cases planned : Codebook.plan schema options with
  | error fault => simp [ofSchema, planned, Except.map] at built
  | ok codebook =>
      have equal : ofCodebook codebook = registry := by
        simpa [ofSchema, planned, Except.map] using built
      rw [← equal]
      have distinct := Codebook.nodup_frameIds planned
      have start := Reflects.of_get? (get?_ofCodebook codebook)
      refine ⟨codebook, rfl, Codebook.map_message_codecs planned, ?_, ?_,
        skipped_ofCodebook codebook, .of_get? requests (get?_ofCodebook codebook)⟩
      · rw [List.perm_ext_iff_of_nodup (nodup_frameIds _) distinct]
        simp [start.listed]
      · intro codec member
        exact (start.finds _ _).mpr (.of_nodup distinct member)

def gauges : Schema where
  version := none
  messages :=
    [{ frameId := 0x10, name := "Gauge", length := 1
       signals := [{ name := "Level", start := 0, length := 8, byteOrder := .littleEndian
                     initial := some 5 }] },
      { frameId := 0x20, name := "Wide", length := 1
        signals := [{ name := "Total", start := 0, length := 16, byteOrder := .littleEndian }] }]
  sound := by decide

def widerGauge : Codec :=
  .ofMessage false
    { frameId := 0x10, name := "Gauge", length := 2
      signals := [{ name := "Level", start := 8, length := 8, byteOrder := .bigEndian
                    initial := some 7 }] }

theorem follows_history_gauges :
    ∃ registry, ofSchema gauges { strict := false } = .ok registry ∧
      registry.frameIds = [0x10] ∧ registry.skipped.length = 1 ∧
      (registry.serveAll
        [.send 0x10 .empty, .register widerGauge, .send 0x10 .empty, .receive 0x20 [1, 2]]).1 =
          [.sent (.ok [5]), .registered, .sent (.ok [0, 7]),
            .received (.error (.unknownFrame 0x20))] := by
  have built : ofSchema gauges { strict := false } =
      .ok (ofCodebook (Codebook.planSome false gauges.messages)) := rfl
  refine ⟨_, built, rfl, rfl, ?_⟩
  rcases (follows_history
    [.send 0x10 .empty, .register widerGauge, .send 0x10 .empty, .receive 0x20 [1, 2]]).2
      gauges { strict := false } _ built with ⟨codebook, planned, _, _, _, _, follows⟩
  rw [follows.replies, ← Except.ok.inj planned]
  rfl

end Registry

end CanCodec
