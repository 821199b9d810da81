import CanCodec.Proofs.Storage.Arrangement

/-! # The room that a record needs

Signals that stand apart have no more bits than their frame, and a packed record has no more
bits than its signals. -/

namespace CanCodec

namespace RecordLayout

theorem sum_length_layFields (packed : Bool) {message : Message} {placed : List Frame.Placed}
    (signals : placed.map Frame.Placed.signal = message.signals) :
    ((layFields packed 0 0 placed).map fun field => field.signal.length).sum =
      (message.signals.map Signal.length).sum := by
  rw [← signals, ← map_signal_layFields packed 0 0 placed, List.map_map]
  rfl

theorem sizeBytes_packed {message : Message} {placed : List Frame.Placed}
    (signals : placed.map Frame.Placed.signal = message.signals) :
    (ofPlan message.name true placed).sizeBytes =
      ((message.signals.map Signal.length).sum + 7) / 8 := by
  rw [(dense_ofPlan message.name placed).size]
  exact congrArg (fun total => (total + 7) / 8) (sum_length_layFields true signals)

end RecordLayout

namespace Codec

/-- The signals of a strictly planned message have at most as many bits as its frame, and as many
exactly if they leave no bit of it. So there are at most as many signals, and the packed record
of its codec is no larger than the frame, and as large if no bit is left.

A frame of fewer than `2 ^ 32` bits is laid out by a counter of 32 bits. The layout of a longer
frame is the one without such a bound. -/
theorem packed_record_le_frame (message : Message) (placed : List Frame.Placed)
    (planned : Frame.planMessage message true = .ok placed) :
    (message.signals.map Signal.length).sum ≤ 8 * message.length ∧
    ((message.signals.map Signal.length).sum = 8 * message.length ↔
      ∀ place : Place, place.byte < message.length → place.bit < 8 → message.Claims place) ∧
    message.signals.length ≤ 8 * message.length ∧
    ∃ codec, plan message true true = .ok codec ∧
      (8 * message.length < 2 ^ 32 →
        Checked.ofPlan message.name true placed = some codec.layout) ∧
      codec.layout.sizeBytes ≤ message.length ∧
      ((∀ place : Place, place.byte < message.length → place.bit < 8 → message.Claims place) →
        codec.layout.sizeBytes = message.length) := by
  rcases Frame.planMessage_ok_iff.mp planned with ⟨fits, strictApart, rfl⟩
  have apart := strictApart rfl
  have signals : (message.signals.map Frame.placing).map Frame.Placed.signal = message.signals := by
    rw [List.map_map]
    exact List.map_id _
  have total := Signal.sum_length_le fits apart
  have full := Signal.sum_length_eq_iff fits apart
  have size := RecordLayout.sizeBytes_packed signals
  refine ⟨total, full, Signal.length_le_of_apart fits apart, _,
    plan_ok_iff.mpr ⟨fits, strictApart, rfl⟩, fun small => Checked.ofPlan_of_extent_lt ?_, ?_, ?_⟩
  · rw [RecordLayout.extent, if_pos rfl,
      RecordLayout.stopFrom_of_packed (List.append_nil _).symm, Nat.zero_add,
      RecordLayout.sum_length_layFields true signals]
    exact Nat.lt_of_le_of_lt total small
  · dsimp only
    omega
  · intro claimed
    have none := full.mpr claimed
    dsimp only
    omega

def gapless : Message where
  frameId := 0x2b
  name := "Gapless"
  length := 2
  signals :=
    [{ name := "Upper", start := 0, length := 4, byteOrder := .bigEndian },
      { name := "Lower", start := 0, length := 4, byteOrder := .littleEndian },
      { name := "Rest", start := 8, length := 8, byteOrder := .bigEndian, signed := true }]

theorem packed_record_le_frame_gapless :
    Frame.planMessage gapless true = .ok (gapless.signals.map Frame.placing) ∧
      (∀ place : Place, place.byte < 2 → place.bit < 8 → gapless.Claims place) ∧
      (gapless.signals.map Signal.length).sum = 16 ∧
      ∃ codec, plan gapless true true = .ok codec ∧
        Checked.ofPlan "Gapless" true (gapless.signals.map Frame.placing) = some codec.layout ∧
        codec.layout.sizeBytes = 2 := by
  have planned : Frame.planMessage gapless true = .ok (gapless.signals.map Frame.placing) := rfl
  have claimed : ∀ place : Place, place.byte < 2 → place.bit < 8 → gapless.Claims place := by
    have each : ∀ byte < 2, ∀ bit < 8, gapless.Claims ⟨byte, bit⟩ := by decide
    exact fun place byte bit => each place.byte byte place.bit bit
  rcases packed_record_le_frame gapless _ planned with ⟨_, total, _, codec, built, counted, _, full⟩
  exact ⟨planned, claimed, total.mpr claimed, codec, built, counted (by decide), full claimed⟩

end Codec

end CanCodec
