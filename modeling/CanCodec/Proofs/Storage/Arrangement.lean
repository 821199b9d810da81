import CanCodec.Proofs.Checked.Storage

/-! # The arrangement of a record

A record holds its signals one after another in declared order. A packed record leaves no bit
between them; a record of whole integers starts each at the least multiple of its width, and
ends at the least multiple of its widest one. -/

namespace CanCodec

namespace RecordLayout

/-! ## Layouts -/

structure Holds (layout : RecordLayout) (message : Message) (placed : List Frame.Placed) :
    Prop where
  /-- One field for each signal, in declared order. -/
  signals : layout.fields.map Field.signal = message.signals
  indices : layout.fields.map Field.index = List.range message.signals.length
  segments : layout.fields.map Field.segments = placed.map Frame.Placed.segments
  /-- A field ends before any later one starts. -/
  ordered : layout.fields.Pairwise fun earlier later => earlier.stop ≤ later.offset
  /-- No two fields start at one bit, unless a signal has no bits. -/
  increasing : (∀ signal ∈ message.signals, 0 < signal.length) →
    layout.fields.Pairwise fun earlier later => earlier.offset < later.offset
  inside : ∀ field ∈ layout.fields, field.stop ≤ 8 * layout.sizeBytes

structure Dense (layout : RecordLayout) : Prop where
  storage : ∀ field ∈ layout.fields, field.storageBits = field.signal.length
  offset : ∀ before field after, layout.fields = before ++ field :: after →
    field.offset = (before.map fun earlier => earlier.signal.length).sum
  size : layout.sizeBytes = ((layout.fields.map fun field => field.signal.length).sum + 7) / 8

structure Aligned (layout : RecordLayout) : Prop where
  storage : ∀ field ∈ layout.fields, field.storageBits = field.primitive.bits
  offset : ∀ before field after, layout.fields = before ++ field :: after →
    IsLeast {position | field.primitive.bits ∣ position ∧ stopFrom 0 before ≤ position}
      field.offset
  size : IsLeast {bits | widest layout.fields ∣ bits ∧ stopFrom 0 layout.fields ≤ bits}
    (8 * layout.sizeBytes)
  empty : layout.fields = [] → layout.sizeBytes = 0

section

variable (message : String) (placed : List Frame.Placed)

theorem dense_ofPlan : (ofPlan message true placed).Dense where
  storage field member := storageBits_of_mem_layFields member
  offset before field after split := by
    rcases exists_of_layFields_eq_append split with ⟨source, rfl⟩
    have stop := stopFrom_of_packed split
    rw [Nat.zero_add] at stop
    exact stop
  size := by
    have stop := stopFrom_of_packed (List.append_nil (layFields true 0 0 placed)).symm
    rw [Nat.zero_add] at stop
    rw [sizeBytes_ofPlan, extent, if_pos rfl, stop]
    rfl

theorem eight_mul_sizeBytes : 8 * (ofPlan message false placed).sizeBytes =
    alignUp (stopFrom 0 (layFields false 0 0 placed))
      (alignment (layFields false 0 0 placed)) := by
  have divides : 8 ∣ alignUp (stopFrom 0 (layFields false 0 0 placed))
      (alignment (layFields false 0 0 placed)) :=
    Nat.dvd_trans (eight_dvd_alignment _) (Nat.dvd_mul_left _ _)
  rw [sizeBytes_ofPlan, extent, if_neg Bool.false_ne_true, ceilDiv]
  omega

theorem aligned_ofPlan : (ofPlan message false placed).Aligned where
  storage field member := storageBits_of_mem_layFields member
  offset before field after split := by
    rcases exists_of_layFields_eq_append split with ⟨source, rfl⟩
    have positive := (layField false (stopFrom 0 before) (0 + before.length)
      source).primitive.bits_pos
    exact isLeast_alignUp positive _
  size := by
    rw [eight_mul_sizeBytes, ← alignment_eq_widest]
    exact isLeast_alignUp (alignment_pos _) _
  empty none := by
    cases placed with
    | nil => rfl
    | cons head rest => cases none

end

theorem stopFrom_le_size (message : String) (packed : Bool) (placed : List Frame.Placed) :
    stopFrom 0 (layFields packed 0 0 placed) ≤ 8 * (ofPlan message packed placed).sizeBytes := by
  have le := stopFrom_le_extent packed (layFields packed 0 0 placed)
  rw [sizeBytes_ofPlan, ceilDiv]
  omega

theorem holds_ofPlan (message : Message) (packed : Bool) (placed : List Frame.Placed)
    (signals : placed.map Frame.Placed.signal = message.signals) :
    (ofPlan message.name packed placed).Holds message placed where
  signals := (map_signal_layFields packed 0 0 placed).trans signals
  indices := by
    rw [← signals, List.length_map, List.range_eq_range']
    exact map_index_layFields packed 0 0 placed
  segments := map_segments_layFields packed 0 0 placed
  ordered := pairwise_layFields packed 0 0 placed
  increasing positive := by
    apply increasing_layFields
    intro source member
    apply positive
    rw [← signals]
    exact List.mem_map_of_mem member
  inside field member :=
    Nat.le_trans (stop_le_of_mem_layFields member) (stopFrom_le_size message.name packed placed)

/-- The layout of a planned message holds each signal at bits of its own. A packed layout has as
few bits as the signals and as few bytes as hold them; a layout of whole integers starts each
one, and ends, at the first multiple that its widths allow. Counting the bits in 32 bits gives
the same layout, unless the record has more bits than 32 bits can count. -/
theorem ofPlan_arranged (message : Message) (packed : Bool) (placed : List Frame.Placed)
    (signals : placed.map Frame.Placed.signal = message.signals) :
    (∀ layout, Checked.ofPlan message.name packed placed = some layout ↔
      extent packed (layFields packed 0 0 placed) < 2 ^ 32 ∧
        layout = ofPlan message.name packed placed) ∧
    (ofPlan message.name packed placed).Holds message placed ∧
    (packed = true → (ofPlan message.name packed placed).Dense) ∧
    (packed = false → (ofPlan message.name packed placed).Aligned) := by
  refine ⟨fun layout => Checked.ofPlan_eq_some_iff,
    holds_ofPlan message packed placed signals, ?_, ?_⟩
  · rintro rfl
    exact dense_ofPlan message.name placed
  · rintro rfl
    exact aligned_ofPlan message.name placed

/-- Signals of 1, 12, 20 and 3 bits, in a record of whole integers with a gap before the second
and at the end. -/
def dashboard : Message where
  frameId := 0x100
  name := "Dashboard"
  length := 5
  signals :=
    [{ name := "Flag", start := 0, length := 1, byteOrder := .littleEndian },
      { name := "Speed", start := 1, length := 12, byteOrder := .littleEndian },
      { name := "Counter", start := 16, length := 20, byteOrder := .littleEndian, signed := true },
      { name := "Mode", start := 13, length := 3, byteOrder := .littleEndian }]

def dashboardPlan : List Frame.Placed := dashboard.signals.map Frame.placing

theorem ofPlan_arranged_dashboard :
    dashboardPlan.map Frame.Placed.signal = dashboard.signals ∧
      (ofPlan "Dashboard" false dashboardPlan).Aligned ∧
      (ofPlan "Dashboard" false dashboardPlan).fields.map Field.offset = [0, 16, 32, 64] ∧
      (ofPlan "Dashboard" false dashboardPlan).sizeBytes = 12 ∧
      (ofPlan "Dashboard" true dashboardPlan).Dense ∧
      (ofPlan "Dashboard" true dashboardPlan).fields.map Field.offset = [0, 1, 13, 33] ∧
      (ofPlan "Dashboard" true dashboardPlan).sizeBytes = 5 := by
  have whole := ofPlan_arranged dashboard false dashboardPlan rfl
  have packed := ofPlan_arranged dashboard true dashboardPlan rfl
  exact ⟨rfl, whole.2.2.2 rfl, by decide, by decide, packed.2.2.1 rfl, by decide, by decide⟩

end RecordLayout

end CanCodec
