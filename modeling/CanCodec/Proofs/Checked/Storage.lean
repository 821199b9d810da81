import CanCodec.Proofs.Schema
import CanCodec.Proofs.Frame.Capacity
import CanCodec.Proofs.Storage.Fields

/-! # Storage with checked sums

The bits of a record are counted in 32 bits. Each signal moves the count by less than 128
bits, and a frame has room for at most 512 signals that stand apart, so the count of a
strict plan never overflows. -/

namespace CanCodec.Checked

/-! ## Counting in 32 bits -/

def count (value : Nat) : Option Nat := if value < 2 ^ 32 then some value else none

def ceilDiv (value unit : Nat) : Option Nat :=
  if unit = 0 then none else some (RecordLayout.ceilDiv value unit)

def alignUp (value unit : Nat) : Option Nat := do
  let units ← ceilDiv value unit
  count (units * unit)

theorem count_of_lt {value : Nat} (small : value < 2 ^ 32) : count value = some value :=
  if_pos small

theorem alignUp_of_lt {value unit : Nat} (positive : 0 < unit)
    (small : RecordLayout.alignUp value unit < 2 ^ 32) :
    alignUp value unit = some (RecordLayout.alignUp value unit) := by
  rw [alignUp, ceilDiv, if_neg (Nat.ne_of_gt positive)]
  exact count_of_lt small

theorem eq_of_count {value result : Nat} (counted : count value = some result) :
    result = value := by
  rw [count] at counted
  split at counted
  · exact (Option.some.inj counted).symm
  · cases counted

theorem lt_of_count {value result : Nat} (counted : count value = some result) :
    result < 2 ^ 32 := by
  rw [count] at counted
  split at counted
  · cases counted
    assumption
  · cases counted

theorem eq_of_ceilDiv {value unit result : Nat} (divided : ceilDiv value unit = some result) :
    result = RecordLayout.ceilDiv value unit := by
  rw [ceilDiv] at divided
  split at divided
  · cases divided
  · exact (Option.some.inj divided).symm

theorem eq_of_alignUp {value unit result : Nat} (aligned : alignUp value unit = some result) :
    result = RecordLayout.alignUp value unit := by
  rcases Option.bind_eq_some_iff.mp aligned with ⟨units, divided, counted⟩
  rw [eq_of_count counted, eq_of_ceilDiv divided, RecordLayout.alignUp]

theorem lt_of_alignUp {value unit result : Nat} (aligned : alignUp value unit = some result) :
    result < 2 ^ 32 := by
  rcases Option.bind_eq_some_iff.mp aligned with ⟨units, divided, counted⟩
  exact lt_of_count counted

/-! ## Layouts -/

def layField (packed : Bool) (cursor index : Nat) (placed : Frame.Placed) : Option Field := do
  let bits := (Primitive.ofBits placed.signal.length placed.signal.signed).bits
  let offset ← if packed then some cursor else alignUp cursor bits
  return { index
           signal := placed.signal
           segments := placed.segments
           storageBits := if packed then placed.signal.length else bits
           offset }

def layFields (packed : Bool) :
    (cursor index : Nat) → List Frame.Placed → Option (List Field × Nat)
  | cursor, _, [] => some ([], cursor)
  | cursor, index, placed :: rest => do
      let field ← layField packed cursor index placed
      let next ← count (field.offset + field.storageBits)
      let others ← layFields packed next (index + 1) rest
      return (field :: others.1, others.2)

def ofPlan (message : String) (packed : Bool) (placed : List Frame.Placed) :
    Option RecordLayout := do
  let laid ← layFields packed 0 0 placed
  let bits ← if packed then some laid.2 else alignUp laid.2 (RecordLayout.alignment laid.1)
  let sizeBytes ← ceilDiv bits 8
  return { message, fields := laid.1, sizeBytes, packed }

/-! ### A count that has a result -/

theorem eq_of_layField {packed : Bool} {cursor index : Nat} {placed : Frame.Placed} {field : Field}
    (laid : layField packed cursor index placed = some field) :
    field = RecordLayout.layField packed cursor index placed := by
  cases packed with
  | true => exact (Option.some.inj laid).symm
  | false =>
      simp only [layField, Bool.false_eq_true, if_false, Option.bind_eq_bind] at laid
      rcases Option.bind_eq_some_iff.mp laid with ⟨offset, aligned, same⟩
      cases same
      rw [eq_of_alignUp aligned]
      rfl

theorem eq_of_layFields {packed : Bool} {cursor index : Nat} {placed : List Frame.Placed}
    {fields : List Field} {last : Nat}
    (laid : layFields packed cursor index placed = some (fields, last)) :
    fields = RecordLayout.layFields packed cursor index placed ∧
      last = fields.foldl (fun _ field => field.stop) cursor := by
  induction placed generalizing cursor index fields last with
  | nil =>
      cases laid
      exact ⟨rfl, rfl⟩
  | cons head rest induction =>
      rcases Option.bind_eq_some_iff.mp laid with ⟨field, here, laid⟩
      rcases Option.bind_eq_some_iff.mp laid with ⟨next, counted, laid⟩
      rcases Option.bind_eq_some_iff.mp laid with ⟨⟨others, final⟩, remaining, same⟩
      cases same
      obtain rfl := eq_of_count counted
      rcases induction remaining with ⟨rfl, rfl⟩
      rw [eq_of_layField here]
      exact ⟨rfl, rfl⟩

theorem lt_of_layFields {packed : Bool} {cursor index : Nat} {placed : List Frame.Placed}
    {fields : List Field} {last : Nat} (small : cursor < 2 ^ 32)
    (laid : layFields packed cursor index placed = some (fields, last)) : last < 2 ^ 32 := by
  induction placed generalizing cursor index fields last with
  | nil =>
      cases laid
      exact small
  | cons head rest induction =>
      rcases Option.bind_eq_some_iff.mp laid with ⟨field, here, laid⟩
      rcases Option.bind_eq_some_iff.mp laid with ⟨next, counted, laid⟩
      rcases Option.bind_eq_some_iff.mp laid with ⟨⟨others, final⟩, remaining, same⟩
      cases same
      exact induction (lt_of_count counted) remaining

theorem extent_lt_of_ofPlan {message : String} {packed : Bool} {placed : List Frame.Placed}
    {layout : RecordLayout} (counted : ofPlan message packed placed = some layout) :
    RecordLayout.extent packed (RecordLayout.layFields packed 0 0 placed) < 2 ^ 32 := by
  rcases Option.bind_eq_some_iff.mp counted with ⟨⟨fields, last⟩, laid, counted⟩
  have small := lt_of_layFields (by decide) laid
  rcases eq_of_layFields laid with ⟨rfl, rfl⟩
  rw [RecordLayout.foldl_stop] at small counted
  cases packed with
  | true => exact small
  | false =>
      simp only [Bool.false_eq_true, if_false, Option.bind_eq_bind] at counted
      rcases Option.bind_eq_some_iff.mp counted with ⟨bits, aligned, _⟩
      rw [RecordLayout.extent, if_neg Bool.false_ne_true, ← eq_of_alignUp aligned]
      exact lt_of_alignUp aligned

theorem eq_of_ofPlan {message : String} {packed : Bool} {placed : List Frame.Placed}
    {layout : RecordLayout} (counted : ofPlan message packed placed = some layout) :
    layout = .ofPlan message packed placed := by
  rcases Option.bind_eq_some_iff.mp counted with ⟨⟨fields, last⟩, laid, counted⟩
  rcases eq_of_layFields laid with ⟨rfl, rfl⟩
  cases packed with
  | true => exact (Option.some.inj counted).symm
  | false =>
      simp only [Bool.false_eq_true, if_false, Option.bind_eq_bind] at counted
      rcases Option.bind_eq_some_iff.mp counted with ⟨bits, aligned, counted⟩
      rcases Option.bind_eq_some_iff.mp counted with ⟨sizeBytes, divided, same⟩
      cases same
      rw [eq_of_ceilDiv divided, eq_of_alignUp aligned]
      rfl

/-! ### Counts in range -/

theorem layField_of_stop_lt {packed : Bool} {cursor index : Nat} {placed : Frame.Placed}
    (small : (RecordLayout.layField packed cursor index placed).stop < 2 ^ 32) :
    layField packed cursor index placed =
      some (RecordLayout.layField packed cursor index placed) := by
  cases packed with
  | true => rfl
  | false =>
      have positive := (RecordLayout.layField false cursor index placed).primitive.bits_pos
      have aligned := alignUp_of_lt positive (Nat.lt_of_le_of_lt (Nat.le_add_right _ _) small)
      simp only [layField, Bool.false_eq_true, if_false, Option.bind_eq_bind]
      exact Option.bind_eq_some_iff.mpr ⟨_, aligned, rfl⟩

theorem layFields_of_stop_lt (packed : Bool) (cursor index : Nat) {placed : List Frame.Placed}
    (small : RecordLayout.stopFrom cursor (RecordLayout.layFields packed cursor index placed) <
      2 ^ 32) :
    layFields packed cursor index placed =
      some (RecordLayout.layFields packed cursor index placed,
        RecordLayout.stopFrom cursor (RecordLayout.layFields packed cursor index placed)) := by
  induction placed generalizing cursor index with
  | nil => rfl
  | cons head rest induction =>
      rw [RecordLayout.layFields, RecordLayout.stopFrom_cons] at small ⊢
      have inRange : (RecordLayout.layField packed cursor index head).stop < 2 ^ 32 :=
        Nat.lt_of_le_of_lt (RecordLayout.le_stopFrom_layFields _ _ _ _) small
      have next : count ((RecordLayout.layField packed cursor index head).offset +
          (RecordLayout.layField packed cursor index head).storageBits) =
          some (RecordLayout.layField packed cursor index head).stop := count_of_lt inRange
      simp only [layFields, layField_of_stop_lt inRange, next, Option.bind_eq_bind,
        Option.bind_some, induction _ _ small]
      rfl

theorem ofPlan_of_extent_lt {message : String} {packed : Bool} {placed : List Frame.Placed}
    (small : RecordLayout.extent packed (RecordLayout.layFields packed 0 0 placed) < 2 ^ 32) :
    ofPlan message packed placed = some (.ofPlan message packed placed) := by
  have laid := layFields_of_stop_lt packed 0 0
    (Nat.lt_of_le_of_lt (RecordLayout.stopFrom_le_extent packed _) small)
  have defined : ∃ layout, ofPlan message packed placed = some layout := by
    rw [ofPlan, laid]
    cases packed with
    | true => exact ⟨_, rfl⟩
    | false =>
        have aligned := alignUp_of_lt (RecordLayout.alignment_pos _) small
        simp only [Bool.false_eq_true, if_false, Option.bind_eq_bind, Option.bind_some, aligned]
        exact ⟨_, rfl⟩
  rcases defined with ⟨layout, counted⟩
  rw [counted, eq_of_ofPlan counted]

/-- The count overflows exactly if 32 bits cannot hold the bits of the record. -/
theorem ofPlan_eq_some_iff {message : String} {packed : Bool} {placed : List Frame.Placed}
    {layout : RecordLayout} :
    ofPlan message packed placed = some layout ↔
      RecordLayout.extent packed (RecordLayout.layFields packed 0 0 placed) < 2 ^ 32 ∧
        layout = .ofPlan message packed placed := by
  constructor
  · exact fun counted => ⟨extent_lt_of_ofPlan counted, eq_of_ofPlan counted⟩
  · rintro ⟨small, rfl⟩
    exact ofPlan_of_extent_lt small

theorem ofPlan_strict {schema : Schema} {message : Message} {packed : Bool}
    (member : message ∈ schema.messages)
    (fits : ∀ signal ∈ message.signals, signal.Fits message.length)
    (apart : message.signals.Pairwise Signal.Apart) :
    ofPlan message.name packed (message.signals.map Frame.placing) =
      some (.ofPlan message.name packed (message.signals.map Frame.placing)) := by
  have few : message.signals.length ≤ 512 := by
    have room := Signal.length_le_of_apart fits apart
    have short := (schema.message_bounds member).2
    rw [Message.maxLength] at short
    omega
  have narrow : ∀ source ∈ message.signals.map Frame.placing, source.signal.length ≤ 64 := by
    intro source sourceMember
    rcases List.mem_map.mp sourceMember with ⟨signal, signalMember, rfl⟩
    exact (schema.signal_length_bounds member signalMember).2
  have stop := RecordLayout.stopFrom_layFields_le packed 0 0 narrow
  have extent := RecordLayout.extent_le packed
    (RecordLayout.layFields packed 0 0 (message.signals.map Frame.placing))
  rw [List.length_map] at stop
  exact ofPlan_of_extent_lt (by omega)

end CanCodec.Checked
