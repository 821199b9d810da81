import Mathlib.Order.Bounds.Defs
import CanCodec.Proofs.C.Arithmetic
import CanCodec.Proofs.Codec

/-! # Fields one after another

A record is laid out field by field, each after the end of the one before it. Aligning a field
moves it to the least multiple of its width. -/

namespace CanCodec

theorem Primitive.bits_pos (type : Primitive) : 0 < type.bits :=
  Nat.lt_of_lt_of_le (by decide) type.eight_le_bits

namespace RecordLayout

/-! ## Alignment -/

theorem isLeast_alignUp {unit : Nat} (positive : 0 < unit) (value : Nat) :
    IsLeast {multiple | unit ∣ multiple ∧ value ≤ multiple} (alignUp value unit) := by
  constructor
  · refine ⟨Nat.dvd_mul_left unit _, ?_⟩
    have below := Nat.lt_div_mul_add (a := value + unit - 1) positive
    rw [alignUp, ceilDiv]
    omega
  · rintro multiple ⟨⟨count, rfl⟩, le⟩
    rw [alignUp, ceilDiv, Nat.mul_comm unit count]
    apply Nat.mul_le_mul_right
    rw [Nat.div_le_iff_le_mul_add_pred positive]
    omega

theorem alignUp_le (value unit : Nat) : alignUp value unit ≤ value + unit - 1 :=
  Nat.div_mul_le_self _ _

/-- The width of the widest integer of some fields; of a byte if there are none. -/
def widest (fields : List Field) : Nat :=
  ((fields.map fun field => field.primitive.bits).max?).getD 8

theorem alignment_eq_widest (fields : List Field) : alignment fields = widest fields := by
  cases fields with
  | nil => rfl
  | cons field rest =>
      rw [alignment, widest, List.map_cons, List.max?_cons', Option.getD_some, List.foldl_map,
        List.foldl_cons, Nat.max_eq_right field.primitive.eight_le_bits]

theorem exists_width_alignment (fields : List Field) :
    ∃ width : Width, alignment fields = width.bits := by
  have widths : ∀ first : Width, ∃ width : Width,
      fields.foldl (fun widest field => max widest field.primitive.bits) first.bits =
        width.bits := by
    induction fields with
    | nil => exact fun first => ⟨first, rfl⟩
    | cons field rest induction =>
        intro first
        rw [List.foldl_cons]
        rcases Nat.le_total first.bits field.primitive.bits with le | le
        · rw [Nat.max_eq_right le]
          exact induction field.primitive.width
        · rw [Nat.max_eq_left le]
          exact induction first
  exact widths .w8

theorem alignment_bounds (fields : List Field) :
    8 ≤ alignment fields ∧ alignment fields ≤ 64 := by
  rcases exists_width_alignment fields with ⟨width, equal⟩
  rw [equal]
  cases width <;> decide

theorem alignment_pos (fields : List Field) : 0 < alignment fields :=
  Nat.lt_of_lt_of_le (by decide) (alignment_bounds fields).1

theorem eight_dvd_alignment (fields : List Field) : 8 ∣ alignment fields := by
  rcases exists_width_alignment fields with ⟨width, equal⟩
  rw [equal]
  cases width <;> decide

/-! ## Laying out fields -/

def stopFrom (cursor : Nat) (fields : List Field) : Nat :=
  (fields.getLast?.map Field.stop).getD cursor

theorem stopFrom_cons (cursor : Nat) (field : Field) (rest : List Field) :
    stopFrom cursor (field :: rest) = stopFrom field.stop rest := by
  rw [stopFrom, stopFrom, List.getLast?_cons]
  cases rest.getLast? <;> rfl

theorem foldl_stop (cursor : Nat) (fields : List Field) :
    fields.foldl (fun _ field => field.stop) cursor = stopFrom cursor fields := by
  induction fields generalizing cursor with
  | nil => rfl
  | cons field rest induction => rw [List.foldl_cons, induction, stopFrom_cons]

section

variable {packed : Bool} {cursor index : Nat} {placed : List Frame.Placed}

theorem le_offset_layField (packed : Bool) (cursor index : Nat) (placed : Frame.Placed) :
    cursor ≤ (layField packed cursor index placed).offset := by
  cases packed with
  | true => exact Nat.le_refl cursor
  | false =>
      have positive := (layField false cursor index placed).primitive.bits_pos
      exact (isLeast_alignUp positive cursor).1.2

theorem le_stop_layField (packed : Bool) (cursor index : Nat) (placed : Frame.Placed) :
    cursor ≤ (layField packed cursor index placed).stop :=
  Nat.le_trans (le_offset_layField packed cursor index placed) (Nat.le_add_right _ _)

theorem stop_layField_le (packed : Bool) (cursor index : Nat) {placed : Frame.Placed}
    (narrow : placed.signal.length ≤ 64) :
    (layField packed cursor index placed).stop ≤ cursor + 127 := by
  cases packed with
  | true =>
      change cursor + placed.signal.length ≤ cursor + 127
      omega
  | false =>
      have bits := (layField false cursor index placed).primitive.bits_le
      have le := alignUp_le cursor (layField false cursor index placed).primitive.bits
      change alignUp cursor (layField false cursor index placed).primitive.bits +
        (layField false cursor index placed).primitive.bits ≤ cursor + 127
      omega

theorem map_segments_layFields (packed : Bool) (cursor index : Nat) (placed : List Frame.Placed) :
    (layFields packed cursor index placed).map Field.segments =
      placed.map Frame.Placed.segments := by
  induction placed generalizing cursor index with
  | nil => rfl
  | cons head rest induction => simp [layFields, layField, induction]

theorem map_index_layFields (packed : Bool) (cursor index : Nat) (placed : List Frame.Placed) :
    (layFields packed cursor index placed).map Field.index =
      List.range' index placed.length := by
  induction placed generalizing cursor index with
  | nil => rfl
  | cons head rest induction =>
      simp [layFields, layField, induction, List.range'_succ]

theorem exists_of_layFields_eq_append {before after : List Field} {field : Field}
    (split : layFields packed cursor index placed = before ++ field :: after) :
    ∃ source, field = layField packed (stopFrom cursor before) (index + before.length) source := by
  induction before generalizing cursor index placed with
  | nil =>
      cases placed with
      | nil => cases split
      | cons head rest => exact ⟨head, (List.cons.inj split).1.symm⟩
  | cons first before induction =>
      cases placed with
      | nil => cases split
      | cons head rest =>
          rcases List.cons.inj split with ⟨rfl, tail⟩
          rcases induction tail with ⟨source, equal⟩
          rw [stopFrom_cons, List.length_cons, Nat.add_comm before.length 1, ← Nat.add_assoc]
          exact ⟨source, equal⟩

theorem le_offset_of_mem_layFields {field : Field}
    (member : field ∈ layFields packed cursor index placed) : cursor ≤ field.offset := by
  induction placed generalizing cursor index with
  | nil => cases member
  | cons head rest induction =>
      rcases List.mem_cons.mp member with rfl | member
      · exact le_offset_layField packed cursor index head
      · exact Nat.le_trans (le_stop_layField packed cursor index head) (induction member)

theorem pairwise_layFields (packed : Bool) (cursor index : Nat) (placed : List Frame.Placed) :
    (layFields packed cursor index placed).Pairwise fun earlier later =>
      earlier.stop ≤ later.offset := by
  induction placed generalizing cursor index with
  | nil => exact .nil
  | cons head rest induction =>
      rw [layFields, List.pairwise_cons]
      exact ⟨fun later member => le_offset_of_mem_layFields member, induction _ _⟩

theorem le_stopFrom_layFields (packed : Bool) (cursor index : Nat) (placed : List Frame.Placed) :
    cursor ≤ stopFrom cursor (layFields packed cursor index placed) := by
  induction placed generalizing cursor index with
  | nil => exact Nat.le_refl cursor
  | cons head rest induction =>
      rw [layFields, stopFrom_cons]
      exact Nat.le_trans (le_stop_layField packed cursor index head) (induction _ _)

theorem stop_le_of_mem_layFields {field : Field}
    (member : field ∈ layFields packed cursor index placed) :
    field.stop ≤ stopFrom cursor (layFields packed cursor index placed) := by
  induction placed generalizing cursor index with
  | nil => cases member
  | cons head rest induction =>
      rw [layFields, stopFrom_cons]
      rcases List.mem_cons.mp member with rfl | member
      · exact le_stopFrom_layFields _ _ _ _
      · exact induction member

theorem stopFrom_layFields_le (packed : Bool) (cursor index : Nat) {placed : List Frame.Placed}
    (narrow : ∀ source ∈ placed, source.signal.length ≤ 64) :
    stopFrom cursor (layFields packed cursor index placed) ≤ cursor + 127 * placed.length := by
  induction placed generalizing cursor index with
  | nil => exact Nat.le_refl cursor
  | cons head rest induction =>
      rw [layFields, stopFrom_cons, List.length_cons]
      have here := stop_layField_le packed cursor index (narrow head List.mem_cons_self)
      have remaining := induction (layField packed cursor index head).stop (index + 1)
        fun source member => narrow source (List.mem_cons_of_mem head member)
      omega

theorem storageBits_of_mem_layFields {field : Field}
    (member : field ∈ layFields packed cursor index placed) :
    field.storageBits = if packed then field.signal.length else field.primitive.bits := by
  induction placed generalizing cursor index with
  | nil => cases member
  | cons head rest induction =>
      rcases List.mem_cons.mp member with rfl | member
      · rfl
      · exact induction member

theorem increasing_layFields (packed : Bool) (cursor index : Nat) {placed : List Frame.Placed}
    (positive : ∀ source ∈ placed, 0 < source.signal.length) :
    (layFields packed cursor index placed).Pairwise fun earlier later =>
      earlier.offset < later.offset := by
  refine List.Pairwise.imp_of_mem ?_ (pairwise_layFields packed cursor index placed)
  intro earlier later member _ ordered
  rcases exists_of_mem_layFields member with ⟨source, sourceMember, same, _⟩
  have storage := storageBits_of_mem_layFields member
  have bits := earlier.primitive.bits_pos
  have length := positive source sourceMember
  rw [Field.stop] at ordered
  rw [← same] at length
  cases packed <;> simp only [if_true, Bool.false_eq_true, if_false] at storage <;> omega

theorem stopFrom_of_packed {before after : List Field}
    (split : layFields true cursor index placed = before ++ after) :
    stopFrom cursor before = cursor + (before.map fun field => field.signal.length).sum := by
  induction before generalizing cursor index placed with
  | nil => rfl
  | cons first before induction =>
      cases placed with
      | nil => cases split
      | cons head rest =>
          rcases List.cons.inj split with ⟨rfl, tail⟩
          rw [stopFrom_cons, induction tail, List.map_cons, List.sum_cons, ← Nat.add_assoc]
          rfl

end

/-! ## Sizes -/

def extent (packed : Bool) (fields : List Field) : Nat :=
  if packed then stopFrom 0 fields else alignUp (stopFrom 0 fields) (alignment fields)

theorem stopFrom_le_extent (packed : Bool) (fields : List Field) :
    stopFrom 0 fields ≤ extent packed fields := by
  cases packed with
  | true => exact Nat.le_refl _
  | false => exact (isLeast_alignUp (alignment_pos fields) _).1.2

theorem extent_le (packed : Bool) (fields : List Field) :
    extent packed fields ≤ stopFrom 0 fields + 63 := by
  cases packed with
  | true => exact Nat.le_add_right _ _
  | false =>
      have le := alignUp_le (stopFrom 0 fields) (alignment fields)
      have widest := (alignment_bounds fields).2
      rw [extent, if_neg Bool.false_ne_true]
      omega

theorem sizeBytes_ofPlan (message : String) (packed : Bool) (placed : List Frame.Placed) :
    (ofPlan message packed placed).sizeBytes =
      ceilDiv (extent packed (layFields packed 0 0 placed)) 8 := by
  simp only [ofPlan, RecordLayout.stop, foldl_stop, extent]

end RecordLayout

end CanCodec
