import CanCodec.Frame.Plan

/-! # Walks over a signal

A walk cuts the positions of a signal at the byte boundaries: it takes one span from each
byte that the signal touches. -/

namespace CanCodec

/-- The positions of a signal that lie in one byte: from `first` up to, but not
including, `stop`. -/
structure Span where
  byteIndex : Nat
  first : Nat
  stop : Nat

namespace Frame

/-! ## Spans -/

def spanAt (signal : Signal) (byteIndex : Nat) : Span :=
  ⟨byteIndex, max signal.start (8 * byteIndex),
    min (signal.start + signal.length) (8 * byteIndex + 8)⟩

def spans (signal : Signal) : List Span :=
  (List.range' (signal.start / 8)
    ((signal.start + signal.length + 7) / 8 - signal.start / 8)).map (spanAt signal)

def segment (signal : Signal) (span : Span) : Segment where
  byteIndex := span.byteIndex
  bitCount := span.stop - span.first
  bitOffset :=
    match signal.byteOrder with
    | .littleEndian => span.first - 8 * span.byteIndex
    | .bigEndian => 8 * span.byteIndex + 8 - span.stop
  valueOffset :=
    match signal.byteOrder with
    | .littleEndian => (span.first - signal.start) % 256
    | .bigEndian => (signal.start + signal.length - span.stop) % 256

def segments (signal : Signal) : List Segment := (spans signal).map (segment signal)

theorem mem_spans {signal : Signal} {span : Span} :
    span ∈ spans signal ↔
      signal.start / 8 ≤ span.byteIndex ∧
        span.byteIndex < (signal.start + signal.length + 7) / 8 ∧
        span = spanAt signal span.byteIndex := by
  simp only [spans, List.mem_map, List.mem_range'_1]
  constructor
  · intro found
    rcases found with ⟨byteIndex, range, equal⟩
    have sameByte : span.byteIndex = byteIndex := by rw [← equal]; rfl
    rw [sameByte]
    exact ⟨range.1, by omega, equal.symm⟩
  · intro inside
    exact ⟨span.byteIndex, ⟨inside.1, by omega⟩, inside.2.2.symm⟩

theorem span_ends {signal : Signal} {span : Span} (member : span ∈ spans signal) :
    span.first = max signal.start (8 * span.byteIndex) ∧
      span.stop = min (signal.start + signal.length) (8 * span.byteIndex + 8) := by
  rw [(mem_spans.mp member).2.2]
  exact ⟨rfl, rfl⟩

theorem span_bounds {signal : Signal} {span : Span} (positive : 0 < signal.length)
    (member : span ∈ spans signal) :
    signal.start ≤ span.first ∧ span.first < span.stop ∧
      span.stop ≤ signal.start + signal.length ∧
      8 * span.byteIndex ≤ span.first ∧ span.stop ≤ 8 * span.byteIndex + 8 := by
  have range := mem_spans.mp member
  have ends := span_ends member
  omega

theorem exists_span (signal : Signal) (position : Nat) (lower : signal.start ≤ position)
    (upper : position < signal.start + signal.length) :
    ∃ span ∈ spans signal,
      span.byteIndex = position / 8 ∧ span.first ≤ position ∧ position < span.stop := by
  refine ⟨spanAt signal (position / 8), mem_spans.mpr ⟨?_, ?_, rfl⟩, rfl, ?_, ?_⟩
  · exact Nat.div_le_div_right lower
  · change position / 8 < (signal.start + signal.length + 7) / 8
    omega
  · change max signal.start (8 * (position / 8)) ≤ position
    omega
  · change position < min (signal.start + signal.length) (8 * (position / 8) + 8)
    omega

theorem mem_segments {signal : Signal} {segment : Segment} :
    segment ∈ segments signal ↔
      ∃ span ∈ spans signal, Frame.segment signal span = segment :=
  List.mem_map

/-! ## One step -/

/-- A walk has passed the bytes below its own, and stands at the first position of the
signal that is left. -/
structure Cursor.Follows (signal : Signal) (cursor : Cursor) : Prop where
  left : cursor.remaining ≤ signal.length
  position : signal.start + (signal.length - cursor.remaining) =
    max signal.start (8 * cursor.byteIndex)
  inByte : max signal.start (8 * cursor.byteIndex) < 8 * cursor.byteIndex + 8
  bit : cursor.bit.val =
    match signal.byteOrder with
    | .littleEndian => max signal.start (8 * cursor.byteIndex) - 8 * cursor.byteIndex
    | .bigEndian => 8 * cursor.byteIndex + 7 - max signal.start (8 * cursor.byteIndex)

theorem Cursor.follows_start (signal : Signal) : (Cursor.start signal).Follows signal where
  left := Nat.le_refl _
  position := by
    change signal.start + (signal.length - signal.length) =
      max signal.start (8 * (signal.start / 8))
    omega
  inByte := by
    change max signal.start (8 * (signal.start / 8)) < 8 * (signal.start / 8) + 8
    omega
  bit := by
    simp only [Cursor.start]
    cases signal.byteOrder <;> dsimp only <;> omega

section

variable {signal : Signal} {cursor : Cursor}

/-- A walk takes the positions of a signal that lie in its byte. -/
theorem Cursor.Follows.count_eq (follows : cursor.Follows signal) :
    cursor.count signal.byteOrder =
      (spanAt signal cursor.byteIndex).stop - (spanAt signal cursor.byteIndex).first := by
  rcases follows with ⟨left, position, inByte, bit⟩
  simp only [Cursor.count, spanAt]
  cases order : signal.byteOrder with
  | littleEndian =>
      simp only [order] at bit ⊢
      omega
  | bigEndian =>
      simp only [order] at bit ⊢
      omega

theorem Cursor.Follows.segment_eq (follows : cursor.Follows signal) :
    cursor.segment signal = Frame.segment signal (spanAt signal cursor.byteIndex) := by
  have count := follows.count_eq
  rcases follows with ⟨left, position, inByte, bit⟩
  simp only [Cursor.segment, count, Frame.segment, spanAt]
  cases order : signal.byteOrder with
  | littleEndian =>
      simp only [order, Segment.mk.injEq, true_and] at bit ⊢
      exact ⟨bit, congrArg (· % 256) (by omega)⟩
  | bigEndian =>
      simp only [order, Segment.mk.injEq, true_and] at bit ⊢
      exact ⟨by omega, congrArg (· % 256) (by omega)⟩

theorem Cursor.Follows.remaining_next (follows : cursor.Follows signal) :
    (cursor.next signal.byteOrder).remaining =
      signal.start + signal.length - 8 * (cursor.byteIndex + 1) := by
  have count := follows.count_eq
  rcases follows with ⟨left, position, inByte, bit⟩
  simp only [Cursor.next, count, spanAt]
  omega

theorem Cursor.Follows.next (follows : cursor.Follows signal)
    (unfinished : (cursor.next signal.byteOrder).remaining ≠ 0) :
    (cursor.next signal.byteOrder).Follows signal := by
  have remaining := follows.remaining_next
  rcases follows with ⟨left, position, inByte, bit⟩
  have byteIndex : (cursor.next signal.byteOrder).byteIndex = cursor.byteIndex + 1 := rfl
  constructor
  · omega
  · omega
  · omega
  · rw [byteIndex]
    simp only [Cursor.next]
    cases signal.byteOrder <;> dsimp only <;> omega

end

/-! ## Whole walks -/

theorem walk_eq_map {signal : Signal} {cursor : Cursor} (follows : cursor.Follows signal)
    (unfinished : cursor.remaining ≠ 0) :
    walk signal cursor =
      (List.range' cursor.byteIndex
        ((signal.start + signal.length + 7) / 8 - cursor.byteIndex)).map fun byteIndex =>
          Frame.segment signal (spanAt signal byteIndex) := by
  induction cursor using walk.induct signal with
  | case1 cursor finished => exact absurd finished unfinished
  | case2 cursor _ induction =>
      have remaining := follows.remaining_next
      have left := follows.left
      have position := follows.position
      have inByte := follows.inByte
      have byteIndex : (cursor.next signal.byteOrder).byteIndex = cursor.byteIndex + 1 := rfl
      rw [walk, if_neg unfinished, follows.segment_eq]
      by_cases last : (cursor.next signal.byteOrder).remaining = 0
      · have single : (signal.start + signal.length + 7) / 8 - cursor.byteIndex = 1 := by
          omega
        rw [walk, if_pos last, single]
        rfl
      · have several : (signal.start + signal.length + 7) / 8 - cursor.byteIndex =
            (signal.start + signal.length + 7) / 8 - (cursor.byteIndex + 1) + 1 := by
          omega
        rw [induction (follows.next last) last, byteIndex, several, List.range'_succ,
          List.map_cons]

/-- The walk over a signal takes one segment from each byte that the signal touches. -/
theorem walk_start {signal : Signal} (positive : 0 < signal.length) :
    walk signal (Cursor.start signal) = segments signal := by
  rw [walk_eq_map (Cursor.follows_start signal) (Nat.ne_of_gt positive), segments, spans,
    List.map_map]
  rfl

end Frame

end CanCodec
