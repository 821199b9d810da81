import Mathlib.Algebra.Group.Nat.Defs
import CanCodec.Proofs.Frame.Walk
import CanCodec.Proofs.Traversal

/-! # Bit numbering

A byte order numbers the bits of a payload, and thereby gives every bit of a signal's
raw value one place. A plan realises exactly these places: each of its segments carries
the bits of one byte, and the bytes follow one another. -/

namespace CanCodec

/-- One bit of a payload; bit 0 of a byte is its least significant one. -/
structure Place where
  byte : Nat
  bit : Nat
  deriving Repr, DecidableEq

def Signal.place (signal : Signal) (index : Nat) : Place :=
  match signal.byteOrder with
  | .littleEndian => ⟨(signal.start + index) / 8, (signal.start + index) % 8⟩
  | .bigEndian =>
      let position := signal.start + signal.length - 1 - index
      ⟨position / 8, 7 - position % 8⟩

def Signal.Claims (signal : Signal) (place : Place) : Prop :=
  ∃ index, index < signal.length ∧ signal.place index = place

instance (signal : Signal) (place : Place) : Decidable (signal.Claims place) :=
  decidable_of_iff (∃ index, ∃ _ : index < signal.length, signal.place index = place)
    ⟨fun ⟨index, within, atPlace⟩ => ⟨index, within, atPlace⟩,
      fun ⟨index, within, atPlace⟩ => ⟨index, within, atPlace⟩⟩

def Signal.Fits (signal : Signal) (messageLength : Nat) : Prop :=
  0 < signal.length ∧ signal.start + signal.length ≤ 8 * messageLength

instance (signal : Signal) (messageLength : Nat) : Decidable (signal.Fits messageLength) :=
  inferInstanceAs (Decidable (_ ∧ _))

def Segment.Carries (segment : Segment) (index : Nat) (place : Place) : Prop :=
  segment.byteIndex = place.byte ∧
    segment.valueOffset ≤ index ∧ index < segment.valueOffset + segment.bitCount ∧
    place.bit = segment.bitOffset + (index - segment.valueOffset)

namespace Signal

theorem place_bit_lt (signal : Signal) (index : Nat) : (signal.place index).bit < 8 := by
  rw [place]
  cases signal.byteOrder with
  | littleEndian => exact Nat.mod_lt _ (by decide)
  | bigEndian =>
      dsimp only
      omega

theorem place_byte_lt {signal : Signal} {messageLength index : Nat}
    (fits : signal.start + signal.length ≤ 8 * messageLength)
    (within : index < signal.length) : (signal.place index).byte < messageLength := by
  rw [place]
  cases signal.byteOrder <;> dsimp only <;> omega

theorem place_injective {signal : Signal} {first second : Nat}
    (firstWithin : first < signal.length) (secondWithin : second < signal.length)
    (same : signal.place first = signal.place second) : first = second := by
  simp only [place] at same
  cases order : signal.byteOrder <;> simp only [order, Place.mk.injEq] at same <;> omega

end Signal

namespace Frame

/-! ## Segments -/

theorem carries_segment {signal : Signal} {span : Span} {index : Nat} {place : Place}
    (positive : 0 < signal.length) (bound : signal.length ≤ 256)
    (member : span ∈ spans signal) :
    (segment signal span).Carries index place ↔
      span.byteIndex = place.byte ∧ index < signal.length ∧ signal.place index = place := by
  have bounds := span_bounds positive member
  have ends := span_ends member
  rcases place with ⟨byte, bit⟩
  simp only [Segment.Carries, segment, Signal.place]
  refine and_congr_right fun inByte => ?_
  cases signal.byteOrder with
  | littleEndian =>
      simp only [Place.mk.injEq]
      omega
  | bigEndian =>
      simp only [Place.mk.injEq]
      omega

theorem exists_span_of_claims {signal : Signal} {place : Place}
    (claimed : signal.Claims place) : ∃ span ∈ spans signal, span.byteIndex = place.byte := by
  rcases claimed with ⟨index, within, atPlace⟩
  rw [← atPlace, Signal.place]
  cases signal.byteOrder with
  | littleEndian =>
      rcases exists_span signal (signal.start + index) (by omega) (by omega) with
        ⟨span, member, byte, _⟩
      exact ⟨span, member, byte⟩
  | bigEndian =>
      rcases exists_span signal (signal.start + signal.length - 1 - index) (by omega)
        (by omega) with ⟨span, member, byte, _⟩
      exact ⟨span, member, byte⟩

/-- The segments of a signal carry its raw value bit by bit to the places that the byte
order gives. -/
theorem carries_segments_iff {signal : Signal} {index : Nat} {place : Place}
    (positive : 0 < signal.length) (bound : signal.length ≤ 256) :
    (∃ segment ∈ segments signal, segment.Carries index place) ↔
      index < signal.length ∧ signal.place index = place := by
  constructor
  · intro carried
    rcases carried with ⟨segment, member, carries⟩
    rcases mem_segments.mp member with ⟨span, spanMember, equal⟩
    rw [← equal] at carries
    exact ((carries_segment positive bound spanMember).mp carries).2
  · intro placed
    rcases placed with ⟨within, atPlace⟩
    rcases exists_span_of_claims ⟨index, within, atPlace⟩ with ⟨span, member, byte⟩
    exact ⟨segment signal span, mem_segments.mpr ⟨span, member, rfl⟩,
      (carries_segment positive bound member).mpr ⟨byte, within, atPlace⟩⟩

theorem map_byteIndex_segments (signal : Signal) :
    (segments signal).map Segment.byteIndex =
      List.range' (signal.start / 8) (segments signal).length := by
  simp [segments, spans, spanAt, segment, Function.comp_def]

theorem segment_bounds {signal : Signal} {messageLength : Nat} {segment : Segment}
    (positive : 0 < signal.length)
    (fits : signal.start + signal.length ≤ 8 * messageLength)
    (member : segment ∈ segments signal) :
    1 ≤ segment.bitCount ∧ segment.bitOffset + segment.bitCount ≤ 8 ∧
      segment.byteIndex < messageLength := by
  rcases mem_segments.mp member with ⟨span, spanMember, equal⟩
  have bounds := span_bounds positive spanMember
  rw [← equal, Frame.segment]
  cases signal.byteOrder <;> dsimp only <;> omega

/-! ## Plans -/

structure Realises (signal : Signal) (messageLength : Nat) (plan : List Segment) : Prop where
  /-- Each bit of the raw value is carried to its place and to no other. -/
  places : ∀ index place, (∃ segment ∈ plan, segment.Carries index place) ↔
    index < signal.length ∧ signal.place index = place
  /-- No place is taken by two bits. -/
  distinct : ∀ first second place, (∃ segment ∈ plan, segment.Carries first place) →
    (∃ segment ∈ plan, segment.Carries second place) → first = second
  /-- The bytes follow one another, one segment each. -/
  bytes : plan.map Segment.byteIndex = List.range' (signal.start / 8) plan.length
  /-- Those bytes are the bytes that the signal touches. -/
  touched : ∀ byte, byte ∈ plan.map Segment.byteIndex ↔
    ∃ index < signal.length, (signal.place index).byte = byte
  /-- A segment is a run of bits of one byte of the frame. -/
  bounded : ∀ segment ∈ plan, 1 ≤ segment.bitCount ∧ segment.bitCount ≤ 8 ∧
    segment.bitOffset + segment.bitCount ≤ 8 ∧ segment.byteIndex < messageLength

theorem segments_realise {signal : Signal} {messageLength : Nat}
    (positive : 0 < signal.length) (bound : signal.length ≤ 256)
    (fits : signal.start + signal.length ≤ 8 * messageLength) :
    Realises signal messageLength (segments signal) where
  places index place := carries_segments_iff positive bound
  distinct first second place firstCarried secondCarried := by
    rcases (carries_segments_iff positive bound).mp firstCarried with ⟨firstWithin, firstAt⟩
    rcases (carries_segments_iff positive bound).mp secondCarried with
      ⟨secondWithin, secondAt⟩
    exact Signal.place_injective firstWithin secondWithin (firstAt.trans secondAt.symm)
  bytes := map_byteIndex_segments signal
  touched byte := by
    rw [List.mem_map]
    constructor
    · intro found
      rcases found with ⟨segment, member, equal⟩
      have bounds := segment_bounds positive fits member
      have carries : segment.Carries segment.valueOffset
          ⟨segment.byteIndex, segment.bitOffset⟩ :=
        ⟨rfl, Nat.le_refl _, by omega, by simp⟩
      rcases (carries_segments_iff positive bound).mp ⟨segment, member, carries⟩ with
        ⟨within, atPlace⟩
      exact ⟨segment.valueOffset, within, by rw [atPlace, ← equal]⟩
    · intro found
      rcases found with ⟨index, within, equal⟩
      rcases (carries_segments_iff positive bound).mpr ⟨within, rfl⟩ with
        ⟨segment, member, carries⟩
      exact ⟨segment, member, carries.1.trans equal⟩
  bounded segment member := by
    have bounds := segment_bounds positive fits member
    omega

section

variable {message : String} {messageLength : Nat} {signal : Signal} {plan : List Segment}

theorem planWithin_ok_iff :
    planWithin message (8 * messageLength) signal = .ok plan ↔
      signal.Fits messageLength ∧ plan = segments signal := by
  rw [planWithin, Signal.Fits]
  by_cases refused : signal.length = 0 ∨ 8 * messageLength < signal.start + signal.length
  · simp only [if_pos refused, reduceCtorEq, false_iff]
    intro planned
    have fits := planned.1
    omega
  · have positive : 0 < signal.length := by omega
    simp only [if_neg refused, Except.ok.injEq, walk_start positive]
    constructor
    · intro same
      exact ⟨by omega, same.symm⟩
    · intro planned
      exact planned.2.symm

theorem planWithin_of_not_fits (unfit : ¬ signal.Fits messageLength) :
    planWithin message (8 * messageLength) signal =
      .error ⟨message, signal.name,
        .exceeds signal.start (signal.start + signal.length) (8 * messageLength)⟩ := by
  rw [planWithin, if_pos (by rw [Signal.Fits] at unfit; omega)]

/-! ### Counted bits -/

theorem bitCount?_of_lt (countable : 8 * messageLength < 2 ^ 64) :
    bitCount? messageLength = some (8 * messageLength) := if_pos countable

theorem bitCount?_of_le (overflow : 2 ^ 64 ≤ 8 * messageLength) :
    bitCount? messageLength = none := if_neg (Nat.not_lt_of_le overflow)

theorem planSignal_of_lt (countable : 8 * messageLength < 2 ^ 64) :
    planSignal message messageLength signal =
      (planWithin message (8 * messageLength) signal).mapError .fault := by
  rw [planSignal, bitCount?_of_lt countable]

theorem planSignal_of_le (overflow : 2 ^ 64 ≤ 8 * messageLength) :
    planSignal message messageLength signal = .error .overflow := by
  rw [planSignal, bitCount?_of_le overflow]

theorem planSignal_overflow_iff :
    planSignal message messageLength signal = .error .overflow ↔ 2 ^ 64 ≤ 8 * messageLength := by
  refine ⟨fun overflow => Nat.le_of_not_lt fun countable => ?_, planSignal_of_le⟩
  rw [planSignal_of_lt countable, mapError_error_iff] at overflow
  rcases overflow with ⟨_, _, same⟩
  cases same

theorem planSignal_ok_iff :
    planSignal message messageLength signal = .ok plan ↔
      8 * messageLength < 2 ^ 64 ∧ signal.Fits messageLength ∧ plan = segments signal := by
  rw [← planWithin_ok_iff]
  by_cases countable : 8 * messageLength < 2 ^ 64
  · rw [planSignal_of_lt countable, mapError_ok_iff, and_iff_right countable]
  · rw [planSignal_of_le (Nat.le_of_not_lt countable)]
    exact ⟨nofun, fun planned => absurd planned.1 countable⟩

end

/-- As long as 64 bits can count the bits of a message, a plan exists exactly when the signal
ends within them, and then it realises the numbering of the signal's byte order. The count
overflows for every longer message, whatever the signal. -/
theorem planSignal_realises_numbering (message : String) (messageLength : Nat)
    (signal : Signal) (positive : 1 ≤ signal.length) (bound : signal.length ≤ 64) :
    (planSignal message messageLength signal = .error .overflow ↔ 2 ^ 64 ≤ 8 * messageLength) ∧
    (8 * messageLength < 2 ^ 64 →
      ((∃ plan, planSignal message messageLength signal = .ok plan) ↔
        signal.start + signal.length ≤ 8 * messageLength) ∧
      (¬ signal.start + signal.length ≤ 8 * messageLength →
        planSignal message messageLength signal =
          .error (.fault ⟨message, signal.name,
            .exceeds signal.start (signal.start + signal.length) (8 * messageLength)⟩))) ∧
    ∀ plan, planSignal message messageLength signal = .ok plan →
      Realises signal messageLength plan := by
  refine ⟨planSignal_overflow_iff, fun countable => ⟨?_, fun exceeds => ?_⟩, fun plan isPlan => ?_⟩
  · simp only [planSignal_ok_iff, countable, exists_and_left, exists_eq, and_true, true_and]
    exact and_iff_right positive
  · rw [planSignal_of_lt countable, planWithin_of_not_fits fun fits => exceeds fits.2]
    rfl
  · rcases planSignal_ok_iff.mp isPlan with ⟨_, fits, rfl⟩
    exact segments_realise fits.1 (by omega) fits.2

def networkSignal : Signal where
  name := "Temperature"
  start := 5
  length := 12
  byteOrder := .bigEndian

theorem planSignal_realises_numbering_network :
    (1 ≤ networkSignal.length ∧ networkSignal.length ≤ 64) ∧
      planSignal "Climate" 3 networkSignal =
        .ok [⟨0, 0, 3, 9⟩, ⟨1, 0, 8, 1⟩, ⟨2, 7, 1, 0⟩] ∧
      Realises networkSignal 3 [⟨0, 0, 3, 9⟩, ⟨1, 0, 8, 1⟩, ⟨2, 7, 1, 0⟩] := by
  have planned : planSignal "Climate" 3 networkSignal =
      .ok [⟨0, 0, 3, 9⟩, ⟨1, 0, 8, 1⟩, ⟨2, 7, 1, 0⟩] := by rfl
  exact ⟨by decide, planned,
    (planSignal_realises_numbering "Climate" 3 networkSignal (by decide) (by decide)).2.2 _
      planned⟩

def firstBit : Signal where
  name := "Bit"
  start := 0
  length := 1
  byteOrder := .littleEndian

/-- The bits of a message of `2 ^ 61` bytes are not counted, and the first of them is refused
to a signal of one bit. -/
theorem not_planSignal_of_fits :
    (¬ ∀ (message : String) (messageLength : Nat) (signal : Signal), signal.start < 2 ^ 32 →
      1 ≤ signal.length → signal.length ≤ 64 →
        ((∃ plan, planSignal message messageLength signal = .ok plan) ↔
          signal.start + signal.length ≤ 8 * messageLength)) ∧
      planSignal "Wide" (2 ^ 61) firstBit = .error .overflow := by
  have overflow : planSignal "Wide" (2 ^ 61) firstBit = .error .overflow := planSignal_of_le (by decide)
  refine ⟨fun plans => ?_, overflow⟩
  rcases (plans "Wide" (2 ^ 61) firstBit (by decide) (by decide) (by decide)).mpr (by decide) with
    ⟨plan, planned⟩
  rw [overflow] at planned
  cases planned

end Frame

end CanCodec
