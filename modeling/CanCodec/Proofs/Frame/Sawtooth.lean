import CanCodec.Proofs.Checked.Coding
import CanCodec.Proofs.Checked.Storage

/-! # Sawtooth numbering

Sawtooth numbers count the bits of each byte upward from the least significant one. A
big-endian signal whose most significant bit has a sawtooth number is planned at the
network-order position of that bit, and descends from there. -/

namespace CanCodec

namespace Place

def ofSawtooth (number : Nat) : Place := ⟨number / 8, number % 8⟩

def ofPosition (position : Nat) : Place := ⟨position / 8, 7 - position % 8⟩

/-- The next lower bit of the same byte, and bit 7 of the next byte after bit 0. -/
def below (place : Place) : Place :=
  if place.bit = 0 then ⟨place.byte + 1, 7⟩ else ⟨place.byte, place.bit - 1⟩

example : (below^[3]) ⟨0, 1⟩ = ⟨1, 6⟩ := by decide

theorem below_ofPosition (position : Nat) :
    (ofPosition position).below = ofPosition (position + 1) := by
  rw [below, ofPosition, ofPosition]
  by_cases last : 7 - position % 8 = 0
  · rw [if_pos last, Place.mk.injEq]
    dsimp only
    omega
  · rw [if_neg last, Place.mk.injEq]
    dsimp only
    omega

theorem below_iterate_ofPosition (position steps : Nat) :
    below^[steps] (ofPosition position) = ofPosition (position + steps) := by
  induction steps with
  | zero => rfl
  | succ steps induction =>
      rw [Function.iterate_succ_apply', induction, below_ofPosition]
      rfl

theorem ofPosition_ofSawtooth (number : Nat) :
    ofPosition (Frame.ofSawtooth number) = ofSawtooth number := by
  rw [ofPosition, ofSawtooth, Frame.ofSawtooth, Place.mk.injEq]
  omega

end Place

/-! ## Renumbering -/

namespace Frame

theorem ofSawtooth_div (number : Nat) : ofSawtooth number / 8 = number / 8 := by
  rw [ofSawtooth]
  omega

theorem ofSawtooth_ofSawtooth (number : Nat) : ofSawtooth (ofSawtooth number) = number := by
  rw [ofSawtooth, ofSawtooth]
  omega

end Frame

def Checked.ofSawtooth (number : Nat) : Option Nat := do
  let first ← count (8 * (number / 8))
  let rest ← subtract 7 (number % 8)
  count (first + rest)

theorem Checked.ofSawtooth_eq {number : Nat} (small : number < 2 ^ 32) :
    ofSawtooth number = some (Frame.ofSawtooth number) := by
  have first := count_of_lt (show 8 * (number / 8) < 2 ^ 32 by omega)
  have rest := subtract_of_le (show number % 8 ≤ 7 by omega)
  have sum := count_of_lt (show 8 * (number / 8) + (7 - number % 8) < 2 ^ 32 by omega)
  simp only [ofSawtooth, first, rest, sum, Option.bind_eq_bind, Option.bind_some]
  rfl

/-! ## Descending signals -/

def Signal.fromSawtooth (signal : Signal) (number : Nat) : Signal :=
  { signal with start := Frame.ofSawtooth number, byteOrder := .bigEndian }

section

variable {signal : Signal} {number : Nat}

theorem Signal.place_bigEndian (order : signal.byteOrder = .bigEndian) (index : Nat) :
    signal.place index = .ofPosition (signal.start + signal.length - 1 - index) := by
  rw [place, order, Place.ofPosition]

theorem Signal.place_fromSawtooth {steps : Nat} (within : steps < signal.length) :
    (signal.fromSawtooth number).place (signal.length - 1 - steps) =
      Place.below^[steps] (.ofSawtooth number) := by
  have position : Frame.ofSawtooth number + signal.length - 1 - (signal.length - 1 - steps) =
      Frame.ofSawtooth number + steps := by omega
  rw [← Place.ofPosition_ofSawtooth, Place.below_iterate_ofPosition, ← position]
  exact place_bigEndian rfl _

theorem Frame.carries_fromSawtooth_iff {messageLength steps : Nat}
    (fits : (signal.fromSawtooth number).Fits messageLength) (bound : signal.length ≤ 256)
    (place : Place) (within : steps < signal.length) :
    (∃ segment ∈ segments (signal.fromSawtooth number),
        segment.Carries (signal.length - 1 - steps) place) ↔
      place = Place.below^[steps] (.ofSawtooth number) := by
  rw [carries_segments_iff fits.1 bound, ← Signal.place_fromSawtooth within, eq_comm]
  exact and_iff_right (show signal.length - 1 - steps < signal.length by omega)

theorem Frame.bit_put_segments {messageLength index : Nat} (fits : signal.Fits messageLength)
    (bound : signal.length ≤ 256) (within : index < signal.length) (word : Word) :
    ((Payload.zeros messageLength).put (segments signal) word).bit (signal.place index) =
      word.getLsbD index := by
  have bounded : ∀ segment ∈ segments signal, segment.bitOffset + segment.bitCount ≤ 8 ∧
      segment.byteIndex < (Payload.zeros messageLength).length := by
    intro segment member
    rw [Payload.zeros, List.length_replicate]
    exact (segment_bounds fits.1 fits.2 member).2
  rw [Bool.eq_iff_iff, Payload.bit_put word _ bounded]
  simp only [Payload.bit_zeros, Bool.false_eq_true, false_or, carries_segments_iff fits.1 bound]
  constructor
  · rintro ⟨other, ⟨otherWithin, same⟩, set⟩
    rwa [Signal.place_injective otherWithin within same] at set
  · intro set
    exact ⟨index, ⟨within, rfl⟩, set⟩

end

namespace Frame

/-- Renumbering stays in 32 bits and in the same byte, and undoes itself. A big-endian signal
planned from the renumbered start has its most significant bit at the sawtooth number and each
further bit one place below the bit before it; so has every word that is written by the plan. -/
theorem planSignal_fromSawtooth (number : Nat) (inRange : number < 2 ^ 32) :
    Checked.ofSawtooth number = some (ofSawtooth number) ∧
    ofSawtooth number / 8 = number / 8 ∧
    ofSawtooth (ofSawtooth number) = number ∧
    ∀ (message : String) (messageLength : Nat) (signal : Signal) (plan : List Segment),
      1 ≤ signal.length → signal.length ≤ 64 →
      planSignal message messageLength (signal.fromSawtooth number) = .ok plan →
      (∀ place, (∃ segment ∈ plan, segment.Carries (signal.length - 1) place) ↔
        place = ⟨number / 8, number % 8⟩) ∧
      (∀ index upper, index + 1 < signal.length →
        (∃ segment ∈ plan, segment.Carries (index + 1) upper) →
        ∀ lower, (∃ segment ∈ plan, segment.Carries index lower) ↔ lower = upper.below) ∧
      ∀ (word : Word) (steps : Nat), steps < signal.length →
        ((Payload.zeros messageLength).put plan word).bit
            (Place.below^[steps] ⟨number / 8, number % 8⟩) =
          word.getLsbD (signal.length - 1 - steps) := by
  refine ⟨Checked.ofSawtooth_eq inRange, ofSawtooth_div number, ofSawtooth_ofSawtooth number, ?_⟩
  intro message messageLength signal plan positive narrow planned
  rcases planSignal_ok_iff.mp planned with ⟨_, fits, rfl⟩
  have bound : (signal.fromSawtooth number).length ≤ 256 := Nat.le_trans narrow (by decide)
  refine ⟨fun place => carries_fromSawtooth_iff fits bound place positive, ?_, ?_⟩
  · intro index upper within upperCarried lower
    have upperSteps : signal.length - 1 - (signal.length - 2 - index) = index + 1 := by omega
    have lowerSteps : signal.length - 1 - (signal.length - 2 - index + 1) = index := by omega
    have atUpper := carries_fromSawtooth_iff fits bound upper
      (show signal.length - 2 - index < signal.length by omega)
    have atLower := carries_fromSawtooth_iff fits bound lower
      (show signal.length - 2 - index + 1 < signal.length by omega)
    rw [upperSteps] at atUpper
    rw [lowerSteps, Function.iterate_succ_apply', ← atUpper.mp upperCarried] at atLower
    exact atLower
  · intro word steps within
    have last : signal.length - 1 - steps < (signal.fromSawtooth number).length :=
      show signal.length - 1 - steps < signal.length by omega
    have written := bit_put_segments fits bound last word
    rw [Signal.place_fromSawtooth within] at written
    exact written

def descendingSignal : Signal where
  name := "Torque"
  start := 0
  length := 6
  byteOrder := .bigEndian

theorem planSignal_fromSawtooth_descending :
    10 < 2 ^ 32 ∧ (1 ≤ descendingSignal.length ∧ descendingSignal.length ≤ 64) ∧
      Checked.ofSawtooth 10 = some 13 ∧
      planSignal "Engine" 3 (descendingSignal.fromSawtooth 10) =
        .ok [⟨1, 0, 3, 3⟩, ⟨2, 5, 3, 0⟩] ∧
      (∀ place, (∃ segment ∈ [⟨1, 0, 3, 3⟩, ⟨2, 5, 3, 0⟩], Segment.Carries segment 5 place) ↔
        place = ⟨1, 2⟩) ∧
      ((Payload.zeros 3).put [⟨1, 0, 3, 3⟩, ⟨2, 5, 3, 0⟩] 0x04).bit ⟨2, 7⟩ = true := by
  have planned : planSignal "Engine" 3 (descendingSignal.fromSawtooth 10) =
      .ok [⟨1, 0, 3, 3⟩, ⟨2, 5, 3, 0⟩] := rfl
  rcases planSignal_fromSawtooth 10 (by decide) with ⟨renumbered, _, _, descends⟩
  rcases descends "Engine" 3 descendingSignal _ (by decide) (by decide) planned with
    ⟨first, _, written⟩
  exact ⟨by decide, by decide, renumbered, planned, first, written 0x04 3 (by decide)⟩

end Frame

end CanCodec
