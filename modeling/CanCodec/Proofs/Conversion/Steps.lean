import CanCodec.Proofs.TwosComplement

/-! # Steps back into the bounds

A candidate that decodes past a bound is stepped back once, unless the bounds contradict each
other. A step that leaves the integers of 128 bits overflows; all other steps are exact. -/

namespace CanCodec

open Conversion

namespace Signal

def quotient (signal : Signal) (value : Float) : Float :=
  (moveInto signal.bounds value - signal.linear.offset) / signal.linear.scale

def candidate (signal : Signal) (physical : Float) : Int :=
  Conversion.candidate signal.linear signal.bounds physical

/-- A converted raw value is past the maximum, and the bounds admit some value. -/
def passesMaximum (signal : Signal) (physical : Float) : Bool :=
  signal.bounds.maximum.any (· < physical) && isConsistent signal.bounds

def passesMinimum (signal : Signal) (physical : Float) : Bool :=
  signal.bounds.minimum.any (physical < ·) && isConsistent signal.bounds

def pulledDown (signal : Signal) (raw : Int) : Int :=
  if signal.passesMaximum (signal.toPhysical raw) then raw - step signal.linear else raw

def pulledUp (signal : Signal) (raw : Int) : Int :=
  if signal.passesMinimum (signal.toPhysical raw) then raw + step signal.linear else raw

/-- One of the steps that are taken for a number leads past the integers of 128 bits. -/
def Overflows (signal : Signal) (physical : Float) : Prop :=
  physical.isNaN = false ∧
    (candidateRange.contains (signal.pulledDown (signal.candidate physical)) = false ∨
      candidateRange.contains
        (signal.pulledUp (signal.pulledDown (signal.candidate physical))) = false)

instance (signal : Signal) (physical : Float) : Decidable (signal.Overflows physical) :=
  inferInstanceAs (Decidable (_ ∧ _))

theorem not_overflows_of_contains {signal : Signal} {physical : Float}
    (down : candidateRange.contains (signal.pulledDown (signal.candidate physical)) = true)
    (up : candidateRange.contains
      (signal.pulledUp (signal.pulledDown (signal.candidate physical))) = true) :
    ¬signal.Overflows physical := by
  simp [Overflows, down, up]

theorem contains_candidate (signal : Signal) (physical : Float) :
    candidateRange.contains (signal.candidate physical) = true :=
  RawRange.contains_clamp (by decide) _

theorem natAbs_step (linear : Linear Float) : (step linear).natAbs = 1 := by
  rw [step]
  split <;> rfl

theorem pulledDown_eq_or (signal : Signal) (raw : Int) :
    signal.pulledDown raw = raw ∨ signal.pulledDown raw = raw - step signal.linear := by
  rw [pulledDown]
  split
  · exact .inr rfl
  · exact .inl rfl

/-- The two steps are taken in opposite directions, so that together they do not lead far. -/
theorem pulled_near (signal : Signal) (raw : Int) :
    (signal.pulledUp (signal.pulledDown raw) - raw).natAbs ≤ 1 := by
  have unit := natAbs_step signal.linear
  have down := signal.pulledDown_eq_or raw
  rw [pulledUp]
  split <;> omega

section

variable {signal : Signal} {raw : Int} (contained : candidateRange.contains raw = true)

include contained

theorem stepDown_eq :
    stepDown signal.linear signal.bounds raw = candidate? (signal.pulledDown raw) := by
  have kept : some raw = candidate? raw := (candidate?_of_contains contained).symm
  rw [pulledDown, passesMaximum, stepDown]
  cases signal.bounds.maximum with
  | none => exact kept
  | some maximum =>
      rw [apply_ite candidate?, ← kept]
      rfl

theorem stepUp_eq :
    stepUp signal.linear signal.bounds raw = candidate? (signal.pulledUp raw) := by
  have kept : some raw = candidate? raw := (candidate?_of_contains contained).symm
  rw [pulledUp, passesMinimum, stepUp]
  cases signal.bounds.minimum with
  | none => exact kept
  | some minimum =>
      rw [apply_ite candidate?, ← kept]
      rfl

end

/-! ## Raw values -/

section

variable {signal : Signal} {physical : Float}

theorem corrected_of_isNaN (nan : physical.isNaN = true) :
    corrected signal.linear signal.bounds physical = some 0 :=
  if_neg fun number => absurd (nan.symm.trans (Bool.not_eq_true' _ |>.mp number)) nofun

theorem corrected_of_number (number : physical.isNaN = false) :
    corrected signal.linear signal.bounds physical =
      (candidate? (signal.pulledDown (signal.candidate physical))).bind
        (stepUp signal.linear signal.bounds) := by
  rw [← stepDown_eq (signal.contains_candidate physical)]
  exact if_pos (congrArg not number)

theorem corrected_of_not_overflows (number : physical.isNaN = false)
    (within : ¬signal.Overflows physical) :
    corrected signal.linear signal.bounds physical =
      some (signal.pulledUp (signal.pulledDown (signal.candidate physical))) := by
  rw [Overflows, and_iff_right number, not_or, Bool.not_eq_false, Bool.not_eq_false] at within
  rw [corrected_of_number number, candidate?_of_contains within.1, Option.bind_some,
    stepUp_eq within.1, candidate?_of_contains within.2]

theorem corrected_eq_none_iff :
    corrected signal.linear signal.bounds physical = none ↔ signal.Overflows physical := by
  cases nan : physical.isNaN with
  | true =>
      rw [corrected_of_isNaN nan]
      exact ⟨nofun, fun overflows => absurd (nan.symm.trans overflows.1) nofun⟩
  | false =>
      refine ⟨fun missing => Decidable.byContradiction fun within => ?_, fun overflows => ?_⟩
      · rw [corrected_of_not_overflows nan within] at missing
        cases missing
      · rw [corrected_of_number nan]
        cases down : candidateRange.contains (signal.pulledDown (signal.candidate physical)) with
        | false => rw [candidate?_eq_none_iff.mpr down, Option.bind_none]
        | true =>
            rw [candidate?_of_contains down, Option.bind_some, stepUp_eq down,
              candidate?_eq_none_iff]
            exact overflows.2.resolve_left (by rw [down]; exact nofun)

theorem toRaw_eq_none_iff : signal.toRaw physical = none ↔ signal.Overflows physical := by
  rw [toRaw, Conversion.toRaw, Option.map_eq_none_iff, corrected_eq_none_iff]

theorem toRaw_of_isNaN (nan : physical.isNaN = true) :
    signal.toRaw physical = some (signal.range.clamp 0) := by
  rw [toRaw, Conversion.toRaw, corrected_of_isNaN nan, Option.map_some]

theorem toRaw_of_not_overflows (number : physical.isNaN = false)
    (within : ¬signal.Overflows physical) : signal.toRaw physical =
      some (signal.range.clamp (signal.pulledUp (signal.pulledDown (signal.candidate physical)))) := by
  rw [toRaw, Conversion.toRaw, corrected_of_not_overflows number within, Option.map_some]

end

end Signal

end CanCodec
