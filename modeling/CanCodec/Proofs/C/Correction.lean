import CanCodec.Proofs.C.Floating
import CanCodec.Proofs.Conversion.Bounds

/-! # Corrections of a raw value

A raw value that converts to a physical value past a bound is corrected by one step. The codec
steps from integer to integer; the encoder steps from double to double. -/

namespace CanCodec

open Double Float.Model.UnpackedFloat

namespace Signal

def linearDouble (signal : Signal) (raw : Float) : Float :=
  raw * signal.linear.scale + signal.linear.offset

def steppedDown (signal : Signal) (raw : Float) : Float :=
  if signal.passesMaximum (signal.linearDouble raw) then raw - C.stepSize signal.linear else raw

def steppedUp (signal : Signal) (raw : Float) : Float :=
  if signal.passesMinimum (signal.linearDouble raw) then raw + C.stepSize signal.linear else raw

end Signal

namespace C

/-! ## Steps -/

theorem stepSize_eq (linear : Linear Float) :
    ∃ sign : Sign, Conversion.step linear = sign.apply 1 ∧
      stepSize linear = Float.ofInt (sign.apply 1) := by
  unfold Conversion.step stepSize
  by_cases raises : 0 < linear.scale
  · refine ⟨.positive, if_pos (decide_eq_true raises), (if_pos raises).trans rfl⟩
  · refine ⟨.negative, if_neg fun raised => raises (of_decide_eq_true raised), ?_⟩
    rw [if_neg raises]
    rfl

section

variable (signal : Signal) {raw : Float} {integer : Int}

theorem exists_holds_steppedDown (holds : Holds raw integer) :
    ∃ stepped, Holds (signal.steppedDown raw) stepped ∧ (stepped = integer ∨
      Holds (Float.ofInt (integer - Conversion.step signal.linear)) stepped) := by
  unfold Signal.steppedDown
  split_ifs with passes
  · rcases stepSize_eq signal.linear with ⟨sign, isStep, isSize⟩
    rw [isStep, isSize]
    exact holds.exists_sub_unit sign
  · exact ⟨integer, holds, .inl rfl⟩

theorem exists_holds_steppedUp (holds : Holds raw integer) :
    ∃ stepped, Holds (signal.steppedUp raw) stepped ∧ (stepped = integer ∨
      Holds (Float.ofInt (integer + Conversion.step signal.linear)) stepped) := by
  unfold Signal.steppedUp
  split_ifs with passes
  · rcases stepSize_eq signal.linear with ⟨sign, isStep, isSize⟩
    rw [isStep, isSize]
    exact holds.exists_add_unit sign
  · exact ⟨integer, holds, .inl rfl⟩

theorem alike_linearDouble (holds : Holds raw integer) :
    Alike (signal.linearDouble raw) (signal.toPhysical integer) := by
  have held := holds_ofInt holds.exact
  have alike : Alike raw (Float.ofInt integer) :=
    ⟨holds.number.trans held.number.symm, holds.level.trans held.level.symm⟩
  exact alike.linear holds.number signal.linear.scale signal.linear.offset

theorem passesMaximum_congr {first second : Float} (alike : Alike first second) :
    signal.passesMaximum first = signal.passesMaximum second := by
  unfold Signal.passesMaximum
  cases signal.bounds.maximum with
  | none => rw [Option.any_none, Option.any_none]
  | some maximum =>
      rw [Option.any_some, Option.any_some, decide_eq_decide.mpr (alike.lt_iff_right maximum)]

theorem passesMinimum_congr {first second : Float} (alike : Alike first second) :
    signal.passesMinimum first = signal.passesMinimum second := by
  unfold Signal.passesMinimum
  cases signal.bounds.minimum with
  | none => rw [Option.any_none, Option.any_none]
  | some minimum =>
      rw [Option.any_some, Option.any_some, decide_eq_decide.mpr (alike.lt_iff_left minimum)]

theorem holds_steppedDown (holds : Holds raw integer) (finite : raw.isFinite)
    (exact : Exact (integer - Conversion.step signal.linear)) :
    Holds (signal.steppedDown raw) (signal.pulledDown integer) := by
  rw [Signal.pulledDown, Signal.steppedDown,
    passesMaximum_congr signal (alike_linearDouble signal holds)]
  split_ifs with passes
  · rcases stepSize_eq signal.linear with ⟨sign, isStep, isSize⟩
    rw [isStep] at exact ⊢
    rw [isSize, holds.sub_unit finite]
    exact holds_ofInt exact
  · exact holds

theorem holds_steppedUp (holds : Holds raw integer) (finite : raw.isFinite)
    (exact : Exact (integer + Conversion.step signal.linear)) :
    Holds (signal.steppedUp raw) (signal.pulledUp integer) := by
  rw [Signal.pulledUp, Signal.steppedUp,
    passesMinimum_congr signal (alike_linearDouble signal holds)]
  split_ifs with passes
  · rcases stepSize_eq signal.linear with ⟨sign, isStep, isSize⟩
    rw [isStep] at exact ⊢
    rw [isSize, holds.add_unit finite]
    exact holds_ofInt exact
  · exact holds

end

theorem isNaN_steppedDown {signal : Signal} {raw : Float} (nan : raw.isNaN) :
    (signal.steppedDown raw).isNaN := by
  unfold Signal.steppedDown
  split_ifs
  · exact isNaN_sub nan _
  · exact nan

theorem isNaN_steppedUp {signal : Signal} {raw : Float} (nan : raw.isNaN) :
    (signal.steppedUp raw).isNaN := by
  unfold Signal.steppedUp
  split_ifs
  · exact isNaN_add nan _
  · exact nan

end C

end CanCodec
