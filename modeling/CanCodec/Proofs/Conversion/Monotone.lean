import CanCodec.Proofs.Conversion.Overflow

/-! # The order of raw values

In the direction of the scale, greater physical values are sent as greater raw values. Main
statement: neither the bounds nor the corrections of rounding nor the range disturb the order,
and a step overflows for all numbers or for none. -/

namespace CanCodec

open Double Conversion

theorem IsDirection.moved_mono {direction : Int} (isDirection : IsDirection direction)
    (isMoved : Int → Prop) [DecidablePred isMoved] {first second : Int} (le : first ≤ second) :
    (if isMoved first then first + direction else first) ≤
      if isMoved second then second + direction else second := by
  rcases eq_or_lt_of_le le with same | less
  · rw [same]
  · have unit : direction = 1 ∨ direction = -1 := isDirection
    split_ifs <;> omega

namespace Signal

theorem pulledDown_mono {signal : Signal} {first second : Int} (le : first ≤ second) :
    signal.pulledDown first ≤ signal.pulledDown second :=
  (isDirection_step signal.linear).neg.moved_mono
    (fun raw => signal.passesMaximum (signal.toPhysical raw) = true) le

theorem pulledUp_mono {signal : Signal} {first second : Int} (le : first ≤ second) :
    signal.pulledUp first ≤ signal.pulledUp second :=
  (isDirection_step signal.linear).moved_mono
    (fun raw => signal.passesMinimum (signal.toPhysical raw) = true) le

/-- The order of what is sent, seen in the direction of the scale. -/
theorem step_mul_toRaw_mono {signal : Signal} (proper : signal.linear.IsProper)
    {first second : Float} (firstNumber : first.isNaN = false)
    (secondNumber : second.isNaN = false) (le : level first ≤ level second) {lower upper : Int}
    (isLower : signal.toRaw first = some lower) (isUpper : signal.toRaw second = some upper) :
    step signal.linear * lower ≤ step signal.linear * upper := by
  have within : ∀ physical raw, signal.toRaw physical = some raw →
      ¬signal.Overflows physical := fun physical raw isRaw overflows => by
    rw [toRaw_eq_none_iff.mpr overflows] at isRaw
    cases isRaw
  rw [toRaw_of_not_overflows firstNumber (within _ _ isLower), Option.some.injEq] at isLower
  rw [toRaw_of_not_overflows secondNumber (within _ _ isUpper), Option.some.injEq] at isUpper
  have candidates := proper.candidate_mono signal.bounds firstNumber secondNumber le
  have corrects : ∀ first second : Int, id first ≤ id second →
      signal.range.clamp (signal.pulledUp (signal.pulledDown first)) ≤
        signal.range.clamp (signal.pulledUp (signal.pulledDown second)) := fun _ _ le =>
    signal.range.clamp_mono (pulledUp_mono (pulledDown_mono le))
  rw [← isLower, ← isUpper]
  exact (isDirection_step signal.linear).mono corrects candidates

/-- The raw values of a signal follow the order of physical values, upwards where its scale is
positive and downwards where it is negative. Either both values have one, or neither has. -/
theorem toRaw_mono (signal : Signal) (scale : signal.HasValidScale)
    (offset : signal.linear.offset.isFinite = true) {first second : Float} (le : first ≤ second) :
    (signal.toRaw first = none ↔ signal.toRaw second = none) ∧
    ∀ lower ∈ signal.toRaw first, ∀ upper ∈ signal.toRaw second,
      (0 < signal.linear.scale → lower ≤ upper) ∧
        (signal.linear.scale < 0 → upper ≤ lower) := by
  have proper := isProper scale offset
  have numbers := isNaN_of_le le
  refine ⟨?_, fun lower isLower upper isUpper => ?_⟩
  · rw [toRaw_eq_none_iff, toRaw_eq_none_iff, overflows_iff proper numbers.1,
      overflows_iff proper numbers.2]
  have kept := step_mul_toRaw_mono proper numbers.1 numbers.2
    ((le_iff_level numbers.1 numbers.2).mp le) isLower isUpper
  have turned := proper.step_mul_scale_pos
  constructor
  · intro positive
    have above : 0 < level signal.linear.scale := level_lt_of_lt positive
    rcases isDirection_step signal.linear with raises | falls
    · rw [raises] at kept
      omega
    · rw [falls] at turned
      omega
  · intro negative
    have below : level signal.linear.scale < 0 := level_lt_of_lt negative
    rcases isDirection_step signal.linear with raises | falls
    · rw [raises] at turned
      omega
    · rw [falls] at kept
      omega

def tenths (scale : Float) : Signal :=
  { name := "Tenths", start := 0, length := 8, byteOrder := .littleEndian, signed := true
    linear := ⟨scale, 0⟩, bounds := ⟨some (-0.04), some 0.96⟩ }

/-- Of two values that are rounded apart, the greater one is stepped back below the maximum. -/
theorem toRaw_mono_tenths :
    ((tenths 0.1).toRaw 0.9 = some 9 ∧ (tenths 0.1).toRaw (1 / 0) = some 9 ∧ (9 : Int) ≤ 9) ∧
      ((tenths (-0.1)).toRaw (-1 / 0) = some 0 ∧ (tenths (-0.1)).toRaw 0.5 = some (-5) ∧
        (-5 : Int) ≤ 0) := by
  have nine : (tenths 0.1).toRaw 0.9 = some 9 := by decide +kernel
  have last : (tenths 0.1).toRaw (1 / 0) = some 9 := by decide +kernel
  have zero : (tenths (-0.1)).toRaw (-1 / 0) = some 0 := by decide +kernel
  have five : (tenths (-0.1)).toRaw 0.5 = some (-5) := by decide +kernel
  have upwards := ((toRaw_mono (tenths 0.1) ⟨by decide +kernel, by decide +kernel⟩
    (by decide +kernel) (show (0.9 : Float) ≤ 1 / 0 by decide +kernel)).2 9 nine 9 last).1
      (by decide +kernel)
  have downwards := ((toRaw_mono (tenths (-0.1)) ⟨by decide +kernel, by decide +kernel⟩
    (by decide +kernel) (show (-1 / 0 : Float) ≤ 0.5 by decide +kernel)).2 0 zero (-5) five).2
      (by decide +kernel)
  exact ⟨⟨nine, last, upwards⟩, zero, five, downwards⟩

end Signal

end CanCodec
