import CanCodec.Proofs.Conversion.Steps
import CanCodec.Proofs.Double.Level

/-! # Values moved into their bounds

A physical value is moved into its bounds before it is rounded to a candidate. Levels order the
values that are moved, and a candidate that decodes inside the bounds passes neither. -/

namespace CanCodec

open Double

theorem Signal.not_passes_of_isWithin {signal : Signal} {physical : Float}
    (isWithin : Conversion.isWithin signal.bounds physical = true) :
    signal.passesMaximum physical = false ∧ signal.passesMinimum physical = false := by
  rw [Conversion.isWithin, Bool.and_eq_true] at isWithin
  rw [passesMaximum, passesMinimum]
  constructor
  · cases maximum : signal.bounds.maximum with
    | none => rfl
    | some bound =>
        rw [maximum, Option.all_some] at isWithin
        have above : ¬bound < physical := not_lt_of_le (of_decide_eq_true isWithin.2)
        rw [Option.any_some, decide_eq_false above, Bool.false_and]
  · cases minimum : signal.bounds.minimum with
    | none => rfl
    | some bound =>
        rw [minimum, Option.all_some] at isWithin
        have below : ¬physical < bound := not_lt_of_le (of_decide_eq_true isWithin.1)
        rw [Option.any_some, decide_eq_false below, Bool.false_and]

namespace Conversion

section

variable (bound : Float) {physical : Float} (number : physical.isNaN = false)

include number

theorem raise_spec :
    (if Quantity.less physical bound then bound else physical).isNaN = false ∧
      level (if Quantity.less physical bound then bound else physical) =
        if bound.isNaN then level physical else max (level bound) (level physical) := by
  have decided : Quantity.less physical bound = decide (physical < bound) := rfl
  rw [decided]
  cases nan : bound.isNaN with
  | true => simpa [not_lt_of_isNaN (.inr nan)] using number
  | false =>
      rw [if_neg Bool.false_ne_true]
      simp only [decide_eq_true_eq, lt_iff_level number nan]
      split_ifs with below
      · exact ⟨nan, by omega⟩
      · exact ⟨number, by omega⟩

theorem lower_spec :
    (if Quantity.less bound physical then bound else physical).isNaN = false ∧
      level (if Quantity.less bound physical then bound else physical) =
        if bound.isNaN then level physical else min (level bound) (level physical) := by
  have decided : Quantity.less bound physical = decide (bound < physical) := rfl
  rw [decided]
  cases nan : bound.isNaN with
  | true => simpa [not_lt_of_isNaN (.inl nan)] using number
  | false =>
      rw [if_neg Bool.false_ne_true]
      simp only [decide_eq_true_eq, lt_iff_level nan number]
      split_ifs with above
      · exact ⟨nan, by omega⟩
      · exact ⟨number, by omega⟩

end

def boundedLevel (bounds : Bounds Float) (counts : Int) : Int :=
  let raised := bounds.minimum.elim counts fun minimum =>
    if minimum.isNaN then counts else max (level minimum) counts
  bounds.maximum.elim raised fun maximum =>
    if maximum.isNaN then raised else min (level maximum) raised

theorem moveInto_spec (bounds : Bounds Float) {physical : Float}
    (number : physical.isNaN = false) :
    (moveInto bounds physical).isNaN = false ∧
      level (moveInto bounds physical) = boundedLevel bounds (level physical) := by
  rcases bounds with ⟨minimum, maximum⟩
  cases minimum with
  | none =>
      cases maximum with
      | none => exact ⟨number, rfl⟩
      | some maximum => exact lower_spec maximum number
  | some minimum =>
      have raised := raise_spec minimum number
      cases maximum with
      | none => exact raised
      | some maximum =>
          have lowered := lower_spec maximum raised.1
          rw [raised.2] at lowered
          exact lowered

theorem boundedLevel_mono (bounds : Bounds Float) {first second : Int} (le : first ≤ second) :
    boundedLevel bounds first ≤ boundedLevel bounds second := by
  have raised : bounds.minimum.elim first (fun minimum =>
        if minimum.isNaN then first else max (level minimum) first) ≤
      bounds.minimum.elim second fun minimum =>
        if minimum.isNaN then second else max (level minimum) second := by
    cases bounds.minimum with
    | none => exact le
    | some minimum =>
        dsimp only [Option.elim]
        split_ifs <;> omega
  rw [boundedLevel, boundedLevel]
  cases bounds.maximum with
  | none => exact raised
  | some maximum =>
      dsimp only [Option.elim_some]
      split_ifs <;> omega

theorem level_le_boundedLevel {bounds : Bounds Float} (consistent : isConsistent bounds = true)
    {minimum : Float} (declared : bounds.minimum = some minimum)
    (number : minimum.isNaN = false) (counts : Int) :
    level minimum ≤ boundedLevel bounds counts := by
  rw [boundedLevel, declared]
  simp only [Option.elim, number, Bool.false_eq_true, if_false]
  cases upper : bounds.maximum with
  | none => exact le_max_left _ _
  | some maximum =>
      have ordered : minimum ≤ maximum := by
        simpa only [isConsistent, declared, upper, Quantity.atMost, decide_eq_true_eq]
          using consistent
      dsimp only
      split_ifs with nan
      · exact absurd ordered (not_le_of_isNaN (.inr nan))
      · have levels := (le_iff_level number (eq_false_of_ne_true nan)).mp ordered
        exact le_min levels (le_max_left _ _)

theorem boundedLevel_le {bounds : Bounds Float} {maximum : Float}
    (declared : bounds.maximum = some maximum) (number : maximum.isNaN = false) (counts : Int) :
    boundedLevel bounds counts ≤ level maximum := by
  rw [boundedLevel, declared]
  simp only [Option.elim, number, Bool.false_eq_true, if_false]
  exact min_le_left _ _

end Conversion

end CanCodec
