import CanCodec.Proofs.Conversion.Bounds
import CanCodec.Proofs.Double.Order

/-! # The order of candidates

In the direction of the scale, greater physical values have greater candidates, and greater
candidates decode to greater physical values. A value past what every candidate decodes to has
the outermost candidate. -/

namespace CanCodec

open Double

structure Linear.IsProper (linear : Linear Float) : Prop where
  scale : linear.scale.isFinite = true
  nonzero : level linear.scale ≠ 0
  offset : linear.offset.isFinite = true

namespace Conversion

def outermost (linear : Linear Float) (direction : Int) : Int :=
  if direction * step linear = 1 then candidateRange.high else candidateRange.low

theorem candidate_double (linear : Linear Float) (bounds : Bounds Float) (physical : Float) :
    candidate linear bounds physical = candidateRange.clamp
      (nearestInt ((moveInto bounds physical - linear.offset) / linear.scale)) := rfl

theorem holds_outermost (linear : Linear Float) {direction : Int}
    (isDirection : IsDirection direction) :
    Holds (Float.ofInt (outermost linear direction))
      (direction * step linear * (2 ^ 127 : Nat)) := by
  rw [outermost]
  rcases isDirection.mul (isDirection_step linear) with high | low
  · rw [if_pos high, high, Int.one_mul]
    exact holds_pred_two_pow (by decide) (by decide)
  · rw [if_neg (by omega), low]
    have exact := exact_two_pow .negative 127 (by decide)
    exact holds_ofInt exact

end Conversion

namespace Linear.IsProper

open Conversion

section

variable {linear : Linear Float} (proper : linear.IsProper)

include proper

theorem step_mul_scale_pos : 0 < step linear * level linear.scale := by
  have zero : level (Quantity.ofInt 0 : Float) = 0 := rfl
  have positive :
      Quantity.less (Quantity.ofInt 0) linear.scale = true ↔ 0 < level linear.scale := by
    rw [← zero]
    exact decide_eq_true_iff.trans (lt_iff_level (isNaN_ofInt 0) (isNaN_of_isFinite proper.scale))
  have nonzero := proper.nonzero
  rw [step]
  split_ifs with raises
  · have above := positive.mp raises
    omega
  · have below := mt positive.mpr raises
    omega

theorem keepsOrder_difference : KeepsOrder 1 (· - linear.offset) := keepsOrder_sub proper.offset

theorem keepsOrder_quotient : KeepsOrder (step linear) (· / linear.scale) :=
  keepsOrder_div proper.scale (isDirection_step linear) proper.step_mul_scale_pos

theorem keepsOrder_product : KeepsOrder (step linear) (· * linear.scale) :=
  keepsOrder_mul proper.scale (isDirection_step linear) proper.step_mul_scale_pos

theorem keepsOrder_sum : KeepsOrder 1 (· + linear.offset) := keepsOrder_add proper.offset

/-! ## From physical values to candidates -/

theorem candidate_mono (bounds : Bounds Float) {first second : Float}
    (firstNumber : first.isNaN = false) (secondNumber : second.isNaN = false)
    (le : level first ≤ level second) :
    step linear * candidate linear bounds first ≤ step linear * candidate linear bounds second := by
  have firstMoved := moveInto_spec bounds firstNumber
  have secondMoved := moveInto_spec bounds secondNumber
  have moved := boundedLevel_mono bounds le
  rw [← firstMoved.2, ← secondMoved.2] at moved
  have differences := proper.keepsOrder_difference.level_le firstMoved.1 secondMoved.1 moved
  rw [Int.one_mul, Int.one_mul] at differences
  have quotients := proper.keepsOrder_quotient.level_le
    (proper.keepsOrder_difference.isNaN firstMoved.1)
    (proper.keepsOrder_difference.isNaN secondMoved.1) differences
  have rounds : ∀ first second : Float, level first ≤ level second →
      candidateRange.clamp (nearestInt first) ≤ candidateRange.clamp (nearestInt second) :=
    fun _ _ le => candidateRange.clamp_mono (nearestInt_mono le)
  rw [candidate_double, candidate_double]
  exact (isDirection_step linear).mono rounds quotients

/-! ## From candidates to physical values -/

theorem toPhysical_mono {first second : Int} (le : step linear * first ≤ step linear * second) :
    level (toPhysical linear first) ≤ level (toPhysical linear second) := by
  have doubles : step linear * level (Float.ofInt first) ≤
      step linear * level (Float.ofInt second) := by
    have rounds : ∀ first second : Int, id first ≤ id second →
        level (Float.ofInt first) ≤ level (Float.ofInt second) := fun first second le => by
      rw [level_ofInt, level_ofInt]
      exact rounded_mono (signedCount_le_iff.mpr le)
    exact (isDirection_step linear).mono rounds le
  have products := proper.keepsOrder_product.level_le_of_direction (isNaN_ofInt first)
    (isNaN_ofInt second) doubles
  have sums := proper.keepsOrder_sum.level_le (proper.keepsOrder_product.isNaN (isNaN_ofInt first))
    (proper.keepsOrder_product.isNaN (isNaN_ofInt second)) products
  rwa [Int.one_mul, Int.one_mul] at sums

/-! ## Past the candidates -/

theorem candidate_eq_outermost {bounds : Bounds Float} {physical : Float}
    (number : physical.isNaN = false) {direction : Int} (isDirection : IsDirection direction)
    (past : direction * level (toPhysical linear (outermost linear direction)) <
      direction * level (moveInto bounds physical)) :
    candidate linear bounds physical = outermost linear direction := by
  have holds := holds_outermost linear isDirection
  have turned := isDirection.mul (isDirection_step linear)
  have finite : (Float.ofInt (outermost linear direction)).isFinite = true := by
    refine holds.isFinite (?_ : _ < 2 ^ 128) (by decide)
    rcases turned with high | low
    · rw [high]
      decide
    · rw [low]
      decide
  have isPower : level (Float.ofInt (outermost linear direction)) =
      direction * step linear * (2 ^ (127 + oneBits) : Nat) := by
    rw [holds.level, signedCount_integer, Int.mul_assoc, ← Int.natCast_mul, ← Nat.pow_add]
  have moved := (moveInto_spec bounds number).1
  have difference := level_le_sub_of_add_lt isDirection proper.offset
    (proper.keepsOrder_product.isNaN holds.number) moved past
  have quotient := le_level_div proper.scale isDirection (isDirection_step linear)
    proper.step_mul_scale_pos finite isPower (by decide) (proper.keepsOrder_difference.isNaN moved)
    difference
  have nearest := le_nearestInt turned quotient
  rw [candidate_double, outermost, candidateRange_eq, RawRange.clamp]
  rcases turned with high | low
  · rw [high] at nearest
    rw [if_pos high]
    dsimp only
    omega
  · rw [low] at nearest
    rw [if_neg (by omega)]
    dsimp only
    omega

end

end Linear.IsProper

end CanCodec
