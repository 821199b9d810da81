import CanCodec.Decimal.Basic
import CanCodec.Proofs.Double.Nearest

/-! # Reading decimals

A decimal is read as the double nearest to it. Small coefficients and powers of ten are doubles
themselves, and one product or quotient of them is rounded; all others are rounded from the
exact number. -/

namespace CanCodec

namespace Double

open Float.Model Float.Model.UnpackedFloat

/-! ## Exact operands -/

def powerOfTen (places : Fin 23) : Float :=
  getElem Float.exactlyRepresentablePowersOfTen places.val places.isLt

theorem level_powerOfTen (places : Fin 23) : (powerOfTen places).isFinite = true ∧
    level (powerOfTen places) = 10 ^ places.val * 2 ^ oneBits := by
  revert places
  decide +kernel

theorem toFloat_eq_ofInt {natural : ℕ} (small : natural < 2 ^ 53) :
    natural.toUInt64.toFloat = Float.ofInt natural := by
  have word : natural.toUInt64.toNat = natural := by
    change natural % 2 ^ 64 = natural
    exact Nat.mod_eq_of_lt (by omega)
  rw [ofInt_eq]
  change Float.ofModel (Float.Model.pack
    (normalize .binary64 (natural.toUInt64.toNat : Int) 0 .positive)) = _
  rw [word]

theorem level_toFloat {natural : ℕ} (small : natural < 2 ^ 53) :
    natural.toUInt64.toFloat.isFinite = true ∧
      level natural.toUInt64.toFloat = natural * 2 ^ oneBits := by
  have holds : Holds (Float.ofInt natural) natural :=
    holds_ofInt (exact_of_natAbs_le (by omega))
  have isLevel := holds.level
  rw [signedCount_integer, Int.natCast_pow] at isLevel
  rw [toFloat_eq_ofInt small]
  exact ⟨holds.isFinite (by rwa [Int.natAbs_natCast]) (by decide), isLevel⟩

/-! ## One product or quotient -/

theorem nearestLevel_pos {counts : ℚ} (least : 1 ≤ counts) : 0 < nearestLevel counts := by
  have one : nearestLevel (1 : ℤ) = 1 := by
    rw [nearestLevel_intCast, rounded_of_pos (by decide)]
    decide +kernel
  have mono := nearestLevel_mono least
  rw [Int.cast_one] at one
  omega

/-- A number that does not vanish is not rounded to a zero, so the sign is no question. -/
theorem isRounded_of_one_le {value counts : ℚ} {double : Float}
    (rounds : level double = nearestLevel counts ∧ double.isNaN = false)
    (equal : counts = value * 2 ^ oneBits) (least : 1 ≤ value * 2 ^ oneBits) :
    IsRounded value double := by
  refine ⟨rounds.2, equal ▸ rounds.1, fun zero => ?_⟩
  have positive := nearestLevel_pos least
  rw [← equal, ← rounds.1, level_zero zero] at positive
  exact absurd positive (lt_irrefl _)

theorem ofScientific_zero (negated : Bool) (places : Fin 23) :
    Float.ofScientific 0 negated places = .ofModel (Float.Model.pack (.zero .positive)) := by
  revert negated places
  decide +kernel

section

variable {coefficient : ℕ} (positive : 0 < coefficient) (small : coefficient < 2 ^ 53)
  (places : Fin 23)

include positive small

theorem isRounded_product : IsRounded (coefficient * 10 ^ places.val)
    (coefficient.toUInt64.toFloat * powerOfTen places) := by
  have isCoefficient := level_toFloat small
  have isPower := level_powerOfTen places
  refine isRounded_of_one_le (level_mul isCoefficient.1 isPower.1) ?_ ?_
  · rw [isCoefficient.2, isPower.2, div_eq_iff (by positivity)]
    push_cast
    ring
  · have whole : 1 ≤ coefficient * 10 ^ places.val * 2 ^ oneBits := Nat.one_le_iff_ne_zero.mpr
      (by positivity)
    exact_mod_cast whole

theorem isRounded_quotient : IsRounded (coefficient / 10 ^ places.val)
    (coefficient.toUInt64.toFloat / powerOfTen places) := by
  have isCoefficient := level_toFloat small
  have isPower := level_powerOfTen places
  have nonzero : level (powerOfTen places) ≠ 0 := by
    rw [isPower.2]
    positivity
  refine isRounded_of_one_le (level_div isCoefficient.1 isPower.1 nonzero) ?_ ?_
  · rw [isCoefficient.2, isPower.2]
    push_cast
    field_simp
  · have power : (10 : ℚ) ^ places.val ≤ 2 ^ oneBits := by
      calc
        (10 : ℚ) ^ places.val ≤ 10 ^ 22 := pow_le_pow_right₀ (by norm_num) (by omega)
        _ ≤ 2 ^ 74 := by norm_num
        _ ≤ 2 ^ oneBits := pow_le_pow_right₀ (by norm_num) (by decide)
    have least : (1 : ℚ) ≤ coefficient := by exact_mod_cast positive
    rw [div_mul_eq_mul_div, le_div_iff₀ (by positivity), one_mul]
    exact power.trans (le_mul_of_one_le_left (by positivity) least)

end

/-! ## The exact number -/

theorem top_le_of_power {coefficient power : ℕ} (positive : 0 < coefficient)
    (huge : oneBits ≤ power) : top ≤ (coefficient * 10 ^ power * 2 ^ oneBits : ℚ) := by
  have natural : top ≤ coefficient * 10 ^ power * 2 ^ oneBits := by
    calc
      top ≤ 2 ^ (oneBits + oneBits) := by
        exact Nat.pow_le_pow_right (by decide) (show topBits ≤ oneBits + oneBits by decide)
      _ = 1 * 2 ^ oneBits * 2 ^ oneBits := by rw [Nat.one_mul, ← Nat.pow_add]
      _ ≤ coefficient * 10 ^ power * 2 ^ oneBits := by
        have tens : 2 ^ oneBits ≤ 10 ^ power :=
          (Nat.pow_le_pow_right (by decide) huge).trans (Nat.pow_le_pow_left (by decide) power)
        exact Nat.mul_le_mul_right _ (Nat.mul_le_mul positive tens)
  exact_mod_cast natural

theorem lt_half_of_power {coefficient power : ℕ} (tiny : coefficient.log2 + 1 + oneBits < power) :
    (coefficient / 10 ^ power * 2 ^ oneBits : ℚ) < 1 / 2 := by
  have natural : coefficient * 2 ^ oneBits * 2 < 10 ^ power := by
    calc
      coefficient * 2 ^ oneBits * 2 < 2 ^ (coefficient.log2 + 1) * 2 ^ oneBits * 2 := by
        gcongr
        exact Nat.lt_log2_self
      _ = 2 ^ (coefficient.log2 + 1 + oneBits + 1) := by rw [← Nat.pow_add, ← Nat.pow_succ]
      _ ≤ 2 ^ power := Nat.pow_le_pow_right two_pos tiny
      _ ≤ 10 ^ power := Nat.pow_le_pow_left (by decide) power
  rw [div_mul_eq_mul_div, div_lt_div_iff₀ (by positivity) two_pos, one_mul]
  exact_mod_cast natural

section

variable {coefficient power : ℕ} (positive : 0 < coefficient) (tens : 0 < 10 ^ power)

theorem isRounded_mul_power (shifted : 0 < coefficient <<< 53) :
    IsRounded (coefficient * 10 ^ power) (.ofModel (Float.Model.pack
      (UnpackedFloat.mul .binary64 (.finite .positive (coefficient <<< 53) (-53) shifted)
        (.finite .positive (10 ^ power) 0 tens)))) := by
  refine (isRounding_mul .positive .positive _ _ (.inr ?_)).isRounded ?_
  · calc
      2 ^ 52 ≤ 2 ^ 53 := by decide
      _ ≤ coefficient * 2 ^ 53 := Nat.le_mul_of_pos_left _ (by
        rw [Nat.shiftLeft_eq] at shifted
        exact Nat.pos_of_mul_pos_right shifted)
      _ = coefficient <<< 53 := (Nat.shiftLeft_eq _ _).symm
      _ ≤ coefficient <<< 53 * 10 ^ power := Nat.le_mul_of_pos_right _ tens
  · have back : (2 : ℚ) ^ 53 * 2 ^ (-53 + 0 + 1074 : ℤ) = 2 ^ oneBits := by
      simp only [← zpow_natCast, ← zpow_add₀ (two_ne_zero' ℚ)]
      exact congrArg ((2 : ℚ) ^ ·) (by decide)
    rw [Nat.shiftLeft_eq, ← back, Nat.cast_mul, Nat.cast_mul, Nat.cast_pow, Nat.cast_pow,
      mul_right_comm, mul_assoc _ _ (2 ^ _), mul_right_comm]
    rfl

theorem isRounded_div_power :
    IsRounded (coefficient / 10 ^ power) (.ofModel (Float.Model.pack
      (UnpackedFloat.div .binary64 (.finite .positive coefficient 0 positive)
        (.finite .positive (10 ^ power) 0 tens)))) := by
  refine (isRounding_div .positive .positive _ _).isRounded ?_
  rw [← zpow_natCast 2 oneBits, Nat.cast_pow]
  rfl

end

theorem isRounded_model (coefficient : ℕ) (exponent : ℤ) :
    IsRounded (coefficient * 10 ^ exponent) (.ofModel (Float.Model.pack
      (UnpackedFloat.ofScientific .binary64 coefficient exponent))) := by
  have bits : oneBits = 1074 := rfl
  unfold UnpackedFloat.ofScientific
  split
  next zero =>
    rw [zero, Nat.cast_zero, zero_mul]
    exact isRounded_zero le_rfl (by norm_num)
  next nonzero =>
    have positive := Nat.pos_of_ne_zero nonzero
    change IsRounded _ (.ofModel (Float.Model.pack (if exponent > 2 ^ 11 then _ else
      if exponent < -(2 ^ 11 + (coefficient.log2 : ℤ)) then _ else _)))
    -- The two guards against huge powers only stop numbers past the doubles, and numbers that are
    -- rounded to zero whatever their digits are.
    rcases le_or_gt 0 exponent with nonneg | negative
    · obtain ⟨power, rfl⟩ := Int.eq_ofNat_of_zero_le nonneg
      rw [zpow_natCast]
      split_ifs with huge tiny
      · exact isRounded_infinity (top_le_of_power positive (by omega))
      · omega
      · exact isRounded_mul_power _ _
    · obtain ⟨power, isPower⟩ := Int.eq_ofNat_of_zero_le (show 0 ≤ -exponent by omega)
      obtain rfl : exponent = -power := by omega
      rw [zpow_neg, zpow_natCast, ← div_eq_mul_inv]
      split_ifs with huge tiny whole
      · omega
      · exact isRounded_zero (by positivity) (lt_half_of_power (by omega))
      · omega
      · have turned : (- -(power : ℤ)).toNat = power := by omega
        simp only [turned]
        exact isRounded_div_power positive _

/-- A coefficient and a power of ten are read as the double that their product is rounded to. -/
theorem isRounded_ofScientific (coefficient : ℕ) (negated : Bool) (places : ℕ) :
    IsRounded (coefficient * 10 ^ (if negated then -places else places : ℤ))
      (Float.ofScientific coefficient negated places) := by
  unfold Float.ofScientific
  by_cases fast : coefficient < 2 ^ 53 ∧ places ≤ 22
  · rw [dif_pos fast]
    obtain ⟨small, few⟩ := fast
    obtain ⟨place, rfl⟩ : ∃ place : Fin 23, place.val = places := ⟨⟨places, by omega⟩, rfl⟩
    rcases Nat.eq_zero_or_pos coefficient with rfl | positive
    · have zero := ofScientific_zero negated place
      unfold Float.ofScientific at zero
      rw [dif_pos ⟨small, few⟩] at zero
      rw [zero, Nat.cast_zero, zero_mul]
      exact isRounded_zero le_rfl (by norm_num)
    · cases negated
      · have product := isRounded_product positive small place
        rw [← zpow_natCast] at product
        exact product
      · have quotient := isRounded_quotient positive small place
        rw [div_eq_mul_inv, ← zpow_natCast, ← zpow_neg] at quotient
        exact quotient
  · rw [dif_neg fast]
    cases negated
    · exact isRounded_model coefficient places
    · have exact := isRounded_model coefficient (Int.negOfNat places)
      rwa [Int.negOfNat_eq] at exact

end Double

namespace Decimal

def magnitude (decimal : Decimal) : ℚ := decimal.coefficient * 10 ^ decimal.exponent

theorem magnitude_nonneg (decimal : Decimal) : 0 ≤ decimal.magnitude := by
  unfold magnitude
  positivity

theorem isRounded_magnitude (decimal : Decimal) :
    Double.IsRounded decimal.magnitude
      (Float.ofScientific decimal.coefficient (decimal.exponent < 0) decimal.exponent.natAbs) := by
  have rounded := Double.isRounded_ofScientific decimal.coefficient
    (decide (decimal.exponent < 0)) decimal.exponent.natAbs
  have exponent : (if decide (decimal.exponent < 0) then -(decimal.exponent.natAbs : ℤ)
      else decimal.exponent.natAbs) = decimal.exponent := by
    split_ifs with negative <;> rw [decide_eq_true_eq] at negative <;> omega
  rwa [exponent] at rounded

theorem toFloat_roundsTo (decimal : Decimal) :
    Double.SignedRoundsTo decimal.negative decimal.magnitude decimal.toFloat :=
  ⟨_, decimal.isRounded_magnitude.roundsTo decimal.magnitude_nonneg, rfl⟩

theorem toFloat_of_isRounded {decimal : Decimal} {double : Float}
    (positive : decimal.negative = false) (rounded : Double.IsRounded decimal.magnitude double) :
    decimal.toFloat = double := by
  rw [← decimal.isRounded_magnitude.unique rounded, toFloat, positive]
  rfl

end Decimal

end CanCodec
