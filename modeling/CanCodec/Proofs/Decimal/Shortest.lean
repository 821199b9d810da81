import CanCodec.Decimal.Shortest
import CanCodec.Proofs.Decimal.Reading

/-! # Shortest decimals

The decimal that is chosen for a finite double is read as that double again: the search only
takes such a decimal, and the full expansion is one. -/

namespace CanCodec

open Float.Model

namespace Fraction

def toRat (fraction : Fraction) : ℚ := fraction.numerator / fraction.denominator

theorem toRat_ofBinary (mantissa : ℕ) (exponent : ℤ) :
    (ofBinary mantissa exponent).toRat = mantissa * 2 ^ exponent := by
  rw [ofBinary, toRat]
  split_ifs with negative
  · obtain ⟨power, rfl⟩ : ∃ power : ℕ, exponent = -power := ⟨exponent.natAbs, by omega⟩
    simp only [Int.natAbs_neg, Int.natAbs_natCast, Nat.pow_eq, Nat.cast_pow, Nat.cast_ofNat,
      zpow_neg, zpow_natCast, div_eq_mul_inv]
  · obtain ⟨power, rfl⟩ := Int.eq_ofNat_of_zero_le (not_lt.mp negative)
    simp only [Int.natAbs_natCast, Nat.pow_eq, Nat.cast_mul, Nat.cast_pow, Nat.cast_ofNat,
      Nat.cast_one, div_one, zpow_natCast]

theorem exists_denominator_ofBinary (mantissa : ℕ) (exponent : ℤ) :
    ∃ places, (ofBinary mantissa exponent).denominator = 2 ^ places := by
  rw [ofBinary]
  split_ifs
  · exact ⟨exponent.natAbs, rfl⟩
  · exact ⟨0, rfl⟩

end Fraction

namespace Decimal

theorem magnitude_exactly {fraction : Fraction} {places : ℕ}
    (power : fraction.denominator = 2 ^ places) :
    (exactly fraction).magnitude = fraction.toRat := by
  have fives : (10 : ℚ) ^ places = 5 ^ places * 2 ^ places := by
    rw [← mul_pow]
    norm_num
  rw [exactly, magnitude, Fraction.toRat, power, Nat.log2_two_pow, zpow_neg, zpow_natCast, fives]
  simp only [Nat.pow_eq]
  push_cast
  field_simp

variable {tie : Tie} {target : Float}

theorem search_toFloat {value : Fraction} {point : ℤ} {decimal : Decimal} :
    ∀ {tries count : ℕ}, search tie target value point tries count = some decimal →
      decimal.negative = false ∧ decimal.toFloat = target
  | 0, _, found => by cases found
  | tries + 1, count, found => by
      rw [search] at found
      split at found
      next candidate isFirst =>
        cases found
        have taken := List.find?_some isFirst
        rcases List.mem_map.mp (List.mem_of_find?_eq_some isFirst) with ⟨coefficient, -, rfl⟩
        exact ⟨rfl, Double.toBits_inj (beq_iff_eq.mp taken)⟩
      next => exact search_toFloat found

theorem shortestPositive_toFloat {mantissa : ℕ} {exponent : ℤ} {positive : 0 < mantissa}
    (unpacked : target.toModel.unpack = .finite .positive mantissa exponent positive) :
    (shortestPositive tie mantissa exponent target).negative = false ∧
      (shortestPositive tie mantissa exponent target).toFloat = target := by
  rw [shortestPositive]
  cases isFound : search tie target (.ofBinary mantissa exponent)
      (Fraction.ofBinary mantissa exponent).pointPlace 17 1 with
  | some decimal => exact search_toFloat isFound
  | none =>
      -- The full expansion is the double's own number, so nothing is rounded off.
      rcases Fraction.exists_denominator_ofBinary mantissa exponent with ⟨places, power⟩
      have number : target.isNaN = false := by
        change target.toModel.unpack.isNaN = false
        rw [unpacked]
        rfl
      have itself := Double.isRounded_position number (by rw [unpacked]; simp)
      rw [Double.position_finite unpacked] at itself
      refine ⟨rfl, toFloat_of_isRounded rfl ?_⟩
      rw [Option.getD_none, magnitude_exactly power, Fraction.toRat_ofBinary]
      rwa [show Double.unit .positive = 1 from rfl, Int.cast_one, one_mul] at itself

theorem toFloat_zero (sign : UnpackedFloat.Sign) :
    toFloat ⟨isNegative sign, 0, 0⟩ = .ofModel (Float.Model.pack (.zero sign)) := by
  cases sign <;> decide +kernel

theorem toFloat_signed {decimal : Decimal} (positive : decimal.negative = false) (negative : Bool) :
    { decimal with negative := negative }.toFloat =
      if negative then -decimal.toFloat else decimal.toFloat := by
  rcases decimal with ⟨_, coefficient, exponent⟩
  cases positive
  cases negative <;> rfl

/-- A finite double is written as a decimal that is read as the double. -/
theorem shapeOf_toFloat {value : Float} {decimal : Decimal}
    (shape : shapeOf tie value = .finite decimal) : decimal.toFloat = value := by
  rw [shapeOf] at shape
  cases unpacked : value.toModel.unpack with
  | notANumber | infinity =>
      rw [unpacked] at shape
      cases shape
  | zero sign =>
      rw [unpacked] at shape
      cases shape
      apply Double.eq_of_unpack_eq
      rw [unpacked, toFloat_zero]
      exact Double.unpack_pack_zero sign
  | finite sign mantissa exponent positive =>
      rw [unpacked] at shape
      cases shape
      cases sign with
      | positive =>
          have isRead := @shortestPositive_toFloat tie value _ _ _ unpacked
          exact (toFloat_signed isRead.1 false).trans isRead.2
      | negative =>
          have flipped :
              (-value).toModel.unpack = .finite .positive mantissa exponent positive := by
            rw [Double.unpack_neg, unpacked]
            rfl
          have isRead := @shortestPositive_toFloat tie (-value) _ _ _ flipped
          refine (toFloat_signed isRead.1 true).trans ?_
          rw [if_pos rfl]
          exact (congrArg Float.neg isRead.2).trans (Double.neg_neg_double value)

theorem shapeOf_finite_iff {value : Float} :
    (∃ decimal, shapeOf tie value = .finite decimal) ↔ value.isFinite = true := by
  change _ ↔ value.toModel.unpack.isFinite = true
  rw [shapeOf]
  cases value.toModel.unpack with
  | notANumber | infinity => simp [UnpackedFloat.isFinite]
  | zero | finite => simp [UnpackedFloat.isFinite]

end Decimal

end CanCodec
