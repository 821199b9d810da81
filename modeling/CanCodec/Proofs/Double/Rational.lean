import CanCodec.Proofs.Double.Whole
import CanCodec.Proofs.Conversion.Nearest

/-! # Doubles as rational numbers

A finite double is a rational number. Doubles compare, and are rounded to an integer, as these
numbers are. -/

namespace CanCodec

theorem roundHalfAway_natural (mantissa : Nat) (exponent : Int) :
    roundHalfAway (mantissa * 2 ^ exponent) = nearestNatural mantissa exponent := by
  rw [roundHalfAway, if_pos (by positivity), nearestNatural]
  split_ifs with fraction
  · have scaled : (mantissa : ℚ) * 2 ^ exponent + 1 / 2 =
        ((2 * mantissa + 2 ^ exponent.natAbs : ℕ) : ℚ) / (2 ^ (exponent.natAbs + 1) : ℕ) := by
      have negative : exponent = -(exponent.natAbs : ℤ) := by omega
      nth_rewrite 1 [negative]
      rw [zpow_neg, zpow_natCast]
      push_cast
      field_simp
      ring
    rw [scaled, Rat.floor_natCast_div_natCast]
    rfl
  · have whole : (mantissa : ℚ) * 2 ^ exponent = (mantissa * 2 ^ exponent.natAbs : ℕ) := by
      have natural : exponent = exponent.natAbs := by omega
      nth_rewrite 1 [natural]
      rw [zpow_natCast]
      push_cast
      rfl
    rw [whole, Int.floor_eq_iff, Nat.pow_eq]
    push_cast
    constructor <;> linarith

namespace Double

open Float.Model Float.Model.UnpackedFloat

def toRat (double : Float) : ℚ :=
  match double.toModel.unpack with
  | .finite sign mantissa exponent _ => (sign.apply mantissa : ℤ) * 2 ^ exponent
  | _ => 0

structure Denotes (double : Float) (value : ℚ) : Prop where
  isFinite : double.isFinite = true
  toRat_eq : toRat double = value

theorem toRat_eq_level {double : Float} (finite : double.isFinite = true) :
    toRat double = level double / 2 ^ oneBits := by
  have isUnpacked := unpack_unpacked double.toModel
  change double.toModel.unpack.isFinite = true at finite
  rw [toRat, level]
  cases equal : double.toModel.unpack with
  | notANumber | infinity =>
      rw [equal] at finite
      cases finite
  | zero sign => simp [levelOf]
  | finite sign mantissa exponent positive =>
      rw [equal] at isUnpacked
      have low := isUnpacked.1.low
      have power : (2 : ℚ) ^ exponent = 2 ^ (exponent + 1074).toNat / 2 ^ oneBits := by
        rw [eq_div_iff (by positivity), ← zpow_natCast, ← zpow_natCast, ← zpow_add₀ two_ne_zero]
        congr 1
        rw [oneBits]
        omega
      have counted : (sign.apply (count mantissa exponent) : ℤ) =
          sign.apply mantissa * 2 ^ (exponent + 1074).toNat := by
        cases sign <;> simp [Sign.apply, count]
      simp only [levelOf, counted, power]
      push_cast
      ring

theorem isNaN_of_isFinite {double : Float} (finite : double.isFinite = true) :
    double.isNaN = false := by
  change double.toModel.unpack.isFinite = true at finite
  change double.toModel.unpack.isNaN = false
  cases equal : double.toModel.unpack with
  | notANumber =>
      rw [equal] at finite
      cases finite
  | infinity | zero | finite => rfl

theorem nearestInt_eq {double : Float} (finite : double.isFinite = true) :
    nearestInt double = roundHalfAway (toRat double) := by
  change double.toModel.unpack.isFinite = true at finite
  rw [nearestInt, toRat]
  cases equal : double.toModel.unpack with
  | notANumber | infinity =>
      rw [equal] at finite
      cases finite
  | zero sign => norm_num [roundHalfAway]
  | finite sign mantissa exponent positive =>
      cases sign with
      | positive => simp [Sign.apply, roundHalfAway_natural]
      | negative => simp [Sign.apply, roundHalfAway_neg, roundHalfAway_natural]

namespace Denotes

theorem of_isFinite {double : Float} (finite : double.isFinite = true) :
    Denotes double (toRat double) := ⟨finite, rfl⟩

variable {first second : Float} {firstValue secondValue : ℚ}

theorem less_eq (firstDenotes : Denotes first firstValue)
    (secondDenotes : Denotes second secondValue) :
    Quantity.less first second = Quantity.less firstValue secondValue := by
  refine decide_eq_decide.mpr ?_
  rw [lt_iff_level (isNaN_of_isFinite firstDenotes.1) (isNaN_of_isFinite secondDenotes.1),
    ← firstDenotes.2, ← secondDenotes.2, toRat_eq_level firstDenotes.1,
    toRat_eq_level secondDenotes.1, div_lt_div_iff_of_pos_right (by positivity), Int.cast_lt]

theorem atMost_eq (firstDenotes : Denotes first firstValue)
    (secondDenotes : Denotes second secondValue) :
    Quantity.atMost first second = Quantity.atMost firstValue secondValue := by
  refine decide_eq_decide.mpr ?_
  rw [le_iff_level (isNaN_of_isFinite firstDenotes.1) (isNaN_of_isFinite secondDenotes.1),
    ← firstDenotes.2, ← secondDenotes.2, toRat_eq_level firstDenotes.1,
    toRat_eq_level secondDenotes.1, div_le_div_iff_of_pos_right (by positivity), Int.cast_le]

theorem raise (firstDenotes : Denotes first firstValue)
    (secondDenotes : Denotes second secondValue) :
    Denotes (if Quantity.less first second then second else first)
      (if Quantity.less firstValue secondValue then secondValue else firstValue) := by
  rw [firstDenotes.less_eq secondDenotes]
  split_ifs
  · exact secondDenotes
  · exact firstDenotes

theorem lower (firstDenotes : Denotes first firstValue)
    (secondDenotes : Denotes second secondValue) :
    Denotes (if Quantity.less second first then second else first)
      (if Quantity.less secondValue firstValue then secondValue else firstValue) := by
  rw [secondDenotes.less_eq firstDenotes]
  split_ifs
  · exact secondDenotes
  · exact firstDenotes

end Denotes

theorem Holds.denotes {double : Float} {integer : ℤ} (holds : Holds double integer) {bits : ℕ}
    (small : integer.natAbs < 2 ^ bits) (fits : bits ≤ 1024) : Denotes double integer := by
  have finite := holds.isFinite small fits
  refine ⟨finite, ?_⟩
  rw [toRat_eq_level finite, holds.level, signedCount_integer]
  push_cast
  rw [mul_div_cancel_right₀ _ (by positivity)]

theorem denotes_zero : Denotes (Float.ofInt 0) 0 :=
  (holds_ofInt (exact_of_natAbs_le (Nat.zero_le _))).denotes (Nat.two_pow_pos 0) (Nat.zero_le _)

end Double

end CanCodec
