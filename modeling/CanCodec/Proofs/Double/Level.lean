import CanCodec.Proofs.Double.Rounding

/-! # Levels of doubles

The level of a double is its count with its sign. Levels order the doubles, and the level of
a sum is the rounded sum of levels. -/

namespace CanCodec.Double

open Float.Model Float.Model.UnpackedFloat

def topBits : Nat := 2098

/-- The first count past the finite doubles. It stands for an infinity. -/
def top : Nat := 2 ^ topBits

theorem two_pow_le_top {bits : ℕ} (fits : bits ≤ topBits) : 2 ^ bits ≤ top := by
  rw [top]
  exact Nat.pow_le_pow_right two_pos fits

theorem top_pos : 0 < top := by
  unfold top
  exact Nat.two_pow_pos topBits

def levelOf : UnpackedFloat → Int
  | .finite sign mantissa exponent _ => sign.apply (count mantissa exponent)
  | .infinity sign => sign.apply top
  | _ => 0

def level (double : Float) : Int := levelOf double.toModel.unpack

/-! ## Order -/

theorem count_lt_top {mantissa : Nat} {exponent : Int} (canonical : Canonical mantissa exponent)
    (fits : exponent ≤ 971) : count mantissa exponent < top := by
  have power : 53 + (exponent + 1074).toNat ≤ topBits := by
    unfold topBits
    omega
  calc
    count mantissa exponent < 2 ^ 53 * 2 ^ (exponent + 1074).toNat :=
      Nat.mul_lt_mul_of_pos_right canonical.narrow (Nat.two_pow_pos _)
    _ = 2 ^ (53 + (exponent + 1074).toNat) := (Nat.pow_add ..).symm
    _ ≤ top := Nat.pow_le_pow_right (by decide) power

theorem top_le_count {mantissa : Nat} {exponent : Int} (canonical : Canonical mantissa exponent)
    (overflows : 971 < exponent) : top ≤ count mantissa exponent := by
  have full : 2 ^ 52 ≤ mantissa := canonical.full.resolve_right (by omega)
  have power : topBits ≤ 52 + (exponent + 1074).toNat := by
    unfold topBits
    omega
  calc
    top ≤ 2 ^ (52 + (exponent + 1074).toNat) := Nat.pow_le_pow_right (by decide) power
    _ = 2 ^ 52 * 2 ^ (exponent + 1074).toNat := Nat.pow_add ..
    _ ≤ count mantissa exponent := Nat.mul_le_mul_right _ full

theorem compare_level {first second : UnpackedFloat} (firstUnpacked : Unpacked first)
    (secondUnpacked : Unpacked second) (firstNumber : first.isNaN = false)
    (secondNumber : second.isNaN = false) :
    first.compare second = some (compare (levelOf first) (levelOf second)) := by
  have topPositive := top_pos
  cases first with
  | notANumber => cases firstNumber
  | infinity sign =>
      cases second with
      | notANumber => cases secondNumber
      | infinity other =>
          cases sign <;> cases other <;>
            simp only [levelOf, Sign.apply, Int.compare_eq_ite_lt] <;> split_ifs <;>
            first | rfl | omega
      | zero other =>
          cases sign <;> simp only [levelOf, Sign.apply, Int.compare_eq_ite_lt] <;> split_ifs <;>
            first | rfl | omega
      | finite other mantissa exponent positive =>
          have below := count_lt_top secondUnpacked.1 secondUnpacked.2
          cases sign <;> cases other <;>
            simp only [levelOf, Sign.apply, Int.compare_eq_ite_lt] <;> split_ifs <;>
            first | rfl | omega
  | zero sign =>
      cases second with
      | notANumber => cases secondNumber
      | infinity other =>
          cases other <;> simp only [levelOf, Sign.apply, Int.compare_eq_ite_lt] <;> split_ifs <;>
            first | rfl | omega
      | zero other => rfl
      | finite other mantissa exponent positive =>
          have nonzero := count_pos positive exponent
          cases other <;> simp only [levelOf, Sign.apply, Int.compare_eq_ite_lt] <;> split_ifs <;>
            first | rfl | omega
  | finite sign mantissa exponent positive =>
      have nonzero := count_pos positive exponent
      have below := count_lt_top firstUnpacked.1 firstUnpacked.2
      cases second with
      | notANumber => cases secondNumber
      | infinity other =>
          cases sign <;> cases other <;>
            simp only [levelOf, Sign.apply, Int.compare_eq_ite_lt] <;> split_ifs <;>
            first | rfl | omega
      | zero other =>
          cases sign <;> simp only [levelOf, Sign.apply, Int.compare_eq_ite_lt] <;> split_ifs <;>
            first | rfl | omega
      | finite other otherMantissa otherExponent otherPositive =>
          have otherNonzero := count_pos otherPositive otherExponent
          have counts := firstUnpacked.1.compare_count secondUnpacked.1
          cases sign <;> cases other <;> simp only [UnpackedFloat.compare, counts]
          all_goals
            simp only [levelOf, Sign.apply, Int.compare_eq_ite_lt, Nat.compare_eq_ite_lt]
            split_ifs <;> first | rfl | omega

theorem compare_doubles (first second : Float) (firstNumber : first.isNaN = false)
    (secondNumber : second.isNaN = false) :
    first.toModel.unpack.compare second.toModel.unpack =
      some (compare (level first) (level second)) :=
  compare_level (unpack_unpacked _) (unpack_unpacked _) firstNumber secondNumber

theorem lt_iff_compare (first second : Float) :
    first < second ↔ first.toModel.unpack.compare second.toModel.unpack = some .lt := by
  change decide ((first.toModel.unpack.compare second.toModel.unpack == some .lt) = true) = true ↔ _
  rw [decide_eq_true_iff, beq_iff_eq]

theorem le_iff_compare (first second : Float) :
    first ≤ second ↔
      (first.toModel.unpack.compare second.toModel.unpack).any Ordering.isLE = true := by
  change decide
    ((first.toModel.unpack.compare second.toModel.unpack).any Ordering.isLE = true) = true ↔ _
  rw [decide_eq_true_iff]

theorem lt_iff_level {first second : Float} (firstNumber : first.isNaN = false)
    (secondNumber : second.isNaN = false) : first < second ↔ level first < level second := by
  rw [lt_iff_compare, compare_doubles first second firstNumber secondNumber, Option.some.injEq,
    Int.compare_eq_lt]

theorem le_iff_level {first second : Float} (firstNumber : first.isNaN = false)
    (secondNumber : second.isNaN = false) : first ≤ second ↔ level first ≤ level second := by
  rw [le_iff_compare, compare_doubles first second firstNumber secondNumber, Option.any_some,
    Int.isLE_compare]

theorem beq_iff_level {first second : Float} (firstNumber : first.isNaN = false)
    (secondNumber : second.isNaN = false) :
    (first == second) = true ↔ level first = level second := by
  change (first.toModel.unpack.compare second.toModel.unpack == some .eq) = true ↔ _
  rw [beq_iff_eq, compare_doubles first second firstNumber secondNumber, Option.some.injEq,
    Int.compare_eq_eq]

theorem unpack_of_isNaN {double : Float} (nan : double.isNaN) :
    double.toModel.unpack = .notANumber :=
  isNaN_iff.mp nan

theorem compare_of_isNaN {first second : Float} (nan : first.isNaN ∨ second.isNaN) :
    first.toModel.unpack.compare second.toModel.unpack = none := by
  rcases nan with nan | nan
  · rw [unpack_of_isNaN nan]
    rfl
  · rw [unpack_of_isNaN nan]
    cases first.toModel.unpack <;> rfl

theorem not_lt_of_isNaN {first second : Float} (nan : first.isNaN ∨ second.isNaN) :
    ¬first < second := by
  rw [lt_iff_compare, compare_of_isNaN nan]
  exact nofun

theorem not_le_of_isNaN {first second : Float} (nan : first.isNaN ∨ second.isNaN) :
    ¬first ≤ second := by
  rw [le_iff_compare, compare_of_isNaN nan]
  exact nofun

theorem isNaN_of_le {first second : Float} (le : first ≤ second) :
    first.isNaN = false ∧ second.isNaN = false := by
  rw [← Bool.not_eq_true, ← Bool.not_eq_true, ← not_or]
  exact fun nan => not_le_of_isNaN nan le

theorem isNaN_of_lt {first second : Float} (less : first < second) :
    first.isNaN = false ∧ second.isNaN = false := by
  rw [← Bool.not_eq_true, ← Bool.not_eq_true, ← not_or]
  exact fun nan => not_lt_of_isNaN nan less

theorem level_lt_of_lt {first second : Float} (less : first < second) :
    level first < level second :=
  (lt_iff_level (isNaN_of_lt less).1 (isNaN_of_lt less).2).mp less

theorem not_lt_of_le {first second : Float} (le : first ≤ second) : ¬second < first := by
  have numbers := isNaN_of_le le
  rw [le_iff_level numbers.1 numbers.2] at le
  rw [lt_iff_level numbers.2 numbers.1]
  exact Int.not_lt.mpr le

/-! ## Rounded levels -/

def rounded (counts : Int) : Int := counts.sign * (min (significant counts.natAbs) top : Nat)

theorem rounded_zero : rounded 0 = 0 := by
  rw [rounded, Int.sign_zero, Int.zero_mul]

theorem rounded_of_pos {counts : Int} (positive : 0 < counts) :
    rounded counts = (min (significant counts.natAbs) top : Nat) := by
  rw [rounded, Int.sign_eq_one_of_pos positive, Int.one_mul]

theorem rounded_of_neg {counts : Int} (negative : counts < 0) :
    rounded counts = -(min (significant counts.natAbs) top : Nat) := by
  rw [rounded, Int.sign_eq_neg_one_of_neg negative, Int.neg_mul, Int.one_mul]

def nearestLevel (counts : ℚ) : ℤ :=
  (min (significantOf counts) top : ℕ) - (min (significantOf (-counts)) top : ℕ)

theorem nearestLevel_zero : nearestLevel 0 = 0 := by
  rw [nearestLevel, neg_zero, sub_self]

theorem nearestLevel_neg (counts : ℚ) : nearestLevel (-counts) = -nearestLevel counts := by
  rw [nearestLevel, nearestLevel, neg_neg]
  omega

theorem nearestLevel_of_nonneg {counts : ℚ} (nonneg : 0 ≤ counts) :
    nearestLevel counts = (min (significantOf counts) top : ℕ) := by
  rw [nearestLevel, significantOf_of_nonpos (neg_nonpos.mpr nonneg), Nat.zero_min, Nat.cast_zero,
    sub_zero]

theorem nearestLevel_mono {first second : ℚ} (le : first ≤ second) :
    nearestLevel first ≤ nearestLevel second := by
  have upper := significantOf_mono le
  have lower := significantOf_mono (neg_le_neg le)
  unfold nearestLevel
  omega

theorem nearestLevel_intCast (counts : ℤ) : nearestLevel counts = rounded counts := by
  rcases Int.lt_trichotomy counts 0 with negative | rfl | positive
  · have magnitude : (counts : ℚ) = -(counts.natAbs : ℕ) := by
      rw [Nat.cast_natAbs, abs_of_neg negative, Int.cast_neg, neg_neg]
    rw [rounded_of_neg negative, magnitude, nearestLevel_neg, nearestLevel_of_nonneg (by positivity),
      significantOf_natCast]
  · rw [rounded_zero, Int.cast_zero, nearestLevel_zero]
  · have magnitude : (counts : ℚ) = (counts.natAbs : ℕ) := by
      rw [Nat.cast_natAbs, abs_of_pos positive]
    rw [rounded_of_pos positive, magnitude, nearestLevel_of_nonneg (by positivity),
      significantOf_natCast]

theorem rounded_mono {first second : Int} (le : first ≤ second) :
    rounded first ≤ rounded second := by
  rw [← nearestLevel_intCast, ← nearestLevel_intCast]
  exact nearestLevel_mono (by exact_mod_cast le)

theorem levelOf_pack_round (sign : Sign) {mantissa : Nat} {exponent : Int}
    (positive : 0 < mantissa) (low : -1074 ≤ exponent) :
    levelOf (Float.Model.pack (UnpackedFloat.round .binary64 sign mantissa exponent)).unpack =
        sign.apply (min (significant (count mantissa exponent)) top : Nat) ∧
      (Float.Model.pack (UnpackedFloat.round .binary64 sign mantissa exponent)).unpack.isNaN =
        false := by
  rcases round_spec sign positive low with ⟨result, power, nonzero, isRound, canonical, counted⟩
  rw [isRound, unpack_pack_finite sign nonzero canonical, ← counted]
  split_ifs with fits
  · have below := count_lt_top canonical fits
    rw [Nat.min_eq_left (Nat.le_of_lt below)]
    exact ⟨rfl, rfl⟩
  · rw [Nat.min_eq_right (top_le_count canonical (by omega))]
    exact ⟨rfl, rfl⟩

theorem levelOf_pack_normalize {mantissa exponent : Int} (low : -1074 ≤ exponent) (zero : Sign) :
    levelOf (Float.Model.pack (normalize .binary64 mantissa exponent zero)).unpack =
        rounded (signedCount mantissa exponent) ∧
      (Float.Model.pack (normalize .binary64 mantissa exponent zero)).unpack.isNaN = false := by
  have power : (0 : Int) < 2 ^ (exponent + 1074).toNat := Int.pow_pos (by decide)
  rcases Int.lt_trichotomy mantissa 0 with negative | rfl | positive
  · have negativeCount : signedCount mantissa exponent < 0 :=
      Int.mul_neg_of_neg_of_pos negative power
    rw [normalize_of_neg negative, rounded_of_neg negativeCount, natAbs_signedCount]
    exact levelOf_pack_round .negative (by omega) low
  · rw [signedCount, Int.zero_mul, rounded_zero, UnpackedFloat.normalize,
      Int.compare_eq_eq.mpr rfl, unpack_pack_zero]
    exact ⟨rfl, rfl⟩
  · have positiveCount : 0 < signedCount mantissa exponent := Int.mul_pos positive power
    rw [normalize_of_pos positive, rounded_of_pos positiveCount, natAbs_signedCount]
    exact levelOf_pack_round .positive (by omega) low

theorem rounded_eq_self {counts : Int} (kept : significant counts.natAbs = counts.natAbs)
    (le : counts.natAbs ≤ top) : rounded counts = counts := by
  rw [rounded, kept, Nat.min_eq_left le, Int.sign_mul_natAbs]

theorem rounded_level (double : Float) : rounded (level double) = level double := by
  have isUnpacked := unpack_unpacked double.toModel
  rw [level]
  cases equal : double.toModel.unpack with
  | notANumber => exact rounded_zero
  | zero sign => exact rounded_zero
  | infinity sign =>
      have magnitude : (levelOf (.infinity sign)).natAbs = 1 * 2 ^ topBits := by
        rw [Nat.one_mul]
        exact natAbs_apply sign top
      apply rounded_eq_self
      · rw [magnitude]
        exact significant_mul_two_pow (by decide) topBits
      · rw [magnitude, Nat.one_mul]
        exact Nat.le_refl top
  | finite sign mantissa exponent positive =>
      rw [equal] at isUnpacked
      have magnitude : (levelOf (.finite sign mantissa exponent positive)).natAbs =
          count mantissa exponent := natAbs_apply sign _
      apply rounded_eq_self
      · rw [magnitude, isUnpacked.1.significant_count]
      · rw [magnitude]
        exact Nat.le_of_lt (count_lt_top isUnpacked.1 isUnpacked.2)

end CanCodec.Double
