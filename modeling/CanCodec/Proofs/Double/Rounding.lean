import CanCodec.Proofs.Double.Packing
import CanCodec.Proofs.Double.Quotient

/-! # Rounding to a double

A finite double is counted in units of the least positive double. Sums and differences of
doubles are whole counts, and rounding them is rounding to 53 significant bits. -/

namespace CanCodec.Double

open Float.Model Float.Model.UnpackedFloat

/-- How many times the least positive double a number is. -/
def count (mantissa : Nat) (exponent : Int) : Nat := mantissa * 2 ^ (exponent + 1074).toNat

theorem count_pos {mantissa : Nat} (positive : 0 < mantissa) (exponent : Int) :
    0 < count mantissa exponent :=
  Nat.mul_pos positive (Nat.two_pow_pos _)

theorem count_mul_two_pow (mantissa : Nat) {exponent : Int} {bits : Nat}
    (low : -1074 ≤ exponent - bits) :
    count (mantissa * 2 ^ bits) (exponent - bits) = count mantissa exponent := by
  rw [count, Nat.mul_assoc, ← Nat.pow_add, count]
  congr 2
  omega

/-! ## Canonical counts -/

namespace Canonical

variable {mantissa otherMantissa : Nat} {exponent otherExponent : Int}

theorem excess_count (canonical : Canonical mantissa exponent) :
    excess (count mantissa exponent) = (exponent + 1074).toNat := by
  rcases canonical with ⟨narrow, low, full | rfl⟩
  · apply excess_eq
    · rw [Nat.pow_add]
      exact Nat.mul_le_mul_right _ full
    · rw [Nat.pow_add]
      exact Nat.mul_lt_mul_of_pos_right narrow (Nat.two_pow_pos _)
  · change excess (mantissa * 1) = 0
    exact excess_eq_zero (by omega)

theorem significant_count (canonical : Canonical mantissa exponent) :
    significant (count mantissa exponent) = count mantissa exponent :=
  significant_mul_two_pow canonical.narrow _

theorem eq_of_count_eq (canonical : Canonical mantissa exponent)
    (other : Canonical otherMantissa otherExponent)
    (same : count mantissa exponent = count otherMantissa otherExponent) :
    mantissa = otherMantissa ∧ exponent = otherExponent := by
  have exponents : exponent = otherExponent := by
    have equal := canonical.excess_count
    rw [same, other.excess_count] at equal
    have low := canonical.low
    have otherLow := other.low
    omega
  subst exponents
  exact ⟨Nat.eq_of_mul_eq_mul_right (Nat.two_pow_pos _) same, rfl⟩

theorem compare_count (canonical : Canonical mantissa exponent)
    (other : Canonical otherMantissa otherExponent) :
    (compare exponent otherExponent).then (compare mantissa otherMantissa) =
      compare (count mantissa exponent) (count otherMantissa otherExponent) := by
  have low := canonical.low
  have otherLow := other.low
  have less_of_exponent {first second : Nat} {small large : Int} (left : Canonical first small)
      (right : Canonical second large) (less : small < large) :
      count first small < count second large := by
    by_contra ordered
    have excesses := excess_mono (Nat.le_of_not_lt ordered)
    rw [left.excess_count, right.excess_count] at excesses
    have leftLow := left.low
    omega
  rcases Int.lt_trichotomy exponent otherExponent with less | rfl | greater
  · rw [Int.compare_eq_lt.mpr less, Nat.compare_eq_lt.mpr (less_of_exponent canonical other less)]
    rfl
  · rw [Int.compare_eq_eq.mpr rfl]
    simp only [Ordering.eq_then, count, Nat.compare_eq_ite_lt,
      Nat.mul_lt_mul_right (Nat.two_pow_pos _)]
  · rw [Int.compare_eq_gt.mpr greater,
      Nat.compare_eq_gt.mpr (less_of_exponent other canonical greater)]
    rfl

end Canonical

/-! ## The rounding steps -/

/-- A mantissa and its residual bits say of a number what its whole part is, and whether the
rest is nothing, less than a half, a half or more. -/
structure StandsFor (extended : ExtendedMantissa) (value : ℚ) : Prop where
  least : extended.mantissa ≤ value
  below : value < extended.mantissa + 1
  half : extended.roundBit = true ↔ extended.mantissa + 1 / 2 ≤ value
  rest : extended.stickyBit = true ↔
    value ≠ extended.mantissa ∧ value ≠ extended.mantissa + 1 / 2

theorem mantissa_ofMantissaAndAccuracy (mantissa : ℕ) (accuracy : Accuracy) :
    (ExtendedMantissa.ofMantissaAndAccuracy mantissa accuracy).mantissa = mantissa := by
  rcases accuracy with _ | (_ | _ | _) <;> rfl

namespace StandsFor

theorem exact (mantissa : ℕ) : StandsFor (.ofMantissaAndAccuracy mantissa .exact) mantissa := by
  constructor <;> simp [ExtendedMantissa.ofMantissaAndAccuracy]

theorem inexact (mantissa : ℕ) {rest : ℚ} (positive : 0 < rest) (small : rest < 1) :
    StandsFor (.ofMantissaAndAccuracy mantissa (.inexact (compare rest (1 / 2))))
      (mantissa + rest) := by
  rcases lt_trichotomy rest (1 / 2) with less | rfl | more
  · rw [compare_lt_iff_lt.mpr less]
    dsimp only [ExtendedMantissa.ofMantissaAndAccuracy]
    exact ⟨by linarith, by linarith, iff_of_false nofun (by linarith),
      iff_of_true rfl ⟨by linarith, by linarith⟩⟩
  · rw [compare_eq_iff_eq.mpr rfl]
    dsimp only [ExtendedMantissa.ofMantissaAndAccuracy]
    exact ⟨by linarith, by linarith, iff_of_true rfl le_rfl, iff_of_false nofun fun other => other.2 rfl⟩
  · rw [compare_gt_iff_gt.mpr more]
    dsimp only [ExtendedMantissa.ofMantissaAndAccuracy]
    exact ⟨by linarith, by linarith, iff_of_true rfl (by linarith),
      iff_of_true rfl ⟨by linarith, by linarith⟩⟩

theorem fraction (numerator : ℕ) {denominator : ℕ} (positive : 0 < denominator) :
    StandsFor (.ofMantissaAndAccuracy (numerator / denominator)
      (accuracyOfFraction (numerator % denominator) denominator))
      (numerator / denominator : ℚ) := by
  have positiveCast : (0 : ℚ) < denominator := by exact_mod_cast positive
  have split : (numerator / denominator : ℚ) =
      (numerator / denominator : ℕ) + (numerator % denominator : ℕ) / denominator := by
    rw [div_eq_iff positiveCast.ne', add_mul, div_mul_cancel₀ _ positiveCast.ne']
    exact_mod_cast (Nat.div_add_mod' numerator denominator).symm
  rw [split, accuracyOfFraction]
  split_ifs with whole
  · rw [whole, Nat.cast_zero, zero_div, add_zero]
    exact exact _
  · have compared : compare (2 * (numerator % denominator)) denominator =
        compare (((numerator % denominator : ℕ) : ℚ) / denominator) (1 / 2) := by
      rcases Nat.lt_trichotomy (2 * (numerator % denominator)) denominator with less | equal | more
      · have small : ((numerator % denominator : ℕ) : ℚ) / denominator < 1 / 2 := by
          rw [div_lt_div_iff₀ positiveCast two_pos, mul_comm, one_mul]
          exact_mod_cast less
        rw [Nat.compare_eq_lt.mpr less, compare_lt_iff_lt.mpr small]
      · have half : ((numerator % denominator : ℕ) : ℚ) / denominator = 1 / 2 := by
          rw [div_eq_div_iff positiveCast.ne' two_ne_zero, mul_comm, one_mul]
          exact_mod_cast equal
        rw [Nat.compare_eq_eq.mpr equal, compare_eq_iff_eq.mpr half]
      · have large : 1 / 2 < ((numerator % denominator : ℕ) : ℚ) / denominator := by
          rw [div_lt_div_iff₀ two_pos positiveCast, one_mul, mul_comm]
          exact_mod_cast more
        rw [Nat.compare_eq_gt.mpr more, compare_gt_iff_gt.mpr large]
    rw [compared]
    apply inexact
    · exact div_pos (by exact_mod_cast Nat.pos_of_ne_zero whole) positiveCast
    · rw [div_lt_one positiveCast]
      exact_mod_cast Nat.mod_lt numerator positive

variable {extended : ExtendedMantissa} {value : ℚ}

theorem floor_eq (stands : StandsFor extended value) : ⌊value⌋₊ = extended.mantissa :=
  (Nat.floor_eq_iff (le_trans (Nat.cast_nonneg _) stands.least)).mpr ⟨stands.least, stands.below⟩

theorem roundedMantissa_eq (stands : StandsFor extended value) :
    extended.roundedMantissa = nearestEven value := by
  rw [nearestEven, stands.floor_eq]
  rcases stands with ⟨least, below, half, rest⟩
  rcases extended with ⟨mantissa, roundBit, stickyBit⟩
  dsimp only at least below half rest ⊢
  cases roundBit with
  | false =>
      have less : value < mantissa + 1 / 2 := by simpa using half
      rw [if_pos less]
      cases stickyBit <;> rfl
  | true =>
      have atLeast : mantissa + 1 / 2 ≤ value := by simpa using half
      rw [if_neg (not_lt.mpr atLeast)]
      cases stickyBit with
      | false =>
          have middle : value = mantissa + 1 / 2 := by
            by_contra different
            exact absurd (rest.mpr ⟨by linarith, different⟩) Bool.false_ne_true
          rw [if_neg middle.not_gt]
          rfl
      | true =>
          have different : value ≠ mantissa + 1 / 2 := (rest.mp rfl).2
          rw [if_pos (lt_of_le_of_ne atLeast different.symm)]
          rfl

theorem inexact_iff (stands : StandsFor extended value) :
    (extended.roundBit || extended.stickyBit) = true ↔ value ≠ extended.mantissa := by
  rw [Bool.or_eq_true, stands.half, stands.rest]
  constructor
  · rintro (half | rest)
    · linarith
    · exact rest.1
  · intro different
    by_cases middle : value = extended.mantissa + 1 / 2
    · exact .inl middle.ge
    · exact .inr ⟨different, middle⟩

theorem shiftRightOne (stands : StandsFor extended value) :
    StandsFor extended.shiftRightOne (value / 2) := by
  have inexact := stands.inexact_iff
  rcases stands with ⟨least, below, half, rest⟩
  rcases extended with ⟨mantissa, roundBit, stickyBit⟩
  dsimp only at least below half rest inexact
  obtain ⟨quotient, rfl | rfl⟩ : ∃ quotient, mantissa = 2 * quotient ∨ mantissa = 2 * quotient + 1 :=
    ⟨mantissa / 2, by omega⟩
  · have halved : 2 * quotient / 2 = quotient := by omega
    have even : (2 * quotient % 2 != 0) = false := by simp
    push_cast at least below half rest inexact
    rw [ExtendedMantissa.shiftRightOne, halved, even]
    refine ⟨by linarith, by linarith, iff_of_false nofun (by linarith), inexact.trans ?_⟩
    refine ⟨fun different => ⟨fun same => different (by linarith), by linarith⟩, fun different same =>
      different.1 (by linarith)⟩
  · have halved : (2 * quotient + 1) / 2 = quotient := by omega
    have odd : ((2 * quotient + 1) % 2 != 0) = true := by simp [Nat.add_mod]
    push_cast at least below half rest inexact
    rw [ExtendedMantissa.shiftRightOne, halved, odd]
    refine ⟨by linarith, by linarith, iff_of_true rfl (by linarith), inexact.trans ?_⟩
    refine ⟨fun different => ⟨by linarith, fun same => different (by linarith)⟩, fun different same =>
      different.2 (by linarith)⟩

theorem shiftRight (stands : StandsFor extended value) (bits : ℕ) :
    StandsFor (extended >>> bits) (value / 2 ^ bits) := by
  change StandsFor (bits.repeat ExtendedMantissa.shiftRightOne extended) _
  induction bits with
  | zero =>
      rw [pow_zero, div_one]
      exact stands
  | succ bits induction =>
      rw [Nat.repeat, pow_succ, ← div_div]
      exact induction.shiftRightOne

end StandsFor

theorem cast_count (mantissa : ℕ) {exponent : ℤ} (low : -1074 ≤ exponent) :
    (count mantissa exponent : ℚ) = mantissa * 2 ^ (exponent + 1074) := by
  have natural : ((exponent + 1074).toNat : ℤ) = exponent + 1074 := by omega
  rw [← natural, count, zpow_natCast]
  push_cast
  rfl

theorem excessOf_count (mantissa : ℕ) {exponent : ℤ} (low : -1074 ≤ exponent) :
    excessOf (mantissa * 2 ^ (exponent + 1074)) = excess (count mantissa exponent) := by
  rw [← cast_count mantissa low, excessOf, Nat.floor_natCast]

section

variable {mantissa : ℕ} {exponent : ℤ} {value : ℚ}

theorem targetExponent_eq (least : mantissa ≤ value) (below : value < mantissa + 1)
    (bounded : 0 < mantissa ∨ exponent ≤ -1074) :
    Format.binary64.targetExponent (totalExponent mantissa exponent) =
      (excessOf (value * 2 ^ (exponent + 1074)) : ℤ) - 1074 := by
  change max ((mantissa.log2 : ℤ) + 1 + exponent - 53) (-1074) = _
  have scale : (0 : ℚ) < 2 ^ (exponent + 1074) := by positivity
  have above : value * 2 ^ (exponent + 1074) < 2 ^ ((mantissa.log2 + 1 : ℕ) + (exponent + 1074)) := by
    have next : value < (2 ^ (mantissa.log2 + 1) : ℕ) :=
      below.trans_le (by exact_mod_cast Nat.lt_log2_self)
    rw [zpow_add₀ two_ne_zero (_ : ℕ) _, zpow_natCast]
    exact mul_lt_mul_of_pos_right (by exact_mod_cast next) scale
  rcases le_or_gt ((mantissa.log2 : ℤ) + 1 + exponent + 1074) 53 with small | large
  · have none : excessOf (value * 2 ^ (exponent + 1074)) = 0 := by
      apply excessOf_eq_zero
      refine above.trans_le ?_
      rw [← zpow_natCast]
      exact zpow_le_zpow_right₀ one_le_two (by push_cast; omega)
    omega
  · have nonzero : mantissa ≠ 0 := by
      rintro rfl
      rw [Nat.log2_zero] at large
      omega
    obtain ⟨bits, isBits⟩ : ∃ bits : ℕ, (mantissa.log2 : ℤ) + 1 + exponent + 1074 = 53 + bits :=
      ⟨(mantissa.log2 + 1 + exponent + 1074 - 53).toNat, by omega⟩
    have some : excessOf (value * 2 ^ (exponent + 1074)) = bits := by
      apply excessOf_eq
      · have leading : ((2 ^ mantissa.log2 : ℕ) : ℚ) ≤ value :=
          le_trans (by exact_mod_cast Nat.log2_self_le nonzero) least
        have power : (2 : ℚ) ^ (52 + bits) = (2 ^ mantissa.log2 : ℕ) * 2 ^ (exponent + 1074) := by
          rw [Nat.cast_pow, Nat.cast_ofNat, ← zpow_natCast, ← zpow_natCast, ← zpow_add₀ two_ne_zero]
          congr 1
          push_cast
          omega
        rw [power]
        exact mul_le_mul_of_nonneg_right leading scale.le
      · refine above.trans_le ?_
        rw [← zpow_natCast]
        exact zpow_le_zpow_right₀ one_le_two (by push_cast; omega)
    omega

theorem shiftToTargetExponent_eq (accuracy : Accuracy) (least : mantissa ≤ value)
    (below : value < mantissa + 1) (bounded : 0 < mantissa ∨ exponent ≤ -1074) :
    shiftToTargetExponent .binary64 mantissa exponent accuracy =
      (ExtendedMantissa.ofMantissaAndAccuracy mantissa accuracy >>>
          ((excessOf (value * 2 ^ (exponent + 1074)) : ℤ) - 1074 - exponent).toNat,
        max exponent ((excessOf (value * 2 ^ (exponent + 1074)) : ℤ) - 1074)) := by
  unfold shiftToTargetExponent shiftToExponent
  rw [targetExponent_eq least below bounded]
  dsimp only
  rw [Prod.mk.injEq]
  exact ⟨rfl, by omega⟩

end

theorem shiftToTargetExponent_exact {mantissa : ℕ} {exponent : ℤ} (positive : 0 < mantissa)
    (low : -1074 ≤ exponent) :
    shiftToTargetExponent .binary64 mantissa exponent .exact =
      (ExtendedMantissa.ofMantissaAndAccuracy mantissa .exact >>>
          (excess (count mantissa exponent) - (exponent + 1074).toNat),
        max exponent ((excess (count mantissa exponent) : ℤ) - 1074)) := by
  rw [shiftToTargetExponent_eq .exact le_rfl (lt_add_one _) (.inl positive),
    excessOf_count mantissa low, Prod.mk.injEq]
  exact ⟨by congr 1; omega, rfl⟩

theorem shiftToTargetExponent_carry {exponent : ℤ} (low : -1074 ≤ exponent) :
    (shiftToTargetExponent .binary64 (2 ^ 53) exponent .exact).1.mantissa = 2 ^ 52 ∧
      (shiftToTargetExponent .binary64 (2 ^ 53) exponent .exact).2 = exponent + 1 := by
  have dropped : excess (count (2 ^ 53) exponent) = (exponent + 1074).toNat + 1 := by
    have power : count (2 ^ 53) exponent = 2 ^ 52 * 2 ^ ((exponent + 1074).toNat + 1) := by
      rw [count, Nat.pow_succ]
      ring
    apply excess_eq
    · rw [power, ← Nat.pow_add]
    · rw [power, ← Nat.pow_add]
      exact Nat.pow_lt_pow_right (by decide) (by omega)
  rw [shiftToTargetExponent_exact (by decide) low, dropped, Nat.add_sub_cancel_left]
  exact ⟨rfl, by dsimp only; omega⟩

theorem shiftToTargetExponent_narrow {mantissa : ℕ} {exponent : ℤ} (positive : 0 < mantissa)
    (narrow : mantissa < 2 ^ 53) (low : -1074 ≤ exponent) :
    (shiftToTargetExponent .binary64 mantissa exponent .exact).1.mantissa = mantissa ∧
      (shiftToTargetExponent .binary64 mantissa exponent .exact).2 = exponent := by
  have dropped : excess (count mantissa exponent) ≤ (exponent + 1074).toNat :=
    excess_mul_two_pow_le narrow _
  rw [shiftToTargetExponent_exact positive low, Nat.sub_eq_zero_of_le dropped]
  exact ⟨rfl, by dsimp only; omega⟩

theorem shiftToTargetExponent_rounded {quotient dropped : ℕ} (nonzero : 0 < quotient)
    (carried : quotient ≤ 2 ^ 53) (filled : 2 ^ 52 ≤ quotient ∨ dropped = 0) :
    ∃ rounded power, 0 < rounded ∧ Canonical rounded power ∧
      count rounded power = quotient * 2 ^ dropped ∧
      (shiftToTargetExponent .binary64 quotient ((dropped : ℤ) - 1074) .exact).1.mantissa =
        rounded ∧
      (shiftToTargetExponent .binary64 quotient ((dropped : ℤ) - 1074) .exact).2 = power := by
  have low : -1074 ≤ (dropped : ℤ) - 1074 := by omega
  rcases Nat.lt_or_eq_of_le carried with narrow | rfl
  · refine ⟨quotient, (dropped : ℤ) - 1074, nonzero, ⟨narrow, low, by omega⟩, ?_,
      shiftToTargetExponent_narrow nonzero narrow low⟩
    rw [count, show ((dropped : ℤ) - 1074 + 1074).toNat = dropped by omega]
  · refine ⟨2 ^ 52, (dropped : ℤ) - 1074 + 1, by decide, ⟨by decide, by omega, .inl le_rfl⟩, ?_,
      shiftToTargetExponent_carry low⟩
    rw [count, show ((dropped : ℤ) - 1074 + 1 + 1074).toNat = dropped + 1 by omega, Nat.pow_succ]
    ring

/-- The first shift leaves out the bits that exceed 53, and none if there are fewer. -/
theorem exists_shiftToTargetExponent {mantissa : ℕ} {exponent : ℤ} {accuracy : Accuracy}
    {value : ℚ} (stands : StandsFor (.ofMantissaAndAccuracy mantissa accuracy) value)
    (full : exponent ≤ -1074 ∨ 2 ^ 52 ≤ mantissa) :
    ∃ shifted, shiftToTargetExponent .binary64 mantissa exponent accuracy =
        (shifted, (excessOf (value * 2 ^ (exponent + 1074)) : ℤ) - 1074) ∧
      shifted.roundedMantissa = nearestEven (value * 2 ^ (exponent + 1074) /
        2 ^ excessOf (value * 2 ^ (exponent + 1074))) := by
  have bounded : 0 < mantissa ∨ exponent ≤ -1074 := by omega
  have least := stands.least
  have below := stands.below
  rw [mantissa_ofMantissaAndAccuracy] at least below
  have target := targetExponent_eq least below bounded
  rw [shiftToTargetExponent_eq accuracy least below bounded]
  generalize excessOf (value * 2 ^ (exponent + 1074)) = dropped at target ⊢
  have upward : exponent ≤ (dropped : ℤ) - 1074 := by
    rcases full with low | full
    · omega
    · have log : 52 ≤ mantissa.log2 := (Nat.le_log2 (by omega)).mpr full
      change max ((mantissa.log2 : ℤ) + 1 + exponent - 53) (-1074) = _ at target
      omega
  refine ⟨_, by rw [max_eq_right upward], ?_⟩
  rw [(stands.shiftRight _).roundedMantissa_eq]
  congr 1
  rw [div_eq_div_iff (by positivity) (by positivity), mul_assoc, ← zpow_natCast, ← zpow_natCast,
    ← zpow_add₀ two_ne_zero]
  congr 2
  omega

def IsCanonical (sign : Sign) (counts : ℕ) (double : UnpackedFloat) : Prop :=
  ∃ mantissa exponent, ∃ positive : 0 < mantissa, double = .finite sign mantissa exponent positive ∧
    Canonical mantissa exponent ∧ count mantissa exponent = counts

theorem IsCanonical.unique {sign : Sign} {counts : ℕ} {first second : UnpackedFloat}
    (isFirst : IsCanonical sign counts first) (isSecond : IsCanonical sign counts second) :
    first = second := by
  rcases isFirst with ⟨_, _, _, rfl, canonical, counted⟩
  rcases isSecond with ⟨_, _, _, rfl, other, rfl⟩
  obtain ⟨rfl, rfl⟩ := canonical.eq_of_count_eq other counted
  rfl

/-- A number is rounded to its 53 leading bits, given enough of them and an account of the
rest. -/
theorem roundWithAccuracy_spec (sign : Sign) {mantissa : ℕ} {exponent : ℤ} {accuracy : Accuracy}
    {value : ℚ} (stands : StandsFor (.ofMantissaAndAccuracy mantissa accuracy) value)
    (full : exponent ≤ -1074 ∨ 2 ^ 52 ≤ mantissa) :
    significantOf (value * 2 ^ (exponent + 1074)) = 0 ∧
        roundWithAccuracy .binary64 sign mantissa exponent accuracy = .zero sign ∨
      IsCanonical sign (significantOf (value * 2 ^ (exponent + 1074)))
        (roundWithAccuracy .binary64 sign mantissa exponent accuracy) := by
  rcases exists_shiftToTargetExponent stands full with ⟨shifted, first, isRounded⟩
  generalize value * 2 ^ (exponent + 1074) = counts at first isRounded ⊢
  unfold roundWithAccuracy
  rw [first, significantOf]
  dsimp only
  rw [isRounded]
  have carried := nearestEven_excessOf_le counts
  have filled : 2 ^ 52 ≤ nearestEven (counts / 2 ^ excessOf counts) ∨ excessOf counts = 0 :=
    (Nat.eq_zero_or_pos _).symm.imp_left le_nearestEven_excessOf
  generalize nearestEven (counts / 2 ^ excessOf counts) = quotient at carried filled ⊢
  generalize excessOf counts = dropped at filled ⊢
  rcases Nat.eq_zero_or_pos quotient with rfl | nonzero
  · left
    obtain rfl : dropped = 0 := filled.resolve_left (by decide)
    exact ⟨Nat.zero_mul _, rfl⟩
  · right
    rcases shiftToTargetExponent_rounded nonzero carried filled with
      ⟨rounded, power, positive, canonical, same, isMantissa, isPower⟩
    simp only [isMantissa, isPower]
    rw [dif_neg (Nat.ne_of_gt positive)]
    exact ⟨rounded, power, positive, rfl, canonical, same⟩

theorem roundWithAccuracy_exact (sign : Sign) {mantissa : ℕ} {exponent : ℤ}
    (positive : 0 < mantissa) (low : -1074 ≤ exponent)
    (full : (exponent + 1074).toNat ≤ excess (count mantissa exponent)) :
    IsCanonical sign (significant (count mantissa exponent))
      (roundWithAccuracy .binary64 sign mantissa exponent .exact) := by
  have filled : exponent ≤ -1074 ∨ 2 ^ 52 ≤ mantissa := by
    rcases Nat.eq_zero_or_pos (exponent + 1074).toNat with none | some
    · exact .inl (by omega)
    · right
      have leading := two_pow_excess_le (Nat.lt_of_lt_of_le some full)
      rw [count, Nat.add_comm, Nat.pow_add] at leading
      have power := Nat.pow_le_pow_right two_pos full
      exact Nat.le_of_mul_le_mul_right ((Nat.mul_le_mul_left _ power).trans leading)
        (Nat.two_pow_pos _)
  have spec := roundWithAccuracy_spec sign (.exact mantissa) filled
  rw [← cast_count mantissa low, significantOf_natCast] at spec
  exact spec.resolve_left fun zero =>
    Nat.ne_of_gt (significant_pos (count_pos positive exponent)) zero.1

theorem round_spec (sign : Sign) {mantissa : Nat} {exponent : Int}
    (positive : 0 < mantissa) (low : -1074 ≤ exponent) :
    IsCanonical sign (significant (count mantissa exponent))
      (UnpackedFloat.round .binary64 sign mantissa exponent) := by
  -- The exponent is lowered to the target first, which keeps the count.
  let bits := (exponent - ((excess (count mantissa exponent) : Int) - 1074)).toNat
  have lowered : UnpackedFloat.round .binary64 sign mantissa exponent =
      roundWithAccuracy .binary64 sign (mantissa * 2 ^ bits) (exponent - bits) .exact := by
    unfold UnpackedFloat.round decreaseExponent
    rw [targetExponent_eq le_rfl (lt_add_one _) (.inl positive), excessOf_count mantissa low]
    dsimp only
    rw [Nat.shiftLeft_eq]
  have counted : count (mantissa * 2 ^ bits) (exponent - bits) = count mantissa exponent :=
    count_mul_two_pow mantissa (by omega)
  have full : (exponent - bits + 1074).toNat ≤
      excess (count (mantissa * 2 ^ bits) (exponent - bits)) := by
    rw [counted]
    omega
  have spec := roundWithAccuracy_exact sign (Nat.mul_pos positive (Nat.two_pow_pos bits))
    (by omega) full
  rwa [counted, ← lowered] at spec

/-! ## Results that depend on counts only -/

theorem round_congr (sign : Sign) {mantissa otherMantissa : Nat} {exponent otherExponent : Int}
    (positive : 0 < mantissa) (low : -1074 ≤ exponent) (otherPositive : 0 < otherMantissa)
    (otherLow : -1074 ≤ otherExponent)
    (same : count mantissa exponent = count otherMantissa otherExponent) :
    UnpackedFloat.round .binary64 sign mantissa exponent =
      UnpackedFloat.round .binary64 sign otherMantissa otherExponent := by
  have isRound := round_spec sign positive low
  rw [same] at isRound
  exact isRound.unique (round_spec sign otherPositive otherLow)

theorem round_canonical (sign : Sign) {mantissa : Nat} {exponent : Int} (positive : 0 < mantissa)
    (canonical : Canonical mantissa exponent) :
    UnpackedFloat.round .binary64 sign mantissa exponent =
      .finite sign mantissa exponent positive := by
  have isRound := round_spec sign positive canonical.low
  rw [canonical.significant_count] at isRound
  exact isRound.unique ⟨mantissa, exponent, positive, rfl, canonical, rfl⟩

theorem roundWithAccuracy_eq_round (sign : Sign) {mantissa otherMantissa : Nat}
    {exponent otherExponent : Int} (positive : 0 < mantissa) (low : -1074 ≤ exponent)
    (full : (exponent + 1074).toNat ≤ excess (count mantissa exponent))
    (otherPositive : 0 < otherMantissa) (otherLow : -1074 ≤ otherExponent)
    (same : count mantissa exponent = count otherMantissa otherExponent) :
    roundWithAccuracy .binary64 sign mantissa exponent .exact =
      UnpackedFloat.round .binary64 sign otherMantissa otherExponent := by
  have isRound := roundWithAccuracy_exact sign positive low full
  rw [same] at isRound
  exact isRound.unique (round_spec sign otherPositive otherLow)

/-! ## Signed numbers -/

theorem natAbs_apply (sign : Sign) (natural : Nat) : (sign.apply natural).natAbs = natural := by
  cases sign with
  | negative => exact (Int.natAbs_neg _).trans (Int.natAbs_natCast _)
  | positive => exact Int.natAbs_natCast _

def signedCount (mantissa exponent : Int) : Int := mantissa * 2 ^ (exponent + 1074).toNat

theorem normalize_of_pos {mantissa : Int} (positive : 0 < mantissa) (exponent : Int)
    (zero : Sign) : normalize .binary64 mantissa exponent zero =
      UnpackedFloat.round .binary64 .positive mantissa.natAbs exponent := by
  have magnitude : mantissa.toNat = mantissa.natAbs := by omega
  rw [UnpackedFloat.normalize, Int.compare_eq_gt.mpr positive, magnitude]

theorem normalize_of_neg {mantissa : Int} (negative : mantissa < 0) (exponent : Int)
    (zero : Sign) : normalize .binary64 mantissa exponent zero =
      UnpackedFloat.round .binary64 .negative mantissa.natAbs exponent := by
  have magnitude : (-mantissa).toNat = mantissa.natAbs := by omega
  rw [UnpackedFloat.normalize, Int.compare_eq_lt.mpr negative, magnitude]

theorem natAbs_signedCount (mantissa exponent : Int) :
    (signedCount mantissa exponent).natAbs = count mantissa.natAbs exponent := by
  rw [signedCount, Int.natAbs_mul, Int.natAbs_pow]
  rfl

theorem normalize_congr {mantissa otherMantissa exponent otherExponent : Int} (zero : Sign)
    (low : -1074 ≤ exponent) (otherLow : -1074 ≤ otherExponent)
    (same : signedCount mantissa exponent = signedCount otherMantissa otherExponent) :
    normalize .binary64 mantissa exponent zero =
      normalize .binary64 otherMantissa otherExponent zero := by
  have power (bits : Nat) : (0 : Int) < 2 ^ bits := Int.pow_pos (by decide)
  have counts : count mantissa.natAbs exponent = count otherMantissa.natAbs otherExponent := by
    rw [← natAbs_signedCount, same, natAbs_signedCount]
  have signs : mantissa.sign = otherMantissa.sign := by
    have equal := congrArg Int.sign same
    rwa [signedCount, signedCount, Int.sign_mul, Int.sign_mul, Int.sign_eq_one_of_pos (power _),
      Int.sign_eq_one_of_pos (power _), Int.mul_one, Int.mul_one] at equal
  rcases Int.lt_trichotomy mantissa 0 with negative | rfl | positive
  · have otherNegative : otherMantissa < 0 := by
      rwa [← Int.sign_eq_neg_one_iff_neg, ← signs, Int.sign_eq_neg_one_iff_neg]
    rw [normalize_of_neg negative, normalize_of_neg otherNegative]
    exact round_congr _ (by omega) low (by omega) otherLow counts
  · obtain rfl : otherMantissa = 0 := Int.sign_eq_zero_iff_zero.mp signs.symm
    rfl
  · have otherPositive : 0 < otherMantissa := by
      rwa [← Int.sign_eq_one_iff_pos, ← signs, Int.sign_eq_one_iff_pos]
    rw [normalize_of_pos positive, normalize_of_pos otherPositive]
    exact round_congr _ (by omega) low (by omega) otherLow counts

end CanCodec.Double
