import CanCodec.Proofs.Double.Rational

/-! # Arithmetic on levels

The level of a sum, a difference, a product or a quotient of finite doubles is what their
levels give, rounded. -/

namespace CanCodec.Double

open Float.Model Float.Model.UnpackedFloat

/-! ## Signs -/

def unit (sign : Sign) : ℤ := sign.apply 1

theorem apply_eq (sign : Sign) (magnitude : ℤ) : sign.apply magnitude = unit sign * magnitude := by
  cases sign <;> simp [unit, Sign.apply]

theorem unit_mul (first second : Sign) : unit (first * second) = unit first * unit second := by
  cases first <;> cases second <;> rfl

theorem unit_div (first second : Sign) : unit (first / second) = unit first * unit second := by
  cases first <;> cases second <;> rfl

theorem unit_mul_self (sign : Sign) : unit sign * unit sign = 1 := by
  cases sign <;> rfl

theorem nearestLevel_signed (sign : Sign) {counts : ℚ} (nonneg : 0 ≤ counts) :
    nearestLevel (unit sign * counts) = sign.apply (min (significantOf counts) top : ℕ) := by
  cases sign with
  | negative =>
      change nearestLevel ((-1 : ℤ) * counts) = -(_ : ℤ)
      rw [Int.cast_neg, Int.cast_one, neg_one_mul, nearestLevel_neg, nearestLevel_of_nonneg nonneg]
  | positive =>
      change nearestLevel ((1 : ℤ) * counts) = _
      rw [Int.cast_one, one_mul, nearestLevel_of_nonneg nonneg]
      rfl

/-! ## Rounded results -/

def HasLevel (packed : UnpackedFloat) (counts : ℤ) : Prop :=
  levelOf (Float.Model.pack packed).unpack = counts ∧
    (Float.Model.pack packed).unpack.isNaN = false

theorem hasLevel_zero (sign : Sign) : HasLevel (.zero sign) 0 := by
  rw [HasLevel, unpack_pack_zero]
  exact ⟨rfl, rfl⟩

theorem hasLevel_roundWithAccuracy (sign : Sign) {mantissa : ℕ} {exponent : ℤ}
    {accuracy : Accuracy} {value : ℚ}
    (stands : StandsFor (.ofMantissaAndAccuracy mantissa accuracy) value)
    (full : exponent ≤ -1074 ∨ 2 ^ 52 ≤ mantissa) :
    HasLevel (roundWithAccuracy .binary64 sign mantissa exponent accuracy)
      (nearestLevel (unit sign * (value * 2 ^ (exponent + 1074)))) := by
  have nonneg : 0 ≤ value * 2 ^ (exponent + 1074) :=
    mul_nonneg ((Nat.cast_nonneg _).trans stands.least) (by positivity)
  rw [nearestLevel_signed sign nonneg, HasLevel]
  rcases roundWithAccuracy_spec sign stands full with
    ⟨zero, isZero⟩ | ⟨result, power, nonzero, isRound, canonical, counted⟩
  · rw [isZero, unpack_pack_zero, zero, Nat.zero_min]
    cases sign <;> exact ⟨rfl, rfl⟩
  · rw [isRound, unpack_pack_finite sign nonzero canonical, ← counted]
    split_ifs with fits
    · rw [Nat.min_eq_left (Nat.le_of_lt (count_lt_top canonical fits))]
      exact ⟨rfl, rfl⟩
    · rw [Nat.min_eq_right (top_le_count canonical (by omega))]
      exact ⟨rfl, rfl⟩

theorem signedCount_least (counts : ℤ) : signedCount counts (-1074) = counts :=
  Int.mul_one counts

theorem hasLevel_normalize (counts : ℤ) (zero : Sign) :
    HasLevel (normalize .binary64 counts (-1074) zero) (rounded counts) := by
  have normalized := @levelOf_pack_normalize counts (-1074) le_rfl zero
  rwa [signedCount_least] at normalized

inductive IsRounding (sign : Sign) (counts : ℚ) : UnpackedFloat → Prop
  | intro {mantissa : ℕ} {exponent : ℤ} {accuracy : Accuracy} {value : ℚ}
      (stands : StandsFor (.ofMantissaAndAccuracy mantissa accuracy) value)
      (full : exponent ≤ -1074 ∨ 2 ^ 52 ≤ mantissa)
      (equal : value * 2 ^ (exponent + 1074) = counts) :
      IsRounding sign counts (roundWithAccuracy .binary64 sign mantissa exponent accuracy)

namespace IsRounding

variable {sign : Sign} {counts : ℚ} {result : UnpackedFloat}

theorem hasLevel (rounding : IsRounding sign counts result) :
    HasLevel result (nearestLevel (unit sign * counts)) := by
  rcases rounding with ⟨stands, full, rfl⟩
  exact hasLevel_roundWithAccuracy sign stands full

theorem zero_sign (rounding : IsRounding sign counts result) {other : Sign}
    (zero : (Float.Model.pack result).unpack = .zero other) : other = sign := by
  rcases rounding with ⟨stands, full, _⟩
  rcases roundWithAccuracy_spec sign stands full with
    ⟨_, isZero⟩ | ⟨result, power, nonzero, isRound, canonical, _⟩
  · rw [isZero, unpack_pack_zero] at zero
    exact (UnpackedFloat.zero.inj zero).symm
  · rw [isRound, unpack_pack_finite sign nonzero canonical] at zero
    split_ifs at zero

end IsRounding

/-! ## Finite doubles -/

theorem level_finite {sign : Sign} {mantissa : ℕ} {exponent : ℤ} {positive : 0 < mantissa}
    {double : Float} (low : -1074 ≤ exponent)
    (unpacked : double.toModel.unpack = .finite sign mantissa exponent positive) :
    (level double : ℚ) = unit sign * (mantissa * 2 ^ (exponent + 1074)) := by
  rw [level, unpacked, levelOf, apply_eq, ← cast_count mantissa low]
  push_cast
  rfl

theorem finite_cases {double : Float} (finite : double.isFinite = true) :
    (∃ sign, double.toModel.unpack = .zero sign) ∨
      ∃ sign mantissa exponent, ∃ positive : 0 < mantissa,
        double.toModel.unpack = .finite sign mantissa exponent positive ∧
          Canonical mantissa exponent := by
  have isUnpacked := unpack_unpacked double.toModel
  change double.toModel.unpack.isFinite = true at finite
  cases equal : double.toModel.unpack with
  | notANumber | infinity =>
      rw [equal] at finite
      cases finite
  | zero sign => exact .inl ⟨sign, rfl⟩
  | finite sign mantissa exponent positive =>
      rw [equal] at isUnpacked
      exact .inr ⟨sign, mantissa, exponent, positive, rfl, isUnpacked.1⟩

theorem level_zero {double : Float} {sign : Sign} (unpacked : double.toModel.unpack = .zero sign) :
    level double = 0 := by
  rw [level, unpacked]
  rfl

theorem hasLevel_unpack {sign : Sign} {mantissa : ℕ} {exponent : ℤ} {positive : 0 < mantissa}
    {double : Float} (unpacked : double.toModel.unpack = .finite sign mantissa exponent positive) :
    HasLevel (.finite sign mantissa exponent positive) (level double) := by
  have isUnpacked := unpack_unpacked double.toModel
  rw [unpacked] at isUnpacked
  rw [HasLevel, unpack_pack_finite sign positive isUnpacked.1, if_pos isUnpacked.2, level, unpacked]
  exact ⟨rfl, rfl⟩

section

variable {first second : Float} (firstFinite : first.isFinite = true)
  (secondFinite : second.isFinite = true)

include firstFinite secondFinite

/-! ## Sums and differences -/

theorem level_add : level (first + second) = rounded (level first + level second) ∧
    (first + second).isNaN = false := by
  change HasLevel (UnpackedFloat.add .binary64 first.toModel.unpack second.toModel.unpack) _
  rcases finite_cases secondFinite with ⟨sign, isZero⟩ |
    ⟨sign, mantissa, exponent, positive, unpacked, canonical⟩
  · rw [level_zero isZero, add_zero, rounded_level, isZero]
    rcases finite_cases firstFinite with ⟨firstSign, isFirst⟩ | ⟨_, _, _, _, isFirst, _⟩
    · rw [isFirst, UnpackedFloat.add, level_zero isFirst]
      split <;> exact hasLevel_zero _
    · rw [isFirst]
      exact hasLevel_unpack isFirst
  · have counts : signedCount (level first + level second) (-1074) =
        levelOf first.toModel.unpack + sign.apply (count mantissa exponent) := by
      rw [signedCount_least, level, level, unpacked]
      rfl
    rw [unpacked, add_eq_normalize (unpack_unpacked first.toModel) firstFinite positive canonical
      le_rfl counts]
    exact hasLevel_normalize ..

theorem level_sub : level (first - second) = rounded (level first - level second) ∧
    (first - second).isNaN = false := by
  change HasLevel (UnpackedFloat.sub .binary64 first.toModel.unpack second.toModel.unpack) _
  rcases finite_cases secondFinite with ⟨sign, isZero⟩ |
    ⟨sign, mantissa, exponent, positive, unpacked, canonical⟩
  · rw [level_zero isZero, sub_zero, rounded_level, isZero]
    rcases finite_cases firstFinite with ⟨firstSign, isFirst⟩ | ⟨_, _, _, _, isFirst, _⟩
    · rw [isFirst, UnpackedFloat.sub, level_zero isFirst]
      split <;> exact hasLevel_zero _
    · rw [isFirst]
      exact hasLevel_unpack isFirst
  · have counts : signedCount (level first - level second) (-1074) =
        levelOf first.toModel.unpack - sign.apply (count mantissa exponent) := by
      rw [signedCount_least, level, level, unpacked]
      rfl
    rw [unpacked, sub_eq_normalize (unpack_unpacked first.toModel) firstFinite positive canonical
      le_rfl counts]
    exact hasLevel_normalize ..

/-! ## Products -/

omit firstFinite secondFinite in
theorem isRounding_mul (sign otherSign : Sign) {mantissa otherMantissa : ℕ}
    {exponent otherExponent : ℤ} (positive : 0 < mantissa) (otherPositive : 0 < otherMantissa)
    (full : exponent + otherExponent ≤ -1074 ∨ 2 ^ 52 ≤ mantissa * otherMantissa) :
    IsRounding (sign * otherSign)
      ((mantissa * otherMantissa : ℕ) * 2 ^ (exponent + otherExponent + 1074))
      (UnpackedFloat.mul .binary64 (.finite sign mantissa exponent positive)
        (.finite otherSign otherMantissa otherExponent otherPositive)) :=
  .intro (.exact _) full rfl

theorem level_mul :
    level (first * second) = nearestLevel (level first * level second / 2 ^ oneBits) ∧
      (first * second).isNaN = false := by
  change HasLevel (UnpackedFloat.mul .binary64 first.toModel.unpack second.toModel.unpack) _
  rcases finite_cases firstFinite with ⟨sign, isZero⟩ |
    ⟨sign, mantissa, exponent, positive, unpacked, canonical⟩
  · rw [level_zero isZero, Int.cast_zero, zero_mul, zero_div, nearestLevel_zero, isZero]
    rcases finite_cases secondFinite with ⟨otherSign, isOther⟩ | ⟨otherSign, _, _, _, isOther, _⟩ <;>
      rw [isOther] <;> exact hasLevel_zero _
  rcases finite_cases secondFinite with ⟨otherSign, isZero⟩ |
    ⟨otherSign, otherMantissa, otherExponent, otherPositive, otherUnpacked, otherCanonical⟩
  · rw [level_zero isZero, Int.cast_zero, mul_zero, zero_div, nearestLevel_zero, isZero, unpacked]
    exact hasLevel_zero _
  have counts : (level first * level second / 2 ^ oneBits : ℚ) =
      unit (sign * otherSign) * ((mantissa * otherMantissa : ℕ) *
        2 ^ (exponent + otherExponent + 1074)) := by
    have power : (2 : ℚ) ^ (exponent + 1074) * 2 ^ (otherExponent + 1074) =
        2 ^ (exponent + otherExponent + 1074) * 2 ^ oneBits := by
      rw [← zpow_natCast, ← zpow_add₀ two_ne_zero, ← zpow_add₀ two_ne_zero, oneBits]
      congr 1
      push_cast
      ring
    rw [level_finite canonical.low unpacked, level_finite otherCanonical.low otherUnpacked,
      unit_mul, div_eq_iff (by positivity)]
    push_cast
    linear_combination (unit sign * unit otherSign * mantissa * otherMantissa : ℚ) * power
  have full : exponent + otherExponent ≤ -1074 ∨ 2 ^ 52 ≤ mantissa * otherMantissa := by
    rcases canonical.full with full | least
    · exact .inr (full.trans (Nat.le_mul_of_pos_right _ otherPositive))
    rcases otherCanonical.full with full | otherLeast
    · exact .inr (full.trans (Nat.le_mul_of_pos_left _ positive))
    · exact .inl (by omega)
  rw [counts, unpacked, otherUnpacked]
  exact (isRounding_mul sign otherSign positive otherPositive full).hasLevel

/-! ## Quotients -/

omit firstFinite secondFinite in
/-- A dividend that has been shifted far enough leaves a quotient of 53 bits. -/
theorem le_shifted_div {mantissa divisor shift : ℕ} (nonzero : mantissa ≠ 0)
    (positive : 0 < divisor) (far : 53 + divisor.log2 ≤ mantissa.log2 + shift) :
    2 ^ 52 ≤ mantissa * 2 ^ shift / divisor := by
  rw [Nat.le_div_iff_mul_le positive]
  calc
    2 ^ 52 * divisor ≤ 2 ^ 52 * 2 ^ (divisor.log2 + 1) :=
      Nat.mul_le_mul_left _ Nat.lt_log2_self.le
    _ = 2 ^ (53 + divisor.log2) := by ring
    _ ≤ 2 ^ (mantissa.log2 + shift) := Nat.pow_le_pow_right two_pos far
    _ = 2 ^ mantissa.log2 * 2 ^ shift := Nat.pow_add ..
    _ ≤ mantissa * 2 ^ shift := Nat.mul_le_mul_right _ (Nat.log2_self_le nonzero)

omit firstFinite secondFinite in
theorem isRounding_div (sign otherSign : Sign) {mantissa otherMantissa : ℕ}
    {exponent otherExponent : ℤ} (positive : 0 < mantissa) (otherPositive : 0 < otherMantissa) :
    IsRounding (sign / otherSign)
      ((mantissa : ℚ) / otherMantissa * 2 ^ (exponent - otherExponent + 1074))
      (UnpackedFloat.div .binary64 (.finite sign mantissa exponent positive)
        (.finite otherSign otherMantissa otherExponent otherPositive)) := by
  obtain ⟨target, isTarget⟩ : ∃ target, min (exponent - otherExponent)
      (Format.binary64.targetExponent
        (totalExponent mantissa exponent - totalExponent otherMantissa otherExponent)) = target :=
    ⟨_, rfl⟩
  obtain ⟨shift, isShift⟩ : ∃ shift, (exponent - otherExponent - target).toNat = shift := ⟨_, rfl⟩
  have quotient : UnpackedFloat.div .binary64 (.finite sign mantissa exponent positive)
      (.finite otherSign otherMantissa otherExponent otherPositive) =
        roundWithAccuracy .binary64 (sign / otherSign) (mantissa * 2 ^ shift / otherMantissa) target
          (accuracyOfFraction (mantissa * 2 ^ shift % otherMantissa) otherMantissa) := by
    rw [← isShift, ← isTarget, ← Nat.shiftLeft_eq]
    rfl
  have lowered : exponent - otherExponent + 1074 = shift + (target + 1074) := by omega
  have full : target ≤ -1074 ∨ 2 ^ 52 ≤ mantissa * 2 ^ shift / otherMantissa := by
    change min _ (max ((mantissa.log2 : ℤ) + 1 + exponent -
      ((otherMantissa.log2 : ℤ) + 1 + otherExponent) - 53) (-1074)) = target at isTarget
    by_cases low : target ≤ -1074
    · exact .inl low
    · exact .inr (le_shifted_div positive.ne' otherPositive (by omega))
  rw [quotient]
  refine .intro (.fraction _ otherPositive) full ?_
  have power : (2 : ℚ) ^ (exponent - otherExponent + 1074) = 2 ^ shift * 2 ^ (target + 1074) := by
    rw [lowered, zpow_add₀ two_ne_zero, zpow_natCast]
  rw [power]
  push_cast
  ring

theorem level_div (nonzero : level second ≠ 0) :
    level (first / second) = nearestLevel (level first * 2 ^ oneBits / level second) ∧
      (first / second).isNaN = false := by
  change HasLevel (UnpackedFloat.div .binary64 first.toModel.unpack second.toModel.unpack) _
  rcases finite_cases secondFinite with ⟨otherSign, isZero⟩ |
    ⟨otherSign, otherMantissa, otherExponent, otherPositive, otherUnpacked, otherCanonical⟩
  · exact absurd (level_zero isZero) nonzero
  rcases finite_cases firstFinite with ⟨sign, isZero⟩ |
    ⟨sign, mantissa, exponent, positive, unpacked, canonical⟩
  · rw [level_zero isZero, Int.cast_zero, zero_mul, zero_div, nearestLevel_zero, isZero,
      otherUnpacked]
    exact hasLevel_zero _
  have counts : (level first * 2 ^ oneBits / level second : ℚ) =
      unit (sign / otherSign) *
        ((mantissa : ℚ) / otherMantissa * 2 ^ (exponent - otherExponent + 1074)) := by
    have power : (2 : ℚ) ^ (exponent + 1074) * 2 ^ oneBits =
        2 ^ (exponent - otherExponent + 1074) * 2 ^ (otherExponent + 1074) := by
      rw [← zpow_natCast, ← zpow_add₀ two_ne_zero, ← zpow_add₀ two_ne_zero, oneBits]
      congr 1
      push_cast
      ring
    have square : (unit otherSign * unit otherSign : ℚ) = 1 := by
      exact_mod_cast unit_mul_self otherSign
    have cancel : (otherMantissa : ℚ) / otherMantissa = 1 := div_self (by positivity)
    rw [div_eq_iff (by exact_mod_cast nonzero), level_finite canonical.low unpacked,
      level_finite otherCanonical.low otherUnpacked, unit_div]
    push_cast
    calc
      (unit sign : ℚ) * (mantissa * 2 ^ (exponent + 1074)) * 2 ^ oneBits
        = unit sign * mantissa * (2 ^ (exponent + 1074) * 2 ^ oneBits) := by ring
      _ = unit sign * mantissa *
          (2 ^ (exponent - otherExponent + 1074) * 2 ^ (otherExponent + 1074)) *
          (unit otherSign * unit otherSign) * (otherMantissa / otherMantissa) := by
        rw [power, square, cancel, mul_one, mul_one]
      _ = _ := by ring
  rw [counts, unpacked, otherUnpacked]
  exact (isRounding_div sign otherSign positive otherPositive).hasLevel

end

end CanCodec.Double
