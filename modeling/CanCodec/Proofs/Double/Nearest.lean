import CanCodec.Proofs.Double.Bits
import CanCodec.Proofs.Double.Order
import CanCodec.Proofs.Double.Special

/-! # The nearest double

What the rounding steps make of a number is the double nearest to it, and of two equally near
ones the one with an even last bit. There is one such double for every number. -/

namespace CanCodec.Double

open Float.Model Float.Model.UnpackedFloat

/-- The number that a double is. An infinity stands at the power of two next to the finite
doubles. -/
def position (double : Float) : ℚ := level double / 2 ^ oneBits

/-- A number that is not negative is rounded to a double: none is nearer, and the last bit is
even if another one is as near. Zero is the positive one. -/
structure RoundsTo (value : ℚ) (double : Float) : Prop where
  number : double.isNaN = false
  nearest : ∀ other : Float, other.isNaN = false →
    |value - position double| ≤ |value - position other|
  even : ∀ other : Float, other.isNaN = false → position other ≠ position double →
    |value - position double| = |value - position other| → double.toBits.toNat % 2 = 0
  positive : double.toModel.unpack ≠ .zero .negative

/-! ## The nearest whole number -/

section

variable {value : ℚ} (nonneg : 0 ≤ value)

include nonneg

theorem nearestEven_error : |value - nearestEven value| ≤ 1 / 2 ∧
    (|value - nearestEven value| = 1 / 2 → nearestEven value % 2 = 0) := by
  have least := Nat.floor_le nonneg
  have below := Nat.lt_floor_add_one value
  unfold nearestEven
  split_ifs with low high
  · rw [abs_of_nonneg (by linarith)]
    exact ⟨by linarith, fun half => by linarith⟩
  · push_cast
    rw [abs_of_neg (by linarith)]
    exact ⟨by linarith, fun half => by linarith⟩
  · have half : value = ⌊value⌋₊ + 1 / 2 := by linarith
    refine ⟨?_, fun _ => by omega⟩
    rcases Nat.mod_two_eq_zero_or_one ⌊value⌋₊ with even | odd
    · rw [even, abs_of_nonneg (by push_cast; linarith)]
      push_cast
      linarith
    · rw [odd, abs_of_neg (by push_cast; linarith)]
      push_cast
      linarith

theorem nearestEven_nearest (whole : ℤ) :
    |value - nearestEven value| ≤ |value - whole| ∧
      (whole ≠ nearestEven value → |value - nearestEven value| = |value - whole| →
        nearestEven value % 2 = 0 ∧ whole % 2 = 1 ∧ |value - whole| = 1 / 2) := by
  by_cases same : whole = nearestEven value
  · rw [same, Int.cast_natCast]
    exact ⟨le_rfl, fun different => absurd rfl different⟩
  have error := nearestEven_error nonneg
  have apart : (1 : ℚ) ≤ |(whole : ℚ) - nearestEven value| := by
    have distance : 1 ≤ |whole - nearestEven value| := Int.one_le_abs (sub_ne_zero.mpr same)
    exact_mod_cast distance
  have triangle := abs_sub_le (whole : ℚ) value (nearestEven value)
  rw [abs_sub_comm (whole : ℚ) value] at triangle
  refine ⟨by linarith [error.1], fun _ tie => ?_⟩
  have half : |value - nearestEven value| = 1 / 2 := by linarith [error.1]
  have even := error.2 half
  have next : |whole - nearestEven value| ≤ 1 := by
    have distance : |(whole : ℚ) - nearestEven value| ≤ 1 := by linarith [error.1]
    exact_mod_cast distance
  rw [abs_le] at next
  exact ⟨even, by omega, tie ▸ half⟩

end

/-! ## Levels -/

theorem two_pow_dvd_level {double : Float} {dropped : ℕ}
    (large : 2 ^ (52 + dropped) ≤ (level double).natAbs) : (2 ^ dropped : ℤ) ∣ level double := by
  have positive : 0 < 2 ^ (52 + dropped) := Nat.two_pow_pos _
  have isUnpacked := unpack_unpacked double.toModel
  have divides {sign : Sign} {natural bits : ℕ} (fits : dropped ≤ bits) :
      (2 ^ dropped : ℤ) ∣ sign.apply (natural * 2 ^ bits : ℕ) := by
    rw [apply_eq]
    push_cast
    exact ((pow_dvd_pow 2 fits).mul_left _).mul_left _
  rw [level] at large ⊢
  cases unpacked : double.toModel.unpack with
  | notANumber | zero =>
      rw [unpacked] at large
      change _ ≤ 0 at large
      omega
  | infinity sign =>
      rw [unpacked, levelOf, natAbs_apply, top, Nat.pow_le_pow_iff_right (by decide)] at large
      have whole := @divides sign 1 topBits (by omega)
      rwa [Nat.one_mul] at whole
  | finite sign mantissa exponent nonzero =>
      rw [unpacked] at large isUnpacked
      rw [levelOf, natAbs_apply] at large
      have below : count mantissa exponent < 2 ^ (53 + (exponent + 1074).toNat) := by
        rw [count, Nat.pow_add]
        exact Nat.mul_lt_mul_of_pos_right isUnpacked.1.narrow (Nat.two_pow_pos _)
      have powers := (Nat.pow_lt_pow_iff_right (by decide)).mp (large.trans_lt below)
      exact divides (by omega)

section

variable {counts : ℚ} (nonneg : 0 ≤ counts)

include nonneg

/-- No multiple of the dropped power of two is nearer than the number of 53 bits. One that is as
near is the next multiple, and odd. -/
theorem significantOf_nearest_multiple (whole : ℤ) :
    |counts - significantOf counts| ≤ |counts - whole * 2 ^ excessOf counts| ∧
      (whole ≠ nearestEven (counts / 2 ^ excessOf counts) →
        |counts - significantOf counts| = |counts - whole * 2 ^ excessOf counts| →
        nearestEven (counts / 2 ^ excessOf counts) % 2 = 0 ∧ whole % 2 = 1 ∧
          0 ≤ whole ∧ whole < 2 ^ 53) := by
  obtain ⟨dropped, isDropped⟩ : ∃ dropped, excessOf counts = dropped := ⟨_, rfl⟩
  have power : (0 : ℚ) < 2 ^ dropped := by positivity
  have quotientNonneg : 0 ≤ counts / 2 ^ dropped := by positivity
  have distance (whole : ℤ) :
      |counts - whole * 2 ^ dropped| = |counts / 2 ^ dropped - whole| * 2 ^ dropped := by
    rw [← abs_of_pos power, ← abs_mul, abs_of_pos power, sub_mul, div_mul_cancel₀ _ power.ne']
  have significant : |counts - significantOf counts| =
      |counts / 2 ^ dropped - nearestEven (counts / 2 ^ dropped)| * 2 ^ dropped := by
    rw [significantOf, isDropped, ← Int.cast_natCast (nearestEven _), ← distance]
    push_cast
    rfl
  have nearest := nearestEven_nearest quotientNonneg whole
  rw [significant, isDropped, distance]
  refine ⟨mul_le_mul_of_nonneg_right nearest.1 power.le, fun different tie => ?_⟩
  rcases nearest.2 different (mul_right_cancel₀ power.ne' tie) with ⟨even, odd, half⟩
  have below : counts / 2 ^ dropped < 2 ^ 53 := by
    rw [div_lt_iff₀ power, ← pow_add, ← isDropped]
    exact lt_two_pow_excessOf counts
  rw [abs_eq (by norm_num)] at half
  have least : -1 < whole := by
    have above : (-1 : ℚ) < whole := by rcases half with half | half <;> linarith
    exact_mod_cast above
  have greatest : whole < 2 ^ 53 + 1 := by
    have next : (whole : ℚ) < 2 ^ 53 + 1 := by rcases half with half | half <;> linarith
    exact_mod_cast next
  exact ⟨even, odd, by omega, by omega⟩

theorem significantOf_nearer {lower : ℚ} (some : 0 < excessOf counts)
    (below : lower < 2 ^ (52 + excessOf counts)) :
    |counts - significantOf counts| < |counts - lower| := by
  have above := two_pow_excessOf_le some
  have least := (significantOf_nearest_multiple nonneg (2 ^ 52)).1
  calc
    |counts - significantOf counts| ≤ |counts - (2 ^ 52 : ℤ) * 2 ^ excessOf counts| := least
    _ = |counts - 2 ^ (52 + excessOf counts)| := by
      rw [pow_add]
      push_cast
      rfl
    _ = counts - 2 ^ (52 + excessOf counts) := abs_of_nonneg (by linarith)
    _ < counts - lower := by linarith
    _ ≤ |counts - lower| := le_abs_self _

/-- No level is nearer than the number of 53 bits. One that is as near is the next multiple of
the same power of two. -/
theorem significantOf_nearest (double : Float) :
    |counts - significantOf counts| ≤ |counts - level double| ∧
      (level double ≠ significantOf counts →
        |counts - significantOf counts| = |counts - level double| →
        nearestEven (counts / 2 ^ excessOf counts) % 2 = 0 ∧
          ∃ whole : ℕ, level double = (whole * 2 ^ excessOf counts : ℕ) ∧ whole % 2 = 1 ∧
            whole < 2 ^ 53 ∧ (0 < excessOf counts → 2 ^ 52 ≤ whole)) := by
  by_cases low : 0 < excessOf counts ∧ level double < 2 ^ (52 + excessOf counts)
  · have nearer := significantOf_nearer nonneg low.1
      (show (level double : ℚ) < 2 ^ (52 + excessOf counts) by exact_mod_cast low.2)
    exact ⟨nearer.le, fun _ tie => absurd tie nearer.ne⟩
  have large (some : 0 < excessOf counts) : 2 ^ (52 + excessOf counts) ≤ level double :=
    not_lt.mp fun less => low ⟨some, less⟩
  -- Any other level is a multiple of the power of two that the rounding drops.
  have divides : (2 ^ excessOf counts : ℤ) ∣ level double := by
    rcases Nat.eq_zero_or_pos (excessOf counts) with none | some
    · rw [none]
      exact one_dvd _
    · refine two_pow_dvd_level ?_
      zify
      exact (large some).trans (le_abs_self _)
  obtain ⟨whole, isWhole⟩ := exists_eq_mul_left_of_dvd divides
  have nearest := significantOf_nearest_multiple nonneg whole
  rw [isWhole]
  push_cast
  refine ⟨nearest.1, fun different tie => ?_⟩
  have differs : whole ≠ nearestEven (counts / 2 ^ excessOf counts) := by
    rintro rfl
    apply different
    rw [significantOf]
    push_cast
    rfl
  rcases nearest.2 differs tie with ⟨even, odd, least, narrow⟩
  rcases Int.eq_ofNat_of_zero_le least with ⟨natural, rfl⟩
  refine ⟨even, natural, rfl, by omega, by omega, fun some => ?_⟩
  have filled := large some
  rw [isWhole, pow_add] at filled
  exact_mod_cast le_of_mul_le_mul_right filled (by positivity)

end

/-! ## Rounding steps and nearest doubles -/

structure IsRounded (value : ℚ) (double : Float) : Prop where
  number : double.isNaN = false
  counted : level double = nearestLevel (value * 2 ^ oneBits)
  positive : double.toModel.unpack ≠ .zero .negative

theorem IsRounding.isRounded {value counts : ℚ} {result : UnpackedFloat}
    (rounding : IsRounding .positive counts result) (equal : counts = value * 2 ^ oneBits) :
    IsRounded value (.ofModel (Float.Model.pack result)) where
  number := rounding.hasLevel.2
  counted := by
    have counted := rounding.hasLevel.1
    rwa [show unit .positive = 1 from rfl, Int.cast_one, one_mul, equal] at counted
  positive zero := by cases rounding.zero_sign zero

theorem isRounded_zero {value : ℚ} (nonneg : 0 ≤ value) (small : value * 2 ^ oneBits < 1 / 2) :
    IsRounded value (.ofModel (Float.Model.pack (.zero .positive))) where
  number := rfl
  counted := by
    have floor : ⌊value * 2 ^ oneBits⌋₊ = 0 := Nat.floor_eq_zero.mpr (by linarith)
    have nearest : significantOf (value * 2 ^ oneBits) = 0 := by
      rw [significantOf, excessOf_eq_zero (by linarith), pow_zero, div_one, nearestEven, floor,
        if_pos (by simpa using small), Nat.zero_mul]
    rw [nearestLevel_of_nonneg (by positivity), nearest, Nat.zero_min]
    rfl
  positive zero := by cases zero

theorem significantOf_top : significantOf top = top := by
  have kept := @significant_mul_two_pow 1 (by decide) topBits
  rw [significantOf_natCast, top]
  rwa [Nat.one_mul] at kept

theorem isRounded_infinity {value : ℚ} (large : top ≤ value * 2 ^ oneBits) :
    IsRounded value (.ofModel (Float.Model.pack (.infinity .positive))) where
  number := rfl
  counted := by
    have least := significantOf_mono large
    rw [significantOf_top] at least
    rw [nearestLevel_of_nonneg ((Nat.cast_nonneg _).trans large), Nat.min_eq_right least]
    exact (level_infinity (unpack_pack_infinity .positive)).trans (one_mul _)
  positive zero := by cases zero

theorem exists_isRounded {value : ℚ} (nonneg : 0 ≤ value) : ∃ double, IsRounded value double := by
  rcases nonneg.eq_or_lt with rfl | positive
  · exact ⟨_, isRounded_zero le_rfl (by norm_num)⟩
  · have numerator : 0 < value.num.toNat := by
      have sign := Rat.num_pos.mpr positive
      omega
    refine ⟨_, (@isRounding_div .positive .positive _ _ 0 0 numerator value.den_pos).isRounded ?_⟩
    have whole : (value.num.toNat : ℚ) = value.num := by
      exact_mod_cast Int.toNat_of_nonneg (Rat.num_nonneg.mpr nonneg)
    rw [whole, Rat.num_div_den, oneBits]
    norm_num

theorem top_nearest {counts : ℚ} (large : top < significantOf counts) (double : Float) :
    |counts - top| ≤ |counts - level double| ∧
      (level double ≠ top → |counts - top| ≠ |counts - level double|) := by
  have above : (top : ℚ) ≤ counts := by
    by_contra below
    have ordered := significantOf_mono (not_le.mp below).le
    rw [significantOf_top] at ordered
    omega
  have bound : level double ≤ top := by
    have magnitude := natAbs_level_le_top double
    omega
  have boundCast : (level double : ℚ) ≤ top := by exact_mod_cast bound
  rw [abs_of_nonneg (by linarith), abs_of_nonneg (by linarith)]
  refine ⟨by linarith, fun different tie => different ?_⟩
  have same : (level double : ℚ) = top := by linarith
  exact_mod_cast same

theorem toBits_of_level {double : Float} {whole dropped : ℕ} (number : double.isNaN = false)
    (counted : level double = (whole * 2 ^ dropped : ℕ)) (narrow : whole < 2 ^ 53)
    (filled : 0 < dropped → 2 ^ 52 ≤ whole) : double.toBits.toNat % 2 = whole % 2 := by
  have canonical : Canonical whole ((dropped : ℤ) - 1074) := ⟨narrow, by omega, by omega⟩
  have magnitude : (level double).natAbs = count whole ((dropped : ℤ) - 1074) := by
    rw [counted, Int.natAbs_natCast, count,
      show ((dropped : ℤ) - 1074 + 1074).toNat = dropped by omega]
  have isUnpacked := unpack_unpacked double.toModel
  rw [level] at magnitude
  change double.toModel.unpack.isNaN = false at number
  cases unpacked : double.toModel.unpack with
  | notANumber =>
      rw [unpacked] at number
      cases number
  | zero sign =>
      rw [unpacked] at magnitude
      have none : whole = 0 := by
        by_contra some
        exact (count_pos (Nat.pos_of_ne_zero some) _).ne magnitude
      rw [none, toBits_zero unpacked]
  | infinity sign =>
      have leading : Canonical (2 ^ 52) 972 := ⟨by decide, by decide, .inl le_rfl⟩
      have isTop : count (2 ^ 52) 972 = top := by
        rw [count, ← Nat.pow_add, top]
        exact congrArg (2 ^ ·) (by decide)
      rw [unpacked, levelOf, natAbs_apply, ← isTop] at magnitude
      rw [← (leading.eq_of_count_eq canonical magnitude).1, toBits_infinity unpacked]
      decide
  | finite sign mantissa exponent positive =>
      rw [unpacked] at magnitude isUnpacked
      rw [levelOf, natAbs_apply] at magnitude
      rw [toBits_finite unpacked, (isUnpacked.1.eq_of_count_eq canonical magnitude).1]

theorem toBits_even_of_level {double : Float} {whole dropped : ℕ} (number : double.isNaN = false)
    (counted : level double = (whole * 2 ^ dropped : ℕ)) (even : whole % 2 = 0)
    (narrow : whole ≤ 2 ^ 53) (filled : 0 < dropped → 2 ^ 52 ≤ whole) :
    double.toBits.toNat % 2 = 0 := by
  rcases Nat.lt_or_eq_of_le narrow with narrow | rfl
  · rw [toBits_of_level number counted narrow filled, even]
  · have carried : (2 ^ 53 * 2 ^ dropped : ℕ) = 2 ^ 52 * 2 ^ (dropped + 1) := by ring
    rw [carried] at counted
    rw [toBits_of_level number counted (by decide) fun _ => le_rfl]
    decide

theorem distance_position (value : ℚ) (double : Float) :
    |value - position double| = |value * 2 ^ oneBits - level double| / 2 ^ oneBits := by
  have power : (0 : ℚ) < 2 ^ oneBits := by positivity
  rw [position, eq_div_iff power.ne', ← abs_of_pos power, ← abs_mul, abs_of_pos power, sub_mul,
    div_mul_cancel₀ _ power.ne']

theorem position_inj {first second : Float} :
    position first = position second ↔ level first = level second := by
  rw [position, position, div_left_inj' (by positivity), Int.cast_inj]

theorem isRounded_position {double : Float} (number : double.isNaN = false)
    (positive : double.toModel.unpack ≠ .zero .negative) : IsRounded (position double) double where
  number := number
  counted := by
    rw [position, div_mul_cancel₀ _ (by positivity), nearestLevel_intCast, rounded_level]
  positive := positive

theorem position_finite {sign : Sign} {mantissa : ℕ} {exponent : ℤ} {positive : 0 < mantissa}
    {double : Float}
    (unpacked : double.toModel.unpack = .finite sign mantissa exponent positive) :
    position double = unit sign * (mantissa * 2 ^ exponent) := by
  have isUnpacked := unpack_unpacked double.toModel
  rw [unpacked] at isUnpacked
  have power : (2 : ℚ) ^ (exponent + 1074) = 2 ^ exponent * 2 ^ oneBits := by
    rw [← zpow_natCast 2 oneBits, ← zpow_add₀ two_ne_zero]
    rfl
  rw [position, level_finite isUnpacked.1.low unpacked, power, ← mul_assoc, ← mul_assoc,
    mul_div_cancel_right₀ _ (by positivity), mul_assoc]

theorem IsRounded.unique {value : ℚ} {first second : Float} (isFirst : IsRounded value first)
    (isSecond : IsRounded value second) : first = second := by
  have same : level first = level second := isFirst.counted.trans isSecond.counted.symm
  apply eq_of_unpack_eq
  by_cases zero : level first = 0
  · rcases exists_zero_of_level isFirst.number zero with ⟨sign, isZero⟩
    rcases exists_zero_of_level isSecond.number (same ▸ zero) with ⟨other, isOther⟩
    have firstPositive := isFirst.positive
    have secondPositive := isSecond.positive
    rw [isZero] at firstPositive ⊢
    rw [isOther] at secondPositive ⊢
    cases sign <;> cases other <;> first | rfl | contradiction
  · exact eq_of_levelOf_eq (unpack_unpacked _) (unpack_unpacked _) zero same

section

variable {value : ℚ} (nonneg : 0 ≤ value)

include nonneg

theorem IsRounded.level_eq {double : Float} (rounded : IsRounded value double) :
    level double = (min (significantOf (value * 2 ^ oneBits)) top : ℕ) := by
  rw [rounded.counted, nearestLevel_of_nonneg (by positivity)]

/-- The rounding steps give the nearest double. -/
theorem IsRounded.roundsTo {double : Float} (rounded : IsRounded value double) :
    RoundsTo value double := by
  have countsNonneg : 0 ≤ value * 2 ^ oneBits := by positivity
  have isLevel := rounded.level_eq nonneg
  refine ⟨rounded.number, fun other _ => ?_, fun other _ different tie => ?_, rounded.positive⟩
  · rw [distance_position, distance_position, div_le_div_iff_of_pos_right (by positivity)]
    rcases le_or_gt (significantOf (value * 2 ^ oneBits)) top with fits | large
    · rw [isLevel, Nat.min_eq_left fits]
      exact (significantOf_nearest countsNonneg other).1
    · rw [isLevel, Nat.min_eq_right large.le]
      exact (top_nearest large other).1
  · rw [Ne, position_inj] at different
    rw [distance_position, distance_position, div_left_inj' (by positivity)] at tie
    rcases le_or_gt (significantOf (value * 2 ^ oneBits)) top with fits | large
    · rw [Nat.min_eq_left fits] at isLevel
      rw [isLevel] at different tie
      exact toBits_even_of_level rounded.number isLevel
        ((significantOf_nearest countsNonneg other).2 different tie).1
        (nearestEven_excessOf_le _) le_nearestEven_excessOf
    · rw [Nat.min_eq_right large.le] at isLevel
      rw [isLevel] at different tie
      exact absurd tie ((top_nearest large other).2 different)

theorem IsRounded.eq_of_roundsTo {rounded double : Float} (isRounded : IsRounded value rounded)
    (roundsTo : RoundsTo value double) : double = rounded := by
  have countsNonneg : 0 ≤ value * 2 ^ oneBits := by positivity
  have isNearest := isRounded.roundsTo nonneg
  have isLevel := isRounded.level_eq nonneg
  have tie : |value - position rounded| = |value - position double| :=
    le_antisymm (isNearest.nearest double roundsTo.number)
      (roundsTo.nearest rounded isRounded.number)
  by_cases same : level double = level rounded
  · exact IsRounded.unique ⟨roundsTo.number, same.trans isRounded.counted, roundsTo.positive⟩
      isRounded
  · have even := roundsTo.even rounded isRounded.number
      (fun equal => same (position_inj.mp equal).symm) tie.symm
    rw [distance_position, distance_position, div_left_inj' (by positivity)] at tie
    rcases le_or_gt (significantOf (value * 2 ^ oneBits)) top with fits | large
    · rw [Nat.min_eq_left fits] at isLevel
      rw [isLevel] at same tie
      rcases (significantOf_nearest countsNonneg double).2 same tie with
        ⟨-, whole, counted, odd, narrow, filled⟩
      rw [toBits_of_level roundsTo.number counted narrow filled, odd] at even
      cases even
    · rw [Nat.min_eq_right large.le] at isLevel
      rw [isLevel] at same tie
      exact absurd tie ((top_nearest large double).2 same)

theorem RoundsTo.unique {first second : Float} (isFirst : RoundsTo value first)
    (isSecond : RoundsTo value second) : first = second := by
  rcases exists_isRounded nonneg with ⟨rounded, isRounded⟩
  rw [isRounded.eq_of_roundsTo nonneg isFirst, isRounded.eq_of_roundsTo nonneg isSecond]

end

/-! ## Signs -/

def SignedRoundsTo (negative : Bool) (magnitude : ℚ) (double : Float) : Prop :=
  ∃ rounded, RoundsTo magnitude rounded ∧ double = if negative then -rounded else rounded

theorem SignedRoundsTo.unique {negative : Bool} {magnitude : ℚ} (nonneg : 0 ≤ magnitude)
    {first second : Float} (isFirst : SignedRoundsTo negative magnitude first)
    (isSecond : SignedRoundsTo negative magnitude second) : first = second := by
  rcases isFirst with ⟨rounded, roundsTo, rfl⟩
  rcases isSecond with ⟨other, otherRoundsTo, rfl⟩
  rw [roundsTo.unique nonneg otherRoundsTo]

end CanCodec.Double
