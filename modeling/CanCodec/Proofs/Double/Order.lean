import CanCodec.Proofs.Double.Arithmetic

/-! # Arithmetic that keeps the order of doubles

Subtracting a finite double keeps the order of doubles. Dividing by one that is not zero
keeps or reverses it, and so does a linear conversion. The infinities are no exception. -/

namespace CanCodec

/-! ## Directions -/

namespace IsDirection

variable {direction other : ℤ}

theorem mul (isDirection : IsDirection direction) (isOther : IsDirection other) :
    IsDirection (direction * other) := by
  rcases isDirection with rfl | rfl <;> rcases isOther with rfl | rfl <;> simp [IsDirection]

theorem mono {α : Type} (isDirection : IsDirection direction) {key map : α → ℤ}
    (mono : ∀ first second, key first ≤ key second → map first ≤ map second) {first second : α}
    (le : direction * key first ≤ direction * key second) :
    direction * map first ≤ direction * map second := by
  rcases isDirection with rfl | rfl
  · have kept := mono first second (by omega)
    omega
  · have kept := mono second first (by omega)
    omega

theorem mul_div (isDirection : IsDirection direction) (dividend divisor : ℚ) :
    direction * (dividend / divisor) = dividend / (direction * divisor) := by
  rcases isDirection with rfl | rfl <;> simp [div_neg]

theorem nearestLevel_mul (isDirection : IsDirection direction) (counts : ℚ) :
    Double.nearestLevel (direction * counts) = direction * Double.nearestLevel counts := by
  rcases isDirection with rfl | rfl
  · rw [Int.cast_one, one_mul, one_mul]
  · rw [Int.cast_neg, Int.cast_one, neg_one_mul, neg_one_mul, Double.nearestLevel_neg]

theorem rounded_mul (isDirection : IsDirection direction) (counts : ℤ) :
    Double.rounded (direction * counts) = direction * Double.rounded counts := by
  rw [← Double.nearestLevel_intCast, ← Double.nearestLevel_intCast, Int.cast_mul,
    isDirection.nearestLevel_mul]

theorem roundHalfAway_mul (isDirection : IsDirection direction) (value : ℚ) :
    roundHalfAway (direction * value) = direction * roundHalfAway value := by
  rcases isDirection with rfl | rfl
  · rw [Int.cast_one, one_mul, one_mul]
  · rw [Int.cast_neg, Int.cast_one, neg_one_mul, neg_one_mul, roundHalfAway_neg]

end IsDirection

namespace Double

open Float.Model Float.Model.UnpackedFloat

/-! ## Infinities -/

theorem level_infinity {double : Float} {sign : Sign}
    (infinite : double.toModel.unpack = .infinity sign) : level double = unit sign * top := by
  rw [level, infinite, levelOf, apply_eq]

theorem natAbs_level_lt_top {double : Float} (finite : double.isFinite = true) :
    (level double).natAbs < top := by
  have isUnpacked := unpack_unpacked double.toModel
  rcases finite_cases finite with ⟨sign, isZero⟩ | ⟨sign, mantissa, exponent, positive, unpacked, _⟩
  · rw [level_zero isZero]
    exact top_pos
  · rw [unpacked] at isUnpacked
    rw [level, unpacked, levelOf, natAbs_apply]
    exact count_lt_top isUnpacked.1 isUnpacked.2

theorem natAbs_level_le_top (double : Float) : (level double).natAbs ≤ top := by
  have same := rounded_level double
  rcases Int.lt_trichotomy (level double) 0 with negative | zero | positive
  · rw [rounded_of_neg negative] at same
    omega
  · rw [zero]
    exact Nat.zero_le _
  · rw [rounded_of_pos positive] at same
    omega

theorem directed_level_bounds {direction : ℤ} (isDirection : IsDirection direction)
    (double : Float) : -(top : ℤ) ≤ direction * level double ∧ direction * level double ≤ top := by
  have bound := natAbs_level_le_top double
  rcases isDirection with rfl | rfl <;> omega

/-! ## Functions that keep the order in a direction -/

/-- A function keeps the order of the finite doubles in a direction, and the infinities. -/
structure KeepsOrder (direction : ℤ) (map : Float → Float) : Prop where
  isDirection : IsDirection direction
  number : ∀ double, double.isFinite = true → (map double).isNaN = false
  finite : ∀ first second, first.isFinite = true → second.isFinite = true →
    level first ≤ level second → direction * level (map first) ≤ direction * level (map second)
  infinite : ∀ double sign, double.toModel.unpack = .infinity sign →
    ∃ mapped, (map double).toModel.unpack = .infinity mapped ∧ unit mapped = direction * unit sign

namespace KeepsOrder

variable {direction : ℤ} {map : Float → Float} (keeps : KeepsOrder direction map)

include keeps

theorem isNaN {double : Float} (number : double.isNaN = false) : (map double).isNaN = false := by
  by_cases finite : double.isFinite = true
  · exact keeps.number double finite
  · rcases unpack_infinite number finite with ⟨sign, isInfinity⟩
    rcases keeps.infinite double sign isInfinity with ⟨mapped, isMapped, _⟩
    exact congrArg UnpackedFloat.isNaN isMapped

theorem level_infinity {double : Float} {sign : Sign}
    (infinite : double.toModel.unpack = .infinity sign) :
    direction * level (map double) = unit sign * top := by
  rcases keeps.infinite double sign infinite with ⟨mapped, isMapped, isUnit⟩
  rw [Double.level_infinity isMapped, isUnit, ← Int.mul_assoc, ← Int.mul_assoc,
    keeps.isDirection.mul_self, Int.one_mul]

theorem level_le {first second : Float} (firstNumber : first.isNaN = false)
    (secondNumber : second.isNaN = false) (le : level first ≤ level second) :
    direction * level (map first) ≤ direction * level (map second) := by
  have least := (directed_level_bounds keeps.isDirection (map second)).1
  have greatest := (directed_level_bounds keeps.isDirection (map first)).2
  have firstBound := natAbs_level_le_top first
  have secondBound := natAbs_level_le_top second
  by_cases firstFinite : first.isFinite = true
  · by_cases secondFinite : second.isFinite = true
    · exact keeps.finite first second firstFinite secondFinite le
    · have inner := natAbs_level_lt_top firstFinite
      rcases unpack_infinite secondNumber secondFinite with ⟨sign, isInfinity⟩
      have outer := Double.level_infinity isInfinity
      rw [keeps.level_infinity isInfinity]
      cases sign <;> simp only [unit, Sign.apply] at outer ⊢ <;> omega
  · rcases unpack_infinite firstNumber firstFinite with ⟨sign, isInfinity⟩
    have outer := Double.level_infinity isInfinity
    cases sign with
    | negative =>
        rw [keeps.level_infinity isInfinity]
        simp only [unit, Sign.apply]
        omega
    | positive =>
        -- Nothing but the same infinity is above.
        by_cases secondFinite : second.isFinite = true
        · have inner := natAbs_level_lt_top secondFinite
          simp only [unit, Sign.apply] at outer
          omega
        · rcases unpack_infinite secondNumber secondFinite with ⟨other, isOther⟩
          have otherOuter := Double.level_infinity isOther
          rw [keeps.level_infinity isOther]
          cases other <;> simp only [unit, Sign.apply] at outer otherOuter ⊢ <;> omega

theorem level_le_of_direction {first second : Float} (firstNumber : first.isNaN = false)
    (secondNumber : second.isNaN = false)
    (le : direction * level first ≤ direction * level second) :
    level (map first) ≤ level (map second) := by
  rcases keeps.isDirection with rfl | rfl
  · have kept := keeps.level_le firstNumber secondNumber (by omega)
    omega
  · have kept := keeps.level_le secondNumber firstNumber (by omega)
    omega

end KeepsOrder

section

variable {offset : Float}

theorem keepsOrder_sub (finite : offset.isFinite = true) : KeepsOrder 1 (· - offset) where
  isDirection := .inl rfl
  number double isFinite := (level_sub isFinite finite).2
  finite first second firstFinite secondFinite le := by
    rw [(level_sub firstFinite finite).1, (level_sub secondFinite finite).1, Int.one_mul, Int.one_mul]
    exact rounded_mono (Int.sub_le_sub_right le _)
  infinite double sign infinite := by
    refine ⟨sign, ?_, (Int.one_mul _).symm⟩
    change (Float.Model.pack (UnpackedFloat.sub .binary64 double.toModel.unpack
      offset.toModel.unpack)).unpack = _
    rw [infinite]
    rcases finite_cases finite with ⟨_, isZero⟩ | ⟨_, _, _, _, unpacked, _⟩
    · rw [isZero]
      exact unpack_pack_infinity sign
    · rw [unpacked]
      exact unpack_pack_infinity sign

theorem keepsOrder_add (finite : offset.isFinite = true) : KeepsOrder 1 (· + offset) where
  isDirection := .inl rfl
  number double isFinite := (level_add isFinite finite).2
  finite first second firstFinite secondFinite le := by
    rw [(level_add firstFinite finite).1, (level_add secondFinite finite).1, Int.one_mul, Int.one_mul]
    exact rounded_mono (Int.add_le_add_right le _)
  infinite double sign infinite := by
    refine ⟨sign, ?_, (Int.one_mul _).symm⟩
    change (Float.Model.pack (UnpackedFloat.add .binary64 double.toModel.unpack
      offset.toModel.unpack)).unpack = _
    rw [infinite]
    rcases finite_cases finite with ⟨_, isZero⟩ | ⟨_, _, _, _, unpacked, _⟩
    · rw [isZero]
      exact unpack_pack_infinity sign
    · rw [unpacked]
      exact unpack_pack_infinity sign

end

section

variable {scale : Float} {direction : ℤ} (finite : scale.isFinite = true)
  (isDirection : IsDirection direction) (raises : 0 < direction * level scale)

include finite isDirection raises

theorem exists_unpack_of_direction : ∃ sign mantissa exponent, ∃ positive : 0 < mantissa,
    scale.toModel.unpack = .finite sign mantissa exponent positive ∧ unit sign = direction := by
  rcases finite_cases finite with ⟨sign, isZero⟩ | ⟨sign, mantissa, exponent, positive, unpacked, _⟩
  · rw [level_zero isZero, Int.mul_zero] at raises
    exact absurd raises (Int.lt_irrefl 0)
  · refine ⟨sign, mantissa, exponent, positive, unpacked, ?_⟩
    have counted := count_pos positive exponent
    rw [level, unpacked, levelOf] at raises
    rcases isDirection with rfl | rfl <;> cases sign <;>
      simp only [unit, Sign.apply] at raises ⊢ <;> omega

theorem keepsOrder_mul : KeepsOrder direction (· * scale) where
  isDirection := isDirection
  number double isFinite := (level_mul isFinite finite).2
  finite first second firstFinite secondFinite le := by
    have raisesCast : (0 : ℚ) < direction * level scale := by exact_mod_cast raises
    rw [(level_mul firstFinite finite).1, (level_mul secondFinite finite).1,
      ← isDirection.nearestLevel_mul, ← isDirection.nearestLevel_mul]
    apply nearestLevel_mono
    calc
      (direction : ℚ) * (level first * level scale / 2 ^ oneBits)
        = level first * (direction * level scale) / 2 ^ oneBits := by ring
      _ ≤ level second * (direction * level scale) / 2 ^ oneBits := by gcongr
      _ = direction * (level second * level scale / 2 ^ oneBits) := by ring
  infinite double sign infinite := by
    rcases exists_unpack_of_direction finite isDirection raises with
      ⟨scaleSign, _, _, _, unpacked, rfl⟩
    refine ⟨sign * scaleSign, ?_, by rw [unit_mul, Int.mul_comm]⟩
    change (Float.Model.pack (UnpackedFloat.mul .binary64 double.toModel.unpack
      scale.toModel.unpack)).unpack = _
    rw [infinite, unpacked]
    exact unpack_pack_infinity _

theorem keepsOrder_div : KeepsOrder direction (· / scale) where
  isDirection := isDirection
  number double isFinite := (level_div isFinite finite (right_ne_zero_of_mul raises.ne')).2
  finite first second firstFinite secondFinite le := by
    have nonzero := right_ne_zero_of_mul raises.ne'
    have raisesCast : (0 : ℚ) < direction * level scale := by exact_mod_cast raises
    rw [(level_div firstFinite finite nonzero).1, (level_div secondFinite finite nonzero).1,
      ← isDirection.nearestLevel_mul, ← isDirection.nearestLevel_mul, isDirection.mul_div,
      isDirection.mul_div]
    apply nearestLevel_mono
    gcongr
  infinite double sign infinite := by
    rcases exists_unpack_of_direction finite isDirection raises with
      ⟨scaleSign, _, _, _, unpacked, rfl⟩
    refine ⟨sign / scaleSign, ?_, by rw [unit_div, Int.mul_comm]⟩
    change (Float.Model.pack (UnpackedFloat.div .binary64 double.toModel.unpack
      scale.toModel.unpack)).unpack = _
    rw [infinite, unpacked]
    exact unpack_pack_infinity _

end

/-! ## Inverse operations -/

section

variable {direction : ℤ} (isDirection : IsDirection direction) {offset base double : Float}

include isDirection

theorem level_le_sub_of_add_lt (finite : offset.isFinite = true) (baseNumber : base.isNaN = false)
    (number : double.isNaN = false)
    (past : direction * level (base + offset) < direction * level double) :
    direction * level base ≤ direction * level (double - offset) := by
  have bounds := directed_level_bounds isDirection
  by_cases baseFinite : base.isFinite = true
  · by_cases isFinite : double.isFinite = true
    · have order : direction * (level base + level offset) < direction * level double := by
        by_contra behind
        have back := rounded_mono (Int.not_lt.mp behind)
        rw [isDirection.rounded_mul, isDirection.rounded_mul, rounded_level,
          ← (level_add baseFinite finite).1] at back
        omega
      have shifted : direction * level base ≤ direction * (level double - level offset) := by
        rw [Int.mul_add] at order
        rw [Int.mul_sub]
        omega
      rw [(level_sub isFinite finite).1, ← isDirection.rounded_mul, ← rounded_level base,
        ← isDirection.rounded_mul]
      exact rounded_mono shifted
    · rcases unpack_infinite number isFinite with ⟨sign, infinite⟩
      have least := (bounds (base + offset)).1
      have greatest := (bounds base).2
      have kept := (keepsOrder_sub finite).level_infinity infinite
      rw [level_infinity infinite] at past
      rw [Int.one_mul] at kept
      rw [kept]
      rcases isDirection with rfl | rfl <;> cases sign <;>
        simp only [unit, Sign.apply] at past ⊢ <;> omega
  · rcases unpack_infinite baseNumber baseFinite with ⟨sign, infinite⟩
    have least := (bounds (double - offset)).1
    have greatest := (bounds double).2
    have kept := (keepsOrder_add finite).level_infinity infinite
    rw [Int.one_mul] at kept
    rw [kept] at past
    rw [level_infinity infinite]
    rcases isDirection with rfl | rfl <;> cases sign <;>
      simp only [unit, Sign.apply] at past ⊢ <;> omega

end

theorem rounded_two_pow {bits : ℕ} (fits : bits ≤ topBits) :
    rounded (2 ^ bits : ℕ) = (2 ^ bits : ℕ) := by
  apply rounded_eq_self <;> rw [Int.natAbs_natCast]
  · have one := @significant_mul_two_pow 1 (by decide) bits
    rwa [Nat.one_mul] at one
  · exact two_pow_le_top fits

/-- A power of two times the level of a finite double is rounded only if it is too large. -/
theorem significant_two_pow_mul_level {double : Float} (finite : double.isFinite = true)
    (bits : ℕ) :
    significant (2 ^ bits * (level double).natAbs) = 2 ^ bits * (level double).natAbs := by
  rcases finite_cases finite with
    ⟨sign, isZero⟩ | ⟨sign, mantissa, exponent, positive, unpacked, canonical⟩
  · rw [level_zero isZero, Int.natAbs_zero, Nat.mul_zero]
    rfl
  · have magnitude : 2 ^ bits * (level double).natAbs =
        mantissa * 2 ^ ((exponent + 1074).toNat + bits) := by
      rw [level, unpacked, levelOf, natAbs_apply, count]
      ring
    rw [magnitude, significant_mul_two_pow canonical.narrow]

section

variable {direction turn : ℤ} {scale : Float} (finite : scale.isFinite = true)
  (isDirection : IsDirection direction) (isTurn : IsDirection turn)
  (raises : 0 < turn * level scale) {power double : Float} {bits : ℕ}
  (powerFinite : power.isFinite = true)
  (isPower : level power = direction * turn * (2 ^ (bits + oneBits) : ℕ))

include finite isDirection isTurn raises powerFinite isPower

theorem level_power_mul : direction * level (power * scale) =
    (min (2 ^ bits * (level scale).natAbs) top : ℕ) := by
  obtain ⟨size, isSize⟩ : ∃ size, (level scale).natAbs = size := ⟨_, rfl⟩
  have turned : turn * level scale = size := by rcases isTurn with rfl | rfl <;> omega
  have product : (level power * level scale / 2 ^ oneBits : ℚ) =
      direction * ((2 ^ bits * size : ℕ) : ℤ) := by
    have cast : (turn * level scale : ℚ) = size := by exact_mod_cast turned
    rw [isPower, div_eq_iff (by positivity)]
    push_cast
    linear_combination (direction * 2 ^ (bits + oneBits) : ℚ) * cast
  have kept := significant_two_pow_mul_level finite bits
  rw [isSize] at kept ⊢
  rw [(level_mul powerFinite finite).1, product, isDirection.nearestLevel_mul, ← Int.mul_assoc,
    isDirection.mul_self, Int.one_mul, Int.cast_natCast, nearestLevel_of_nonneg (by positivity),
    significantOf_natCast, kept]

theorem le_level_div (fits : bits + oneBits ≤ topBits) (number : double.isNaN = false)
    (past : direction * level (power * scale) ≤ direction * level double) :
    (2 ^ (bits + oneBits) : ℕ) ≤ direction * turn * level (double / scale) := by
  have product := level_power_mul finite isDirection isTurn raises powerFinite isPower
  have topPositive := top_pos
  have sizePositive : 0 < 2 ^ bits * (level scale).natAbs :=
    Nat.mul_pos (Nat.two_pow_pos _) (by rcases isTurn with rfl | rfl <;> omega)
  by_cases isFinite : double.isFinite = true
  · have inner := natAbs_level_lt_top isFinite
    have below : ((2 ^ bits * (level scale).natAbs : ℕ) : ℤ) ≤ direction * level double := by
      rcases isDirection with rfl | rfl <;> omega
    have turned : (0 : ℚ) < turn * level scale := by exact_mod_cast raises
    have size : ((level scale).natAbs : ℤ) = turn * level scale := by
      rcases isTurn with rfl | rfl <;> omega
    have cast : (2 ^ bits * (turn * level scale) : ℚ) ≤ direction * level double := by
      rw [Nat.cast_mul, size] at below
      exact_mod_cast below
    have order : (((2 ^ (bits + oneBits) : ℕ) : ℤ) : ℚ) ≤
        direction * (turn * (level double * 2 ^ oneBits / level scale)) := by
      rw [isTurn.mul_div, ← mul_div_assoc, le_div_iff₀ turned]
      push_cast
      calc
        (2 : ℚ) ^ (bits + oneBits) * (turn * level scale)
          = 2 ^ bits * (turn * level scale) * 2 ^ oneBits := by ring
        _ ≤ direction * level double * 2 ^ oneBits := by gcongr
        _ = direction * (level double * 2 ^ oneBits) := by ring
    rw [(level_div isFinite finite (right_ne_zero_of_mul raises.ne')).1, Int.mul_assoc,
      ← isTurn.nearestLevel_mul, ← isDirection.nearestLevel_mul, ← rounded_two_pow fits,
      ← nearestLevel_intCast]
    exact nearestLevel_mono order
  · rcases unpack_infinite number isFinite with ⟨sign, infinite⟩
    have kept := (keepsOrder_div finite isTurn raises).level_infinity infinite
    have outer := level_infinity infinite
    have bound := two_pow_le_top fits
    rw [Int.mul_assoc, kept]
    rw [outer] at past
    rcases isDirection with rfl | rfl <;> cases sign <;>
      simp only [unit, Sign.apply] at past ⊢ <;> omega

end

/-! ## Rounding to an integer -/

theorem nearestInt_eq_level (double : Float) :
    nearestInt double = roundHalfAway (level double / 2 ^ oneBits) := by
  by_cases finite : double.isFinite = true
  · rw [nearestInt_eq finite, toRat_eq_level finite]
  have outermost : ∀ sign : Sign, ((unit sign * top : ℤ) : ℚ) / 2 ^ oneBits =
      (unit sign * Nat.pow 2 1024 : ℤ) := by
    intro sign
    have bits : topBits = 1024 + oneBits := rfl
    rw [div_eq_iff (by positivity), top, bits, Nat.pow_add, Nat.pow_eq]
    generalize 2 ^ 1024 = power
    push_cast
    ring
  change ¬double.toModel.unpack.isFinite = true at finite
  rw [nearestInt, level]
  cases equal : double.toModel.unpack with
  | notANumber => simpa [levelOf] using (roundHalfAway_intCast 0).symm
  | infinity sign =>
      rw [levelOf, apply_eq, outermost, roundHalfAway_intCast, ← apply_eq]
      cases sign <;> rfl
  | zero | finite =>
      rw [equal] at finite
      exact absurd rfl finite

theorem le_nearestInt {direction : ℤ} (isDirection : IsDirection direction) {double : Float}
    {bits : ℕ} (le : (2 ^ (bits + oneBits) : ℕ) ≤ direction * level double) :
    (2 ^ bits : ℕ) ≤ direction * nearestInt double := by
  have cast : (((2 ^ bits : ℕ) : ℤ) : ℚ) ≤ direction * (level double / 2 ^ oneBits) := by
    rw [← mul_div_assoc, le_div_iff₀ (by positivity)]
    rw [Nat.pow_add] at le
    exact_mod_cast le
  rw [nearestInt_eq_level, ← isDirection.roundHalfAway_mul, ← roundHalfAway_intCast (2 ^ bits : ℕ)]
  exact roundHalfAway_mono cast

theorem nearestInt_mono {first second : Float} (le : level first ≤ level second) :
    nearestInt first ≤ nearestInt second := by
  rw [nearestInt_eq_level, nearestInt_eq_level]
  apply roundHalfAway_mono
  gcongr

end Double

end CanCodec
