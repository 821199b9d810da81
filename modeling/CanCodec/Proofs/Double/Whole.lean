import CanCodec.Proofs.Double.Level
import CanCodec.Conversion

/-! # Whole numbers as doubles

Conversion from an integer rounds to the nearest double. Adding a small integer to a double
that holds an integer is the same as converting the sum. -/

namespace CanCodec.Double

open Float.Model Float.Model.UnpackedFloat

/-! ## Conversion of integers -/

theorem normalize_apply (sign : Sign) {mantissa : Nat} {exponent : Int} (positive : 0 < mantissa)
    (canonical : Canonical mantissa exponent) (zero : Sign) :
    normalize .binary64 (sign.apply mantissa) exponent zero =
      .finite sign mantissa exponent positive := by
  cases sign with
  | negative =>
      change normalize .binary64 (-(mantissa : Int)) exponent zero = _
      rw [normalize_of_neg (by omega), Int.natAbs_neg, Int.natAbs_natCast]
      exact round_canonical .negative positive canonical
  | positive =>
      change normalize .binary64 (mantissa : Int) exponent zero = _
      rw [normalize_of_pos (by omega), Int.natAbs_natCast]
      exact round_canonical .positive positive canonical

theorem unpack_one : (Float.ofBits 0x3FF0000000000000).toModel.unpack =
    .finite .positive (2 ^ 52) (-52) (by decide) := by
  rfl

theorem roundWithAccuracy_scaled (sign : Sign) {mantissa bits : Nat} {exponent : Int}
    (positive : 0 < mantissa) (low : -1074 ≤ exponent - bits)
    (full : (exponent - bits + 1074).toNat ≤ excess (count mantissa exponent)) :
    roundWithAccuracy .binary64 sign (mantissa * 2 ^ bits) (exponent - bits) .exact =
      UnpackedFloat.round .binary64 sign mantissa exponent :=
  roundWithAccuracy_eq_round sign (Nat.mul_pos positive (Nat.two_pow_pos bits)) low
    (by rwa [count_mul_two_pow mantissa low]) positive (by omega)
    (count_mul_two_pow mantissa low)

def oneBits : Nat := 1074

theorem count_integer (natural : Nat) : count natural 0 = natural * 2 ^ oneBits := by
  rw [count, show ((0 : Int) + 1074).toNat = oneBits from rfl]

theorem le_excess_count {natural : Nat} (positive : 0 < natural) :
    1022 ≤ excess (count natural 0) := by
  have least : excess (2 ^ oneBits) = 1022 := by
    rw [excess, Nat.log2_two_pow, oneBits]
  rw [← least, count_integer]
  exact excess_mono (Nat.le_mul_of_pos_left _ positive)

theorem toFloat_mul_one {natural : Nat} (positive : 0 < natural) (small : natural < 2 ^ 53) :
    natural.toUInt64.toFloat * Float.ofBits 0x3FF0000000000000 =
      .ofModel (Float.Model.pack (UnpackedFloat.round .binary64 .positive natural 0)) := by
  have word : natural.toUInt64.toNat = natural := by
    change natural % 2 ^ 64 = natural
    exact Nat.mod_eq_of_lt (by omega)
  have converted : natural.toUInt64.toFloat =
      .ofModel (Float.Model.pack (UnpackedFloat.round .binary64 .positive natural 0)) := by
    change Float.ofModel (Float.Model.pack
      (normalize .binary64 (natural.toUInt64.toNat : Int) 0 .positive)) = _
    rw [word, normalize_of_pos (by omega), Int.natAbs_natCast]
  rcases round_spec .positive positive (show -1074 ≤ (0 : Int) by decide) with
    ⟨mantissa, exponent, nonzero, isRound, canonical, counted⟩
  have power : (exponent + 1074).toNat = excess (count natural 0) := by
    rw [← canonical.excess_count, counted, count_integer, significant_mul_two_pow small]
  have high : excess (count natural 0) ≤ 1074 := by
    rw [count_integer]
    exact excess_mul_two_pow_le small oneBits
  have low := le_excess_count positive
  have unpacked : natural.toUInt64.toFloat.toModel.unpack =
      .finite .positive mantissa exponent nonzero := by
    rw [converted, isRound]
    change (Float.Model.pack _).unpack = _
    rw [unpack_pack_finite _ nonzero canonical, if_pos (by omega)]
  change Float.ofModel (Float.Model.pack (UnpackedFloat.mul .binary64
    natural.toUInt64.toFloat.toModel.unpack (Float.ofBits 0x3FF0000000000000).toModel.unpack)) = _
  rw [unpacked, unpack_one, isRound]
  change Float.ofModel (Float.Model.pack (roundWithAccuracy .binary64 .positive
    (mantissa * 2 ^ 52) (exponent - (52 : Nat)) .exact)) = _
  rw [roundWithAccuracy_scaled .positive nonzero (by omega)
    (by rw [canonical.excess_count]; omega), round_canonical .positive nonzero canonical]

theorem ofNat_eq (natural : Nat) :
    Float.ofNat natural =
      .ofModel (Float.Model.pack (normalize .binary64 natural 0 .positive)) := by
  rcases Nat.eq_zero_or_pos natural with rfl | positive
  · decide
  rw [normalize_of_pos (by omega), Int.natAbs_natCast]
  change Float.ofScientific natural false 0 = _
  unfold Float.ofScientific
  split
  next small => exact toFloat_mul_one positive small.1
  next large =>
    change Float.ofModel (Float.Model.pack (UnpackedFloat.ofScientific .binary64 natural 0)) = _
    unfold UnpackedFloat.ofScientific
    have bound : (0 : Int) < 2 ^ Format.binary64.exponentBits := by decide
    rw [dif_neg (by omega), if_neg (by decide), if_neg (by omega), if_pos (by decide)]
    change Float.ofModel (Float.Model.pack (roundWithAccuracy .binary64 .positive
      (natural <<< 53 * 1) (0 - (53 : Nat)) .exact)) = _
    rw [Nat.mul_one, Nat.shiftLeft_eq, roundWithAccuracy_scaled .positive positive (by decide)]
    exact Nat.le_trans (by decide) (le_excess_count positive)

theorem IsCanonical.neg_pack {sign : Sign} {counts : Nat} {double other : UnpackedFloat}
    (isDouble : IsCanonical sign counts double) (isOther : IsCanonical (-sign) counts other) :
    Float.Model.pack (Float.Model.pack double).unpack.neg = Float.Model.pack other := by
  rcases isDouble with ⟨mantissa, exponent, positive, rfl, canonical, counted⟩
  rw [isOther.unique ⟨mantissa, exponent, positive, rfl, canonical, counted⟩,
    unpack_pack_finite sign positive canonical]
  split_ifs with fits
  · rfl
  · rw [pack_overflow (-sign) positive canonical (by omega)]
    rfl

theorem ofInt_eq (integer : Int) :
    Float.ofInt integer =
      .ofModel (Float.Model.pack (normalize .binary64 integer 0 .positive)) := by
  cases integer with
  | ofNat natural => exact ofNat_eq natural
  | negSucc natural =>
      have isRound (sign : Sign) := round_spec sign (Nat.succ_pos natural)
        (show -1074 ≤ (0 : Int) by decide)
      change Float.ofModel (Float.Model.pack (Float.ofNat (natural + 1)).toModel.unpack.neg) = _
      rw [ofNat_eq, normalize_of_pos (by omega), normalize_of_neg (Int.negSucc_lt_zero natural)]
      exact congrArg Float.ofModel ((isRound .positive).neg_pack (isRound .negative))

/-! ## Sums -/

theorem signedCount_apply (sign : Sign) (mantissa : Nat) (exponent : Int) :
    signedCount (sign.apply mantissa) exponent = sign.apply (count mantissa exponent) := by
  have counted : (count mantissa exponent : Int) = mantissa * 2 ^ (exponent + 1074).toNat := by
    rw [count, Int.natCast_mul, Int.natCast_pow]
    rfl
  rw [signedCount, counted]
  cases sign with
  | negative => exact Int.neg_mul _ _
  | positive => rfl

theorem signedCount_shifted (sign : Sign) (mantissa : Nat) {exponent target : Int}
    (low : -1074 ≤ target) (le : target ≤ exponent) :
    signedCount (sign.apply (mantissa <<< (exponent - target).toNat : Nat)) target =
      sign.apply (count mantissa exponent) := by
  obtain ⟨bits, rfl⟩ : ∃ bits : Nat, target = exponent - bits :=
    ⟨(exponent - target).toNat, by omega⟩
  rw [signedCount_apply, show (exponent - (exponent - bits)).toNat = bits by omega,
    Nat.shiftLeft_eq, count_mul_two_pow mantissa low]

theorem signedCount_add (first second exponent : Int) :
    signedCount (first + second) exponent =
      signedCount first exponent + signedCount second exponent :=
  Int.add_mul ..

theorem signedCount_sub (first second exponent : Int) :
    signedCount (first - second) exponent =
      signedCount first exponent - signedCount second exponent :=
  Int.sub_mul ..

section

variable {double : UnpackedFloat} {sign : Sign} {mantissa : Nat} {exponent : Int}
  {result power : Int}

theorem add_eq_normalize (isUnpacked : Unpacked double) (finite : double.isFinite)
    (positive : 0 < mantissa) (canonical : Canonical mantissa exponent) (low : -1074 ≤ power)
    (same : signedCount result power = levelOf double + sign.apply (count mantissa exponent)) :
    UnpackedFloat.add .binary64 double (.finite sign mantissa exponent positive) =
      normalize .binary64 result power .positive := by
  cases double with
  | notANumber => cases finite
  | infinity => cases finite
  | zero zeroSign =>
      change UnpackedFloat.finite sign mantissa exponent positive = _
      rw [← normalize_apply sign positive canonical .positive]
      apply normalize_congr _ canonical.low low
      rw [same]
      change _ = 0 + _
      rw [Int.zero_add]
      exact signedCount_apply sign mantissa exponent
  | finite otherSign otherMantissa otherExponent otherPositive =>
      have otherLow := isUnpacked.1.low
      have canonicalLow := canonical.low
      change normalize .binary64 _ (min otherExponent exponent) .positive = _
      apply normalize_congr _ (by omega) low
      rw [signedCount_add, signedCount_shifted _ _ (by omega) (by omega),
        signedCount_shifted _ _ (by omega) (by omega), same]
      rfl

theorem sub_eq_normalize (isUnpacked : Unpacked double) (finite : double.isFinite)
    (positive : 0 < mantissa) (canonical : Canonical mantissa exponent) (low : -1074 ≤ power)
    (same : signedCount result power = levelOf double - sign.apply (count mantissa exponent)) :
    UnpackedFloat.sub .binary64 double (.finite sign mantissa exponent positive) =
      normalize .binary64 result power .positive := by
  cases double with
  | notANumber => cases finite
  | infinity => cases finite
  | zero zeroSign =>
      change UnpackedFloat.finite (-sign) mantissa exponent positive = _
      rw [← normalize_apply (-sign) positive canonical .positive]
      apply normalize_congr _ canonical.low low
      rw [same, signedCount_apply]
      change _ = 0 - _
      rw [Int.zero_sub]
      cases sign with
      | negative => exact (Int.neg_neg _).symm
      | positive => rfl
  | finite otherSign otherMantissa otherExponent otherPositive =>
      have otherLow := isUnpacked.1.low
      have canonicalLow := canonical.low
      change normalize .binary64 _ (min otherExponent exponent) .positive = _
      apply normalize_congr _ (by omega) low
      rw [signedCount_sub, signedCount_shifted _ _ (by omega) (by omega),
        signedCount_shifted _ _ (by omega) (by omega), same]
      rfl

end

/-! ## Doubles that hold an integer -/

/-- A double is an integer. The infinities count as the powers of two next to the doubles. -/
structure Holds (double : Float) (integer : Int) : Prop where
  number : double.isNaN = false
  level : level double = signedCount integer 0

def Exact (integer : Int) : Prop := rounded (signedCount integer 0) = signedCount integer 0

theorem signedCount_integer (integer : Int) :
    signedCount integer 0 = integer * (2 ^ oneBits : Nat) := by
  rw [signedCount, show ((0 : Int) + 1074).toNat = oneBits from rfl, Int.natCast_pow]
  rfl

theorem signedCount_le_iff {first second : Int} :
    signedCount first 0 ≤ signedCount second 0 ↔ first ≤ second :=
  Int.mul_le_mul_right (Int.pow_pos (by decide))

theorem signedCount_inj {first second : Int} (same : signedCount first 0 = signedCount second 0) :
    first = second :=
  Int.eq_of_mul_eq_mul_right (Int.ne_of_gt (Int.pow_pos (by decide))) same

theorem level_ofInt (integer : Int) :
    level (Float.ofInt integer) = rounded (signedCount integer 0) := by
  rw [ofInt_eq]
  exact (levelOf_pack_normalize (by decide) .positive).1

theorem isNaN_ofInt (integer : Int) : (Float.ofInt integer).isNaN = false := by
  rw [ofInt_eq]
  exact (levelOf_pack_normalize (by decide) .positive).2

theorem holds_ofInt {integer : Int} (exact : Exact integer) :
    Holds (Float.ofInt integer) integer :=
  ⟨isNaN_ofInt integer, (level_ofInt integer).trans exact⟩

theorem ofInt_le_ofInt {first second : Int} (le : first ≤ second) :
    Float.ofInt first ≤ Float.ofInt second := by
  rw [le_iff_level (isNaN_ofInt first) (isNaN_ofInt second), level_ofInt, level_ofInt]
  exact rounded_mono (signedCount_le_iff.mpr le)

theorem exact_of_count {integer : Int} {mantissa bits : Nat} (narrow : mantissa < 2 ^ 53)
    (same : count integer.natAbs 0 = mantissa * 2 ^ bits) (le : count integer.natAbs 0 ≤ top) :
    Exact integer := by
  apply rounded_eq_self
  · rw [natAbs_signedCount, same, significant_mul_two_pow narrow]
  · rwa [natAbs_signedCount]

theorem count_le_top {natural bits : Nat} (le : natural ≤ 2 ^ bits) (fits : bits ≤ 1024) :
    count natural 0 ≤ top := by
  have within : bits + oneBits ≤ topBits := by
    unfold oneBits topBits
    omega
  have scaled := Nat.mul_le_mul_right (2 ^ oneBits) le
  rw [← Nat.pow_add] at scaled
  rw [count_integer]
  exact Nat.le_trans scaled (Nat.pow_le_pow_right (by decide) within)

theorem exact_of_natAbs_eq_two_pow {integer : Int} {bits : Nat}
    (power : integer.natAbs = 2 ^ bits) (fits : bits ≤ 1024) : Exact integer := by
  have same : count integer.natAbs 0 = 1 * 2 ^ (bits + oneBits) := by
    rw [count_integer, power, ← Nat.pow_add, Nat.one_mul]
  exact exact_of_count (by decide) same (count_le_top (Nat.le_of_eq power) fits)

theorem exact_two_pow (sign : Sign) (bits : Nat) (fits : bits ≤ 1024) :
    Exact (sign.apply (Nat.pow 2 bits : Nat)) :=
  exact_of_natAbs_eq_two_pow (natAbs_apply sign _) fits

theorem exact_of_natAbs_le {integer : Int} (small : integer.natAbs ≤ 2 ^ 53) :
    Exact integer := by
  rcases Nat.lt_or_eq_of_le small with less | power
  · exact exact_of_count less (count_integer _) (count_le_top small (by decide))
  · exact exact_of_natAbs_eq_two_pow power (by decide)

theorem exact_nearestNatural (sign : Sign) {mantissa : Nat} {exponent : Int}
    (canonical : Canonical mantissa exponent) (fits : exponent ≤ 971) :
    Exact (sign.apply (nearestNatural mantissa exponent)) := by
  have magnitude := natAbs_apply sign (nearestNatural mantissa exponent)
  by_cases fraction : exponent < 0
  · apply exact_of_natAbs_le
    rw [magnitude, nearestNatural, if_pos fraction]
    change (2 * mantissa + 2 ^ exponent.natAbs) / 2 ^ (exponent.natAbs + 1) ≤ 2 ^ 53
    have narrow := canonical.narrow
    have two : 2 ≤ 2 ^ exponent.natAbs := Nat.le_self_pow (by omega) 2
    apply Nat.le_of_lt
    rw [Nat.div_lt_iff_lt_mul (Nat.two_pow_pos _), Nat.pow_succ]
    omega
  · have scaled : count (nearestNatural mantissa exponent) 0 = count mantissa exponent := by
      rw [nearestNatural, if_neg fraction, count_integer]
      change mantissa * 2 ^ exponent.natAbs * 2 ^ oneBits = _
      rw [Nat.mul_assoc, ← Nat.pow_add, count, oneBits]
      congr 2
      omega
    rw [← magnitude] at scaled
    have same : count (sign.apply (nearestNatural mantissa exponent)).natAbs 0 =
        mantissa * 2 ^ (exponent + 1074).toNat := scaled
    refine exact_of_count canonical.narrow same ?_
    rw [scaled]
    exact Nat.le_of_lt (count_lt_top canonical fits)

theorem exact_nearestInt (double : Float) : Exact (nearestInt double) := by
  have isUnpacked := unpack_unpacked double.toModel
  rw [nearestInt]
  cases equal : double.toModel.unpack with
  | notANumber => exact exact_of_natAbs_le (Nat.zero_le _)
  | zero sign => exact exact_of_natAbs_le (Nat.zero_le _)
  | infinity sign =>
      cases sign with
      | negative => exact exact_two_pow .negative 1024 (Nat.le_refl _)
      | positive => exact exact_two_pow .positive 1024 (Nat.le_refl _)
  | finite sign mantissa exponent positive =>
      rw [equal] at isUnpacked
      cases sign with
      | negative => exact exact_nearestNatural .negative isUnpacked.1 isUnpacked.2
      | positive => exact exact_nearestNatural .positive isUnpacked.1 isUnpacked.2

theorem unpack_ofInt_unit (sign : Sign) : (Float.ofInt (sign.apply 1)).toModel.unpack =
    .finite sign (2 ^ 52) (-52) (by decide) := by
  cases sign <;> rfl

theorem signedCount_unit (sign : Sign) :
    sign.apply (count (2 ^ 52) (-52)) = signedCount (sign.apply 1) 0 := by
  have same : count (1 * 2 ^ 52) (0 - (52 : Nat)) = count 1 0 := count_mul_two_pow 1 (by decide)
  rw [← Nat.one_mul (2 ^ 52), show (-52 : Int) = 0 - (52 : Nat) from rfl, same]
  exact (signedCount_apply sign 1 0).symm

section

variable {double : Float} {integer : Int}

theorem Holds.exact (holds : Holds double integer) : Exact integer := by
  rw [Exact, ← holds.level, rounded_level]

theorem Holds.le_iff {other : Float} {otherInteger : Int} (holds : Holds double integer)
    (otherHolds : Holds other otherInteger) : double ≤ other ↔ integer ≤ otherInteger := by
  rw [le_iff_level holds.number otherHolds.number, holds.level, otherHolds.level,
    signedCount_le_iff]

theorem Holds.add_unit (holds : Holds double integer) (finite : double.isFinite) (sign : Sign) :
    double + Float.ofInt (sign.apply 1) = Float.ofInt (integer + sign.apply 1) := by
  have counts : signedCount (integer + sign.apply 1) 0 =
      levelOf double.toModel.unpack + sign.apply (count (2 ^ 52) (-52)) := by
    rw [signedCount_add, signedCount_unit, ← holds.level]
    rfl
  have sum := add_eq_normalize (unpack_unpacked double.toModel) finite (by decide)
    ⟨by decide, by decide, by decide⟩ (by decide) counts
  rw [ofInt_eq (integer + _), ← sum, ← unpack_ofInt_unit sign]
  rfl

theorem Holds.sub_unit (holds : Holds double integer) (finite : double.isFinite) (sign : Sign) :
    double - Float.ofInt (sign.apply 1) = Float.ofInt (integer - sign.apply 1) := by
  have counts : signedCount (integer - sign.apply 1) 0 =
      levelOf double.toModel.unpack - sign.apply (count (2 ^ 52) (-52)) := by
    rw [signedCount_sub, signedCount_unit, ← holds.level]
    rfl
  have difference := sub_eq_normalize (unpack_unpacked double.toModel) finite (by decide)
    ⟨by decide, by decide, by decide⟩ (by decide) counts
  rw [ofInt_eq (integer - _), ← difference, ← unpack_ofInt_unit sign]
  rfl

theorem exists_holds_ofInt (integer : Int) : ∃ held, Holds (Float.ofInt integer) held := by
  have divides : 2 ^ oneBits ∣ min (significant (signedCount integer 0).natAbs) top := by
    rw [natAbs_signedCount, count_integer]
    rcases Nat.le_total (significant (integer.natAbs * 2 ^ oneBits)) top with below | above
    · rw [Nat.min_eq_left below]
      exact two_pow_dvd_significant _ _
    · rw [Nat.min_eq_right above]
      exact Nat.pow_dvd_pow 2 (by decide)
  rcases divides with ⟨magnitude, isMagnitude⟩
  refine ⟨(signedCount integer 0).sign * magnitude, isNaN_ofInt integer, ?_⟩
  rw [level_ofInt, rounded, isMagnitude, signedCount_integer (_ * _), Nat.mul_comm,
    Int.natCast_mul, Int.mul_assoc]

theorem unpack_infinite (number : double.isNaN = false) (infinite : ¬double.isFinite) :
    ∃ sign, double.toModel.unpack = .infinity sign := by
  change double.toModel.unpack.isNaN = false at number
  change ¬double.toModel.unpack.isFinite = true at infinite
  cases equal : double.toModel.unpack with
  | notANumber =>
      rw [equal] at number
      cases number
  | infinity sign => exact ⟨sign, rfl⟩
  | zero sign =>
      rw [equal] at infinite
      exact absurd rfl infinite
  | finite sign mantissa exponent positive =>
      rw [equal] at infinite
      exact absurd rfl infinite

theorem Holds.isFinite {bits : Nat} (holds : Holds double integer)
    (small : integer.natAbs < 2 ^ bits) (fits : bits ≤ 1024) : double.isFinite := by
  by_contra infinite
  rcases unpack_infinite holds.number infinite with ⟨sign, isInfinity⟩
  have magnitude : (Double.level double).natAbs = top := by
    rw [Double.level, isInfinity]
    exact natAbs_apply sign top
  have below : integer.natAbs * 2 ^ oneBits < 2 ^ bits * 2 ^ oneBits :=
    Nat.mul_lt_mul_of_pos_right small (Nat.two_pow_pos _)
  have above := count_le_top (Nat.le_refl (2 ^ bits)) fits
  rw [holds.level, natAbs_signedCount, count_integer] at magnitude
  rw [count_integer] at above
  omega

theorem Holds.of_infinity {other : Float} (holds : Holds double integer) {sign : Sign}
    (infinite : double.toModel.unpack = .infinity sign)
    (packed : other = .ofModel (Float.Model.pack (.infinity sign))) : Holds other integer := by
  have same : other.toModel.unpack = double.toModel.unpack := by
    rw [packed, infinite]
    exact unpack_pack_infinity sign
  refine ⟨(congrArg UnpackedFloat.isNaN same).trans holds.number, ?_⟩
  exact (congrArg levelOf same).trans holds.level

/-- A step by one ends at the rounded sum; only an infinity stays where it is. -/
theorem Holds.exists_add_unit (holds : Holds double integer) (sign : Sign) :
    ∃ sum, Holds (double + Float.ofInt (sign.apply 1)) sum ∧
      (sum = integer ∨ Holds (Float.ofInt (integer + sign.apply 1)) sum) := by
  by_cases finite : double.isFinite
  · rw [holds.add_unit finite]
    rcases exists_holds_ofInt (integer + sign.apply 1) with ⟨sum, held⟩
    exact ⟨sum, held, .inr held⟩
  · rcases unpack_infinite holds.number finite with ⟨infiniteSign, infinite⟩
    refine ⟨integer, holds.of_infinity infinite ?_, .inl rfl⟩
    change Float.ofModel (Float.Model.pack (UnpackedFloat.add .binary64 double.toModel.unpack
      (Float.ofInt (sign.apply 1)).toModel.unpack)) = _
    rw [infinite, unpack_ofInt_unit]
    rfl

theorem Holds.exists_sub_unit (holds : Holds double integer) (sign : Sign) :
    ∃ difference, Holds (double - Float.ofInt (sign.apply 1)) difference ∧
      (difference = integer ∨ Holds (Float.ofInt (integer - sign.apply 1)) difference) := by
  by_cases finite : double.isFinite
  · rw [holds.sub_unit finite]
    rcases exists_holds_ofInt (integer - sign.apply 1) with ⟨difference, held⟩
    exact ⟨difference, held, .inr held⟩
  · rcases unpack_infinite holds.number finite with ⟨infiniteSign, infinite⟩
    refine ⟨integer, holds.of_infinity infinite ?_, .inl rfl⟩
    change Float.ofModel (Float.Model.pack (UnpackedFloat.sub .binary64 double.toModel.unpack
      (Float.ofInt (sign.apply 1)).toModel.unpack)) = _
    rw [infinite, unpack_ofInt_unit]
    rfl

theorem Holds.le_of_le {held limit : Int} (holds : Holds (Float.ofInt integer) held)
    (exact : Exact limit) (le : limit ≤ integer) : limit ≤ held :=
  ((holds_ofInt exact).le_iff holds).mp (ofInt_le_ofInt le)

theorem Holds.ge_of_ge {held limit : Int} (holds : Holds (Float.ofInt integer) held)
    (exact : Exact limit) (le : integer ≤ limit) : held ≤ limit :=
  (holds.le_iff (holds_ofInt exact)).mp (ofInt_le_ofInt le)

theorem isFinite_ofInt {bits : Nat} (small : integer.natAbs ≤ 2 ^ bits) (fits : bits < 1024) :
    (Float.ofInt integer).isFinite := by
  rcases exists_holds_ofInt integer with ⟨held, holds⟩
  have least := holds.le_of_le (exact_two_pow .negative bits (by omega)) (by
    change -(2 ^ bits : Nat) ≤ integer
    omega)
  have greatest := holds.ge_of_ge (exact_two_pow .positive bits (by omega)) (by
    change integer ≤ (2 ^ bits : Nat)
    omega)
  change -(2 ^ bits : Nat) ≤ held at least
  change held ≤ (2 ^ bits : Nat) at greatest
  have next : 2 ^ bits < 2 ^ (bits + 1) := Nat.pow_lt_pow_right (by decide) (by omega)
  exact holds.isFinite (show held.natAbs < 2 ^ (bits + 1) by omega) (by omega)

theorem holds_pred_two_pow {bits : Nat} (wide : 53 < bits) (fits : bits ≤ 1024) :
    Holds (Float.ofInt ((2 ^ bits : Nat) - 1)) (2 ^ bits : Nat) := by
  have wider : 2 ^ 1 ≤ 2 ^ bits := Nat.pow_le_pow_right (by decide) (by omega)
  have magnitude : (((2 ^ bits : Nat) : Int) - 1).natAbs = 2 ^ bits - 1 := by omega
  have le : 2 ^ bits * 2 ^ oneBits ≤ top := by
    rw [← count_integer]
    exact count_le_top (Nat.le_refl _) fits
  have counts : 0 < signedCount ((2 ^ bits : Nat) - 1) 0 :=
    Int.mul_pos (by omega) (Int.pow_pos (by decide))
  refine ⟨isNaN_ofInt _, ?_⟩
  rw [level_ofInt, rounded_of_pos counts, natAbs_signedCount, magnitude, count_integer,
    significant_pred_two_pow wide, Nat.min_eq_left le, signedCount_integer, Int.natCast_mul]

theorem not_exact_pred_two_pow {bits : Nat} (wide : 53 < bits) (fits : bits ≤ 1024) :
    ¬Exact ((2 ^ bits : Nat) - 1) := by
  intro exact
  have same := (holds_ofInt exact).level.symm.trans (holds_pred_two_pow wide fits).level
  have equal := signedCount_inj same
  omega

end

end CanCodec.Double
