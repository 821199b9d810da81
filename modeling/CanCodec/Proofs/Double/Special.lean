import CanCodec.Proofs.Double.Level

/-! # NaN and the two zeros

What is computed from NaN is NaN. The two zeros are the only doubles that share a level, and
a linear conversion hardly tells them apart. -/

namespace CanCodec.Double

open Float.Model Float.Model.UnpackedFloat

variable {first : Float}

/-! ## NaN -/

theorem isNaN_add (nan : first.isNaN) (second : Float) : (first + second).isNaN := by
  change (Float.Model.pack (UnpackedFloat.add .binary64 first.toModel.unpack _)).unpack.isNaN = true
  rw [unpack_of_isNaN nan, UnpackedFloat.add]
  rfl

theorem isNaN_sub (nan : first.isNaN) (second : Float) : (first - second).isNaN := by
  change (Float.Model.pack (UnpackedFloat.sub .binary64 first.toModel.unpack _)).unpack.isNaN = true
  rw [unpack_of_isNaN nan, UnpackedFloat.sub]
  rfl

theorem isNaN_mul (nan : first.isNaN) (second : Float) : (first * second).isNaN := by
  change (Float.Model.pack (UnpackedFloat.mul .binary64 first.toModel.unpack _)).unpack.isNaN = true
  rw [unpack_of_isNaN nan, UnpackedFloat.mul]
  rfl

theorem isNaN_div (nan : first.isNaN) (second : Float) : (first / second).isNaN := by
  change (Float.Model.pack (UnpackedFloat.div .binary64 first.toModel.unpack _)).unpack.isNaN = true
  rw [unpack_of_isNaN nan, UnpackedFloat.div]
  rfl

/-! ## The two zeros -/

/-- Two doubles that no comparison tells apart. -/
structure Alike (first second : Float) : Prop where
  number : first.isNaN = second.isNaN
  level : level first = level second

theorem Alike.refl (double : Float) : Alike double double := ⟨rfl, rfl⟩

theorem Alike.lt_iff_left {second : Float} (alike : Alike first second) (bound : Float) :
    first < bound ↔ second < bound := by
  cases nan : first.isNaN || bound.isNaN with
  | true =>
      rw [Bool.or_eq_true] at nan
      have other : second.isNaN ∨ bound.isNaN := by rwa [← alike.number]
      exact iff_of_false (not_lt_of_isNaN nan) (not_lt_of_isNaN other)
  | false =>
      rw [Bool.or_eq_false_iff] at nan
      rw [lt_iff_level nan.1 nan.2, lt_iff_level (alike.number ▸ nan.1) nan.2, alike.level]

theorem Alike.lt_iff_right {second : Float} (alike : Alike first second) (bound : Float) :
    bound < first ↔ bound < second := by
  cases nan : bound.isNaN || first.isNaN with
  | true =>
      rw [Bool.or_eq_true] at nan
      have other : bound.isNaN ∨ second.isNaN := by rwa [← alike.number]
      exact iff_of_false (not_lt_of_isNaN nan) (not_lt_of_isNaN other)
  | false =>
      rw [Bool.or_eq_false_iff] at nan
      rw [lt_iff_level nan.1 nan.2, lt_iff_level nan.1 (alike.number ▸ nan.2), alike.level]

theorem alike_add_zero (sign otherSign : Sign) (offset : UnpackedFloat) :
    Alike (.ofModel (Float.Model.pack (UnpackedFloat.add .binary64 (.zero sign) offset)))
      (.ofModel (Float.Model.pack (UnpackedFloat.add .binary64 (.zero otherSign) offset))) := by
  cases offset with
  | notANumber => exact .refl _
  | infinity => exact .refl _
  | finite => exact .refl _
  | zero zeroSign => cases sign <;> cases otherSign <;> cases zeroSign <;> exact ⟨rfl, rfl⟩

theorem linear_eq (double scale offset : Float) : double * scale + offset =
    .ofModel (Float.Model.pack (UnpackedFloat.add .binary64
      (Float.Model.pack (UnpackedFloat.mul .binary64 double.toModel.unpack
        scale.toModel.unpack)).unpack offset.toModel.unpack)) := rfl

theorem alike_linear_zero {second : Float} {sign otherSign : Sign}
    (isZero : first.toModel.unpack = .zero sign) (isOther : second.toModel.unpack = .zero otherSign)
    (scale offset : Float) : Alike (first * scale + offset) (second * scale + offset) := by
  rw [linear_eq, linear_eq, isZero, isOther]
  cases scale.toModel.unpack with
  | notANumber => exact .refl _
  | infinity => exact .refl _
  | zero scaleSign =>
      rw [UnpackedFloat.mul, UnpackedFloat.mul, unpack_pack_zero, unpack_pack_zero]
      exact alike_add_zero ..
  | finite scaleSign =>
      rw [UnpackedFloat.mul, UnpackedFloat.mul, unpack_pack_zero, unpack_pack_zero]
      exact alike_add_zero ..

theorem apply_inj {sign otherSign : Sign} {natural otherNatural : Nat} (positive : 0 < natural)
    (same : sign.apply natural = otherSign.apply otherNatural) :
    sign = otherSign ∧ natural = otherNatural := by
  have magnitudes : natural = otherNatural := by
    rw [← natAbs_apply sign natural, same, natAbs_apply]
  refine ⟨?_, magnitudes⟩
  cases sign <;> cases otherSign <;> simp only [Sign.apply] at same <;> first | rfl | omega

theorem eq_of_levelOf_eq {first second : UnpackedFloat} (firstUnpacked : Unpacked first)
    (secondUnpacked : Unpacked second) (nonzero : levelOf first ≠ 0)
    (same : levelOf first = levelOf second) : first = second := by
  cases first with
  | notANumber => exact absurd rfl nonzero
  | zero sign => exact absurd rfl nonzero
  | infinity sign =>
      cases second with
      | notANumber => exact absurd same nonzero
      | zero otherSign => exact absurd same nonzero
      | infinity otherSign => rw [(apply_inj (Nat.two_pow_pos _) same).1]
      | finite otherSign mantissa exponent positive =>
          have below := count_lt_top secondUnpacked.1 secondUnpacked.2
          have equal := (apply_inj (Nat.two_pow_pos _) same).2
          change top = count mantissa exponent at equal
          omega
  | finite sign mantissa exponent positive =>
      have counted := count_pos positive exponent
      have below := count_lt_top firstUnpacked.1 firstUnpacked.2
      cases second with
      | notANumber => exact absurd same nonzero
      | zero otherSign => exact absurd same nonzero
      | infinity otherSign =>
          have equal := (apply_inj counted same).2
          omega
      | finite otherSign otherMantissa otherExponent otherPositive =>
          rcases apply_inj counted same with ⟨rfl, counts⟩
          exact IsCanonical.unique ⟨_, _, positive, rfl, firstUnpacked.1, counts⟩
            ⟨_, _, otherPositive, rfl, secondUnpacked.1, rfl⟩

theorem exists_zero_of_level (number : first.isNaN = false) (zero : level first = 0) :
    ∃ sign, first.toModel.unpack = .zero sign := by
  have magnitude := congrArg Int.natAbs zero
  rw [level] at magnitude
  change first.toModel.unpack.isNaN = false at number
  cases equal : first.toModel.unpack with
  | notANumber =>
      rw [equal] at number
      cases number
  | zero sign => exact ⟨sign, rfl⟩
  | infinity sign =>
      rw [equal, levelOf, natAbs_apply] at magnitude
      exact absurd magnitude (Nat.ne_of_gt (Nat.two_pow_pos _))
  | finite sign mantissa exponent positive =>
      rw [equal, levelOf, natAbs_apply] at magnitude
      exact absurd magnitude (Nat.ne_of_gt (count_pos positive exponent))

theorem Alike.linear {second : Float} (alike : Alike first second)
    (number : first.isNaN = false) (scale offset : Float) :
    Alike (first * scale + offset) (second * scale + offset) := by
  by_cases zero : Double.level first = 0
  · have otherZero : Double.level second = 0 := alike.level ▸ zero
    rcases exists_zero_of_level number zero with ⟨sign, isZero⟩
    rcases exists_zero_of_level (alike.number ▸ number) otherZero with ⟨otherSign, isOther⟩
    exact alike_linear_zero isZero isOther scale offset
  · rw [linear_eq, linear_eq, eq_of_levelOf_eq (unpack_unpacked _) (unpack_unpacked _) zero
      alike.level]
    exact .refl _

end CanCodec.Double
