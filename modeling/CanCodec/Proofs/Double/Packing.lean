import Mathlib
import CanCodec.Proofs.Double.Significand

/-! # Packed doubles

A double is packed into 64 bits from a sign, a mantissa of 53 bits and an exponent. A finite
double is packed and unpacked without loss as long as its exponent fits.

The lemmas about `Float.Model.UnpackedFloat` come with the whole library only, since
no file of Mathlib imports them. -/

namespace CanCodec.Double

open Float.Model Float.Model.UnpackedFloat

structure Canonical (mantissa : Nat) (exponent : Int) : Prop where
  narrow : mantissa < 2 ^ 53
  low : -1074 ≤ exponent
  full : 2 ^ 52 ≤ mantissa ∨ exponent = -1074

def Unpacked : UnpackedFloat → Prop
  | .finite _ mantissa exponent _ => Canonical mantissa exponent ∧ exponent ≤ 971
  | _ => True

/-! ## Parts of a packed double -/

theorem toNat_implicitBit (fraction : BitVec 52) :
    (1#1 ++ fraction).toNat = 2 ^ 52 + fraction.toNat := by
  rw [BitVec.toNat_append, ← Nat.shiftLeft_add_eq_or_of_lt fraction.isLt]
  rfl

theorem implicitBit_ofNat {mantissa : Nat} (full : 2 ^ 52 ≤ mantissa)
    (narrow : mantissa < 2 ^ 53) : (1#1 ++ BitVec.ofNat 52 mantissa).toNat = mantissa := by
  rw [toNat_implicitBit, BitVec.toNat_ofNat]
  omega

theorem unpack_packComponents (sign : Sign) (exponent : BitVec 11) (mantissa : BitVec 52) :
    UnpackedFloat.unpack .binary64 (packComponents .binary64 sign exponent mantissa) =
      if exponent = -1#11 then
        if mantissa = 0#52 then .infinity sign else .notANumber
      else if exponent = 0#11 then
        if nonzero : mantissa = 0#52 then .zero sign
        else .finite sign mantissa.toNat (-1074)
          (by simpa [BitVec.toNat_pos, BitVec.pos_iff_ne_zero])
      else .finite sign (1#1 ++ mantissa).toNat (exponent.toNat - 1075)
        (by rw [toNat_implicitBit]; omega) := by
  unfold UnpackedFloat.unpack
  simp only [unpackMantissa_packComponents, unpackExponent_packComponents,
    unpackSign_packComponents, Sign.ofBitVec_toBitVec]
  split_ifs with top none least
  · rfl
  · rfl
  · rfl
  · subst least
    rfl
  · rfl

theorem unpack_unpacked (model : Float.Model) : Unpacked model.unpack := by
  have fraction := (@unpackMantissa .binary64 model.toBits.toBitVec).isLt
  have power := (@unpackExponent .binary64 model.toBits.toBitVec).isLt
  unfold Float.Model.unpack UnpackedFloat.unpack
  dsimp only
  split_ifs with top none least none
  · trivial
  · trivial
  · trivial
  · -- The exponent field is zero, so the mantissa has no implicit bit.
    rw [least]
    have small : (@unpackMantissa .binary64 model.toBits.toBitVec).toNat < 2 ^ 52 := fraction
    exact ⟨⟨by omega, by decide, .inr (by decide)⟩, by decide⟩
  · have mantissa := toNat_implicitBit (@unpackMantissa .binary64 model.toBits.toBitVec)
    have positive := BitVec.toNat_ne.mp least
    have inner := BitVec.toNat_ne.mp top
    change _ < 2 ^ 52 at fraction
    change _ < 2 ^ 11 at power
    change _ ≠ 0 at positive
    change _ ≠ 2 ^ 11 - 1 at inner
    change Canonical _ ((_ : Int) - 1075) ∧ (_ : Int) - 1075 ≤ 971
    exact ⟨⟨by omega, by omega, .inl (by omega)⟩, by omega⟩

theorem unpack_pack_zero (sign : Sign) :
    (Float.Model.pack (.zero sign)).unpack = .zero sign :=
  unpack_packedZero

theorem unpack_pack_infinity (sign : Sign) :
    (Float.Model.pack (.infinity sign)).unpack = .infinity sign := by
  cases sign <;> rfl

theorem pack_finite (sign : Sign) {mantissa : Nat} {exponent : Int} (positive : 0 < mantissa)
    (canonical : Canonical mantissa exponent) :
    UnpackedFloat.pack .binary64 (.finite sign mantissa exponent positive) =
      if 971 < exponent then packedInfinity .binary64 sign
      else if 2 ^ 52 ≤ mantissa then
        packComponents .binary64 sign (BitVec.ofNat 11 (exponent + 1075).toNat)
          (BitVec.ofNat 52 mantissa)
      else packComponents .binary64 sign 0#11 (BitVec.ofNat 52 mantissa) := by
  have low := canonical.low
  have overflows : 2 ^ 11 ≤ (exponent + 1023 + 52).toNat + 1 ↔ 971 < exponent := by omega
  have biased : (exponent + 1023 + 52).toNat = (exponent + 1075).toNat := by omega
  have normal : mantissa.log2 + 1 = 53 ↔ 2 ^ 52 ≤ mantissa := by
    have logarithm := Nat.log2_eq_iff (k := 52) (Nat.ne_of_gt positive)
    have narrow := canonical.narrow
    omega
  change (if 2 ^ 11 ≤ (exponent + 1023 + 52).toNat + 1 then packedInfinity .binary64 sign
    else if mantissa.log2 + 1 = 53 then
      packComponents .binary64 sign (BitVec.ofNat 11 (exponent + 1023 + 52).toNat)
        (BitVec.ofNat 52 mantissa)
    else packComponents .binary64 sign 0#11 (BitVec.ofNat 52 mantissa)) = _
  rw [biased] at overflows ⊢
  simp only [overflows, normal]

theorem pack_overflow (sign : Sign) {mantissa : Nat} {exponent : Int} (positive : 0 < mantissa)
    (canonical : Canonical mantissa exponent) (overflows : 971 < exponent) :
    Float.Model.pack (.finite sign mantissa exponent positive) =
      Float.Model.pack (.infinity sign) := by
  have same : UnpackedFloat.pack .binary64 (.finite sign mantissa exponent positive) =
      UnpackedFloat.pack .binary64 (.infinity sign) := by
    rw [pack_finite sign positive canonical, if_pos overflows]
    rfl
  unfold Float.Model.pack
  simp only [same]

theorem unpack_pack_finite (sign : Sign) {mantissa : Nat} {exponent : Int}
    (positive : 0 < mantissa) (canonical : Canonical mantissa exponent) :
    (Float.Model.pack (.finite sign mantissa exponent positive)).unpack =
      if exponent ≤ 971 then .finite sign mantissa exponent positive else .infinity sign := by
  by_cases fits : exponent ≤ 971
  · rcases canonical with ⟨narrow, low, full⟩
    change UnpackedFloat.unpack .binary64 (UnpackedFloat.pack .binary64 _) = _
    rw [pack_finite sign positive ⟨narrow, low, full⟩, if_neg (by omega), if_pos fits]
    by_cases normal : 2 ^ 52 ≤ mantissa
    · have power : (BitVec.ofNat 11 (exponent + 1075).toNat).toNat = (exponent + 1075).toNat := by
        rw [BitVec.toNat_ofNat]
        omega
      have inner : BitVec.ofNat 11 (exponent + 1075).toNat ≠ -1#11 := by
        rw [BitVec.toNat_ne, power]
        change _ ≠ 2047
        omega
      have nonzero : BitVec.ofNat 11 (exponent + 1075).toNat ≠ 0#11 := by
        rw [BitVec.toNat_ne, power]
        change _ ≠ 0
        omega
      rw [if_pos normal, unpack_packComponents]
      simp only [inner, nonzero, if_false, implicitBit_ofNat normal narrow, power]
      congr 1
      omega
    · obtain rfl : exponent = -1074 := by omega
      have fraction : (BitVec.ofNat 52 mantissa).toNat = mantissa := by
        rw [BitVec.toNat_ofNat]
        omega
      have nonzero : BitVec.ofNat 52 mantissa ≠ 0#52 := by
        rw [BitVec.toNat_ne, fraction]
        exact Nat.ne_of_gt positive
      have inner : 0#11 ≠ -1#11 := by decide
      rw [if_neg normal, unpack_packComponents]
      simp only [inner, nonzero, if_false, if_true, dite_false, fraction]
  · rw [if_neg fits, pack_overflow sign positive canonical (by omega)]
    exact unpack_pack_infinity sign

end CanCodec.Double
