import CanCodec.Proofs.Double.Packing

/-! # Bits of a double

A double is determined by what it unpacks to. The last bit of its pattern is the last bit of
its mantissa, and negation changes its sign only. -/

namespace CanCodec.Double

open Float.Model Float.Model.UnpackedFloat

/-! ## Unpacking loses nothing -/

theorem packComponents_unpack (bits : BitVec 64) :
    packComponents .binary64 (.ofBitVec (@unpackSign .binary64 bits))
      (@unpackExponent .binary64 bits) (@unpackMantissa .binary64 bits) = bits := by
  have sign (bit : BitVec 1) : (Sign.ofBitVec bit).toBitVec = bit := by
    rcases BitVec.eq_zero_or_eq_one bit with rfl | rfl <;> rfl
  simp only [packComponents, sign, unpackSign, unpackExponent, unpackMantissa, BitVec.extractLsb]
  ext index inside
  simp only [BitVec.getElem_append, BitVec.getElem_cast, BitVec.getElem_extractLsb']
  split_ifs with mantissa exponent <;> rw [← BitVec.getLsbD_eq_getElem] <;> congr 1 <;> omega

theorem pack_unpack_bits {bits : BitVec 64} (valid : Format.binary64.Valid bits) :
    UnpackedFloat.pack .binary64 (UnpackedFloat.unpack .binary64 bits) = bits := by
  obtain ⟨sign, exponent, mantissa, rfl⟩ : ∃ sign exponent mantissa,
      packComponents .binary64 sign exponent mantissa = bits :=
    ⟨_, _, _, packComponents_unpack bits⟩
  have fraction : mantissa.toNat < 2 ^ 52 := mantissa.isLt
  rw [unpack_packComponents]
  split_ifs with top none least none
  · rw [top, none]
    rfl
  · refine (valid.eq_packedNaN ?_ ?_).symm
    · rw [unpackExponent_packComponents, top]
    · rwa [unpackMantissa_packComponents]
  · rw [least, none]
    rfl
  · have canonical : Canonical mantissa.toNat (-1074) := ⟨by omega, le_rfl, .inr rfl⟩
    rw [pack_finite sign _ canonical, if_neg (by decide), if_neg (by omega), BitVec.ofNat_toNat,
      BitVec.setWidth_eq, least]
  · have power := exponent.isLt
    have positive := BitVec.toNat_ne.mp least
    have inner := BitVec.toNat_ne.mp top
    change _ < 2 ^ 11 at power
    change _ ≠ 0 at positive
    change _ ≠ 2 ^ 11 - 1 at inner
    have filled := toNat_implicitBit mantissa
    have canonical : Canonical (1#1 ++ mantissa).toNat ((exponent.toNat : ℤ) - 1075) :=
      ⟨by omega, by omega, .inl (by omega)⟩
    have biased : ((exponent.toNat : ℤ) - 1075 + 1075).toNat = exponent.toNat := by omega
    have shortened : BitVec.ofNat 52 (1#1 ++ mantissa).toNat = mantissa := by
      rw [filled]
      apply BitVec.eq_of_toNat_eq
      rw [BitVec.toNat_ofNat]
      omega
    rw [pack_finite sign _ canonical, if_neg (by omega), if_pos (by omega), biased, shortened,
      BitVec.ofNat_toNat, BitVec.setWidth_eq]

theorem pack_unpack (model : Float.Model) : Float.Model.pack model.unpack = model := by
  rcases model with ⟨bits, valid⟩
  have same := pack_unpack_bits valid
  unfold Float.Model.pack Float.Model.unpack
  simp only [same]

theorem eq_of_unpack_eq {first second : Float}
    (same : first.toModel.unpack = second.toModel.unpack) : first = second := by
  have models : first.toModel = second.toModel := by
    rw [← pack_unpack first.toModel, same, pack_unpack]
  cases first
  cases second
  exact congrArg Float.ofModel models

theorem toBits_inj {first second : Float} (same : first.toBits = second.toBits) :
    first = second := by
  rcases first with ⟨⟨bits, valid⟩⟩
  rcases second with ⟨⟨otherBits, otherValid⟩⟩
  change bits = otherBits at same
  subst same
  rfl

/-! ## Negation -/

theorem unpack_neg (double : Float) : (-double).toModel.unpack = double.toModel.unpack.neg := by
  have isUnpacked := unpack_unpacked double.toModel
  change (Float.Model.pack double.toModel.unpack.neg).unpack = _
  cases unpacked : double.toModel.unpack with
  | notANumber => rfl
  | infinity sign => exact unpack_pack_infinity (-sign)
  | zero sign => exact unpack_pack_zero (-sign)
  | finite sign mantissa exponent positive =>
      rw [unpacked] at isUnpacked
      exact (unpack_pack_finite (-sign) positive isUnpacked.1).trans (if_pos isUnpacked.2)

theorem neg_neg_double (double : Float) : - -double = double := by
  apply eq_of_unpack_eq
  rw [unpack_neg, unpack_neg]
  cases double.toModel.unpack with
  | notANumber => rfl
  | infinity sign | zero sign | finite sign => cases sign <;> rfl

/-! ## The last bit -/

theorem toNat_packComponents_mod_two (sign : Sign) (exponent : BitVec 11) (mantissa : BitVec 52) :
    (packComponents .binary64 sign exponent mantissa).toNat % 2 = mantissa.toNat % 2 := by
  change ((sign.toBitVec ++ exponent) ++ mantissa).toNat % 2 = _
  rw [BitVec.toNat_append, ← Nat.shiftLeft_add_eq_or_of_lt mantissa.isLt, Nat.shiftLeft_eq]
  omega

theorem toNat_toBits (double : Float) :
    double.toBits.toNat = (UnpackedFloat.pack .binary64 double.toModel.unpack).toNat :=
  congrArg BitVec.toNat (pack_unpack_bits double.toModel.valid).symm

section

variable {double : Float} {sign : Sign}

theorem toBits_zero (unpacked : double.toModel.unpack = .zero sign) :
    double.toBits.toNat % 2 = 0 := by
  rw [toNat_toBits, unpacked]
  exact toNat_packComponents_mod_two sign 0 0

theorem toBits_infinity (unpacked : double.toModel.unpack = .infinity sign) :
    double.toBits.toNat % 2 = 0 := by
  rw [toNat_toBits, unpacked]
  exact toNat_packComponents_mod_two sign _ 0

theorem toBits_finite {mantissa : Nat} {exponent : Int} {positive : 0 < mantissa}
    (unpacked : double.toModel.unpack = .finite sign mantissa exponent positive) :
    double.toBits.toNat % 2 = mantissa % 2 := by
  have isUnpacked := unpack_unpacked double.toModel
  have shortened : (BitVec.ofNat 52 mantissa).toNat % 2 = mantissa % 2 := by
    rw [BitVec.toNat_ofNat]
    omega
  rw [unpacked] at isUnpacked
  rw [toNat_toBits, unpacked, pack_finite sign positive isUnpacked.1,
    if_neg (Int.not_lt.mpr isUnpacked.2)]
  split_ifs <;> rw [toNat_packComponents_mod_two, shortened]

end

end CanCodec.Double
