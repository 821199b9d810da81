import CanCodec.C.Conversion
import CanCodec.Proofs.C.Arithmetic
import CanCodec.Proofs.Double.Special
import CanCodec.Proofs.Double.Whole

/-! # What C does with doubles

A constant is the double it is written from, operations round to the nearest double, and
comparisons with NaN are false. What C leaves undefined has no value: a variable read before
it is set, and a cast of a double whose whole part the integer type does not have. -/

namespace CanCodec

def Primitive.range (type : Primitive) : RawRange := .ofBits type.bits type.signed

namespace C

/-! ## Operations -/

/-- The nearest whole number; a half goes away from zero. A result of zero has the sign of
the argument. -/
def roundAway (double : Float) : Float :=
  if nearestInt double = 0 then double * 0 else Float.ofInt (nearestInt double)

def wholeNatural (mantissa : Nat) (exponent : Int) : Nat :=
  if exponent < 0 then mantissa / 2 ^ exponent.natAbs else mantissa * 2 ^ exponent.natAbs

def wholePart? (double : Float) : Option Int :=
  match double.toModel.unpack with
  | .zero _ => some 0
  | .finite sign mantissa exponent _ => some (sign.apply (wholeNatural mantissa exponent))
  | _ => none

def Value.of? (type : Primitive) (integer : Int) : Option Value :=
  if type.range.contains integer then some (.ofInt type integer) else none

def castTo (type : Primitive) (double : Float) : Option Value :=
  (wholePart? double).bind (Value.of? type)

def IntegerLiteral.value? : IntegerLiteral → Option Value
  | .min64 => Value.of? ⟨.w64, true⟩ (-2 ^ 63)
  | .min32 => Value.of? ⟨.w32, true⟩ (-2 ^ 31)
  | .signed value long => Value.of? ⟨if long then .w64 else .w32, true⟩ value
  | .unsigned value long => Value.of? ⟨if long then .w64 else .w32, false⟩ value

/-! ## Steps -/

def stepSize (linear : Linear Float) : Float := if 0 < linear.scale then 1 else -1

/-- Run the steps of a function that encodes a physical value, then cast the raw value to
the type that is returned. -/
def runEncoder (type : Primitive) :
    List EncoderStep → (value : Float) → (raw : Option Float) → Option Value
  | [], _, raw => raw.bind (castTo type)
  | .raise bound :: rest, value, raw =>
      runEncoder type rest (if value < bound then bound else value) raw
  | .lower bound :: rest, value, raw =>
      runEncoder type rest (if value > bound then bound else value) raw
  | .round linear :: rest, value, _ =>
      runEncoder type rest value (some (roundAway ((value - linear.offset) / linear.scale)))
  | .stepDown linear bound :: rest, value, raw =>
      raw.bind fun raw => runEncoder type rest value <| some <|
        if raw * linear.scale + linear.offset > bound then raw - stepSize linear else raw
  | .stepUp linear bound :: rest, value, raw =>
      raw.bind fun raw => runEncoder type rest value <| some <|
        if raw * linear.scale + linear.offset < bound then raw + stepSize linear else raw
  | .floor limit result :: rest, value, raw =>
      raw.bind fun raw =>
        if raw ≤ limit then result.value?.map fun literal => literal.convert type
        else runEncoder type rest value raw
  | .ceiling limit result :: rest, value, raw =>
      raw.bind fun raw =>
        if raw ≥ limit then result.value?.map fun literal => literal.convert type
        else runEncoder type rest value raw

def encodePhysical (signal : Signal) (value : Float) : Option Value :=
  runEncoder (.ofBits signal.length signal.signed) (encoderSteps signal) value none

/-! ## Integers -/

theorem range_contains_iff {type : Primitive} {integer : Int} :
    type.range.contains integer = true ↔
      if type.signed then
        -(2 : Int) ^ (type.bits - 1) ≤ integer ∧ integer < (2 : Int) ^ (type.bits - 1)
      else 0 ≤ integer ∧ integer < (2 : Int) ^ type.bits := by
  have wide := type.eight_le_bits
  exact RawRange.contains_ofBits_iff (by omega) type.bits_le

theorem Value.toInt_ofInt_of_contains {type : Primitive} {integer : Int}
    (contained : type.range.contains integer = true) : (ofInt type integer).toInt = integer := by
  have wide := type.eight_le_bits
  rw [range_contains_iff] at contained
  rcases type with ⟨width, signed⟩
  change 8 ≤ width.bits at wide
  cases signed with
  | true =>
      change -(2 : Int) ^ (width.bits - 1) ≤ integer ∧ integer < (2 : Int) ^ (width.bits - 1)
        at contained
      exact BitVec.toInt_ofInt_eq_self (w := width.bits) (by omega) contained.1 contained.2
  | false =>
      change 0 ≤ integer ∧ integer < (2 : Int) ^ width.bits at contained
      change ((BitVec.ofInt width.bits integer).toNat : Int) = integer
      have power : ((2 ^ width.bits : Nat) : Int) = (2 : Int) ^ width.bits := Int.natCast_pow 2 _
      rw [BitVec.toNat_ofInt, power, Int.emod_eq_of_lt contained.1 contained.2,
        Int.toNat_of_nonneg contained.1]

theorem Value.exists_of? {type : Primitive} {integer : Int}
    (contained : type.range.contains integer = true) :
    ∃ value, of? type integer = some value ∧ value.toInt = integer := by
  refine ⟨ofInt type integer, ?_, toInt_ofInt_of_contains contained⟩
  rw [of?, if_pos contained]

theorem IntegerLiteral.exists_value? {type : Primitive} {integer : Int}
    (contained : type.range.contains integer = true) :
    ∃ value, (ofValue type integer).value? = some value ∧ value.toInt = integer := by
  rw [range_contains_iff] at contained
  rcases type with ⟨width, signed⟩
  cases signed with
  | true =>
      change -(2 : Int) ^ (width.bits - 1) ≤ integer ∧ integer < (2 : Int) ^ (width.bits - 1)
        at contained
      change ∃ value, (if integer = -(Nat.pow 2 63 : Int) then min64
        else if integer = -(Nat.pow 2 31 : Int) then min32
        else IntegerLiteral.signed integer (32 < width.bits)).value? = some value ∧ _
      split_ifs with least64 least32
      · rw [least64]
        exact Value.exists_of? (by decide)
      · rw [least32]
        exact Value.exists_of? (by decide)
      · apply Value.exists_of?
        rw [range_contains_iff]
        cases width <;> simp [Width.bits, Primitive.bits] at contained ⊢ <;> omega
  | false =>
      change 0 ≤ integer ∧ integer < (2 : Int) ^ width.bits at contained
      apply Value.exists_of?
      rw [range_contains_iff]
      cases width <;> simp [Width.bits, Primitive.bits] at contained ⊢ <;> omega

theorem Value.toInt_convert_of_contains {value : Value} {type : Primitive}
    (contained : type.range.contains value.toInt = true) :
    (value.convert type).toInt = value.toInt :=
  Value.toInt_ofInt_of_contains contained

/-! ## Doubles that hold an integer -/

open Double Float.Model Float.Model.UnpackedFloat

variable {double : Float} {integer : Int}

theorem wholeNatural_of_count {mantissa natural : Nat} {exponent : Int} (low : -1074 ≤ exponent)
    (same : count mantissa exponent = count natural 0) :
    wholeNatural mantissa exponent = natural := by
  rw [count_integer, count] at same
  unfold wholeNatural
  split_ifs with fraction
  · have power : oneBits = exponent.natAbs + (exponent + 1074).toNat := by
      unfold oneBits
      omega
    rw [power, Nat.pow_add, ← Nat.mul_assoc] at same
    rw [Nat.eq_of_mul_eq_mul_right (Nat.two_pow_pos _) same,
      Nat.mul_div_cancel _ (Nat.two_pow_pos _)]
  · have power : (exponent + 1074).toNat = exponent.natAbs + oneBits := by
      unfold oneBits
      omega
    rw [power, Nat.pow_add, ← Nat.mul_assoc] at same
    exact Nat.eq_of_mul_eq_mul_right (Nat.two_pow_pos _) same

theorem wholePart?_of_holds (holds : Holds double integer) (finite : double.isFinite) :
    wholePart? double = some integer := by
  have isUnpacked := unpack_unpacked double.toModel
  have level : levelOf double.toModel.unpack = signedCount integer 0 := holds.level
  have magnitude := congrArg Int.natAbs level
  rw [natAbs_signedCount] at magnitude
  change double.toModel.unpack.isFinite = true at finite
  unfold wholePart?
  cases equal : double.toModel.unpack with
  | notANumber =>
      rw [equal] at finite
      cases finite
  | infinity sign =>
      rw [equal] at finite
      cases finite
  | zero sign =>
      rw [equal] at level
      rw [show integer = 0 from (signedCount_inj ((Int.zero_mul _).trans level)).symm]
  | finite sign mantissa exponent positive =>
      rw [equal] at level magnitude isUnpacked
      have counts : count mantissa exponent = count integer.natAbs 0 := by
        rw [← magnitude]
        exact (natAbs_apply sign _).symm
      have whole := wholeNatural_of_count isUnpacked.1.low counts
      have signed : signedCount (sign.apply integer.natAbs) 0 = signedCount integer 0 := by
        rw [signedCount_apply, ← counts]
        exact level
      exact congrArg some (by rw [whole, signedCount_inj signed])

theorem castTo_of_holds {type : Primitive} (holds : Holds double integer)
    (contained : type.range.contains integer = true) :
    ∃ value, castTo type double = some value ∧ value.toInt = integer := by
  have small : integer.natAbs < 2 ^ 65 := by
    have bounds := range_contains_iff.mp contained
    rcases type with ⟨width, signed⟩
    cases width <;> cases signed <;> simp [Primitive.bits, Width.bits] at bounds <;> omega
  rw [castTo, wholePart?_of_holds holds (holds.isFinite small (by decide))]
  exact Value.exists_of? contained

theorem castTo_of_isNaN (type : Primitive) (nan : double.isNaN) : castTo type double = none := by
  rw [castTo, wholePart?, unpack_of_isNaN nan]
  rfl

theorem isNaN_roundAway (nan : double.isNaN) : (roundAway double).isNaN := by
  have nearest : nearestInt double = 0 := by
    rw [nearestInt, unpack_of_isNaN nan]
  rw [roundAway, if_pos nearest]
  exact isNaN_mul nan 0

theorem unpack_roundAway_zero (number : double.isNaN = false) (nearest : nearestInt double = 0) :
    ∃ sign, (roundAway double).toModel.unpack = .zero sign := by
  rw [roundAway, if_pos nearest]
  change ∃ sign, (Float.Model.pack (UnpackedFloat.mul .binary64 double.toModel.unpack
    (.zero .positive))).unpack = .zero sign
  change double.toModel.unpack.isNaN = false at number
  unfold nearestInt at nearest
  cases equal : double.toModel.unpack with
  | notANumber =>
      rw [equal] at number
      cases number
  | infinity sign =>
      rw [equal] at nearest
      have power (bits : Nat) : 0 < ((Nat.pow 2 bits : Nat) : Int) :=
        Int.natCast_pos.mpr (Nat.two_pow_pos bits)
      have infinite := power 1024
      cases sign <;> simp only at nearest <;> omega
  | zero sign => exact ⟨_, unpack_pack_zero _⟩
  | finite sign mantissa exponent positive => exact ⟨_, unpack_pack_zero _⟩

theorem holds_roundAway (number : double.isNaN = false) :
    Holds (roundAway double) (nearestInt double) := by
  by_cases nearest : nearestInt double = 0
  · rcases unpack_roundAway_zero number nearest with ⟨sign, isZero⟩
    rw [nearest]
    refine ⟨congrArg UnpackedFloat.isNaN isZero, ?_⟩
    exact (congrArg levelOf isZero).trans (Int.zero_mul _).symm
  · rw [roundAway, if_neg nearest]
    exact holds_ofInt (exact_nearestInt double)

end C

end CanCodec
