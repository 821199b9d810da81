import CanCodec.Proofs.C.Evaluation

/-! # Arithmetic of C integers

Generated code computes with nonnegative integers. A value is followed through promotions
and conversions as the integer it denotes. -/

namespace CanCodec

namespace Primitive

theorem eight_le_bits (type : Primitive) : 8 ≤ type.bits := by
  rcases type with ⟨width, signed⟩
  change 8 ≤ width.bits
  cases width <;> decide

theorem bits_le (type : Primitive) : type.bits ≤ 64 := by
  rcases type with ⟨width, signed⟩
  change width.bits ≤ 64
  cases width <;> decide

theorem le_bits_ofBits {length : Nat} (narrow : length ≤ 64) (signed : Bool) :
    length ≤ (ofBits length signed).bits := by
  rw [ofBits, bits]
  dsimp only
  split_ifs with eight sixteen thirtyTwo
  · exact eight
  · exact sixteen
  · exact thirtyTwo
  · exact narrow

theorem valueBits_le_bits (type : Primitive) : type.valueBits ≤ type.bits := by
  rw [valueBits]
  split <;> omega

theorem valueBits_le_common_left (left right : Primitive) :
    left.valueBits ≤ (left.common right).valueBits := by
  rcases left with ⟨leftWidth, leftSigned⟩
  rcases right with ⟨rightWidth, rightSigned⟩
  cases leftWidth <;> cases rightWidth <;> cases leftSigned <;> cases rightSigned <;> decide

theorem valueBits_le_common_right (left right : Primitive) :
    right.valueBits ≤ (left.common right).valueBits := by
  rcases left with ⟨leftWidth, leftSigned⟩
  rcases right with ⟨rightWidth, rightSigned⟩
  cases leftWidth <;> cases rightWidth <;> cases leftSigned <;> cases rightSigned <;> decide

end Primitive

namespace C

namespace Value

/-! ## Conversions -/

theorem toInt_ofInt {type : Primitive} {natural : Nat} (small : natural < 2 ^ type.valueBits) :
    (ofInt type natural).toInt = natural := by
  have positive := type.eight_le_bits
  rcases type with ⟨width, signed⟩
  cases signed with
  | true =>
      change natural < 2 ^ (width.bits - 1) at small
      change 8 ≤ width.bits at positive
      apply BitVec.toInt_ofInt_eq_self (w := width.bits) (by omega)
      · have power := Int.pow_pos (n := 2) (m := width.bits - 1) (by decide)
        omega
      · exact_mod_cast small
  | false =>
      change natural < 2 ^ width.bits at small
      change ((BitVec.ofNat width.bits natural).toNat : Int) = natural
      rw [BitVec.toNat_ofNat, Nat.mod_eq_of_lt small]

theorem lt_of_toInt_eq {value : Value} {natural : Nat} (denotes : value.toInt = natural) :
    natural < 2 ^ value.type.valueBits := by
  rcases value with ⟨⟨width, signed⟩, bits⟩
  cases signed with
  | true =>
      change bits.toInt = natural at denotes
      have below := bits.toInt_lt
      rw [denotes] at below
      exact_mod_cast below
  | false =>
      change (bits.toNat : Int) = natural at denotes
      rw [← Int.ofNat.inj denotes]
      exact bits.isLt

theorem bitsAs_of_toInt_eq {value : Value} {natural : Nat} (denotes : value.toInt = natural)
    (type : Primitive) : value.bitsAs type = BitVec.ofNat type.bits natural := by
  rw [bitsAs, denotes, BitVec.ofInt_natCast]

theorem bitsAs_type (value : Value) : value.bitsAs value.type = value.bits := by
  rcases value with ⟨⟨width, signed⟩, bits⟩
  cases signed with
  | true => exact BitVec.ofInt_toInt
  | false => exact (BitVec.ofNat_toNat _ _).trans (BitVec.setWidth_eq _)

theorem convert_type (value : Value) : value.convert value.type = value := by
  rw [convert, bitsAs_type]

theorem toInt_unsigned (width : Width) (bits : BitVec width.bits) :
    (unsigned width bits).toInt = bits.toNat := rfl

theorem convert_unsigned {value : Value} {width : Width} {bits : BitVec width.bits}
    (denotes : value.toInt = bits.toNat) :
    value.convert (unsignedType width) = unsigned width bits := by
  have same : value.bitsAs (unsignedType width) = bits := by
    rw [bitsAs_of_toInt_eq denotes]
    exact (BitVec.ofNat_toNat _ bits).trans (BitVec.setWidth_eq bits)
  rw [convert, same]
  rfl

theorem convert_ofInt {narrow wide : Primitive} (le : narrow.bits ≤ wide.bits) (integer : Int) :
    (ofInt wide integer).convert narrow = ofInt narrow integer := by
  have reduced := setWidth_ofInt_of_le le (ofInt wide integer).toInt
  have whole := bitsAs_type (ofInt wide integer)
  change BitVec.ofInt wide.bits (ofInt wide integer).toInt = BitVec.ofInt wide.bits integer at whole
  rw [whole, setWidth_ofInt_of_le le] at reduced
  rw [convert, bitsAs, ← reduced]
  rfl

theorem promote_of_toInt_eq {value : Value} {natural : Nat} (denotes : value.toInt = natural) :
    value.promote.toInt = natural := by
  have small := lt_of_toInt_eq denotes
  rw [promote]
  split
  next narrow =>
    rw [convert, bitsAs, denotes]
    apply toInt_ofInt
    have le : value.type.valueBits ≤ intType.valueBits := by
      have below := value.type.valueBits_le_bits
      change value.type.valueBits ≤ 31
      omega
    exact Nat.lt_of_lt_of_le small (Nat.pow_le_pow_right (by decide) le)
  next => exact denotes

/-! ## Bitwise operations -/

theorem lt_combinedType_left {left : Value} {natural : Nat} (denotes : left.toInt = natural)
    (right : Value) : natural < 2 ^ (left.combinedType right).valueBits :=
  Nat.lt_of_lt_of_le (lt_of_toInt_eq (promote_of_toInt_eq denotes))
    (Nat.pow_le_pow_right (by decide) (Primitive.valueBits_le_common_left _ _))

theorem lt_combinedType_right {right : Value} {natural : Nat} (left : Value)
    (denotes : right.toInt = natural) : natural < 2 ^ (left.combinedType right).valueBits :=
  Nat.lt_of_lt_of_le (lt_of_toInt_eq (promote_of_toInt_eq denotes))
    (Nat.pow_le_pow_right (by decide) (Primitive.valueBits_le_common_right _ _))

end Value

theorem value?_literal (constant : Constant) (small : constant.value < 2 ^ 32)
    (short : constant.long = false) :
    ∃ value, constant.value? = some value ∧ value.toInt = constant.value := by
  refine ⟨_, if_pos ⟨small, short⟩, ?_⟩
  exact Value.toInt_ofInt small

namespace Operator

section

variable {left right : Value} {first second : Nat}

theorem apply_and (leftDenotes : left.toInt = first) (rightDenotes : right.toInt = second) :
    ∃ result, and.apply left right = some result ∧ result.toInt = (first &&& second : Nat) := by
  refine ⟨_, rfl, ?_⟩
  rw [Value.bitsAs_of_toInt_eq (Value.promote_of_toInt_eq leftDenotes),
    Value.bitsAs_of_toInt_eq (Value.promote_of_toInt_eq rightDenotes), ← BitVec.ofNat_and]
  apply Value.toInt_ofInt
  exact Nat.lt_of_le_of_lt Nat.and_le_left (Value.lt_combinedType_left leftDenotes right)

theorem apply_or (leftDenotes : left.toInt = first) (rightDenotes : right.toInt = second) :
    ∃ result, or.apply left right = some result ∧ result.toInt = (first ||| second : Nat) := by
  refine ⟨_, rfl, ?_⟩
  rw [Value.bitsAs_of_toInt_eq (Value.promote_of_toInt_eq leftDenotes),
    Value.bitsAs_of_toInt_eq (Value.promote_of_toInt_eq rightDenotes), ← BitVec.ofNat_or]
  apply Value.toInt_ofInt
  exact Nat.or_lt_two_pow (Value.lt_combinedType_left leftDenotes right)
    (Value.lt_combinedType_right left rightDenotes)

theorem apply_notEqual (leftDenotes : left.toInt = first) (rightDenotes : right.toInt = second) :
    ∃ result, notEqual.apply left right = some result ∧ (result.toInt = 0 ↔ first = second) := by
  refine ⟨_, rfl, ?_⟩
  have leftSmall := Value.lt_combinedType_left leftDenotes right
  have rightSmall := Value.lt_combinedType_right left rightDenotes
  rw [Value.bitsAs_of_toInt_eq (Value.promote_of_toInt_eq leftDenotes),
    Value.bitsAs_of_toInt_eq (Value.promote_of_toInt_eq rightDenotes)]
  have same : BitVec.ofNat (left.combinedType right).bits first =
      BitVec.ofNat (left.combinedType right).bits second ↔ first = second := by
    have le := Nat.pow_le_pow_right (n := 2) (by decide)
      (left.combinedType right).valueBits_le_bits
    rw [← BitVec.toNat_inj, BitVec.toNat_ofNat, BitVec.toNat_ofNat,
      Nat.mod_eq_of_lt (by omega), Nat.mod_eq_of_lt (by omega)]
  split
  next equal => exact ⟨fun _ => same.mp equal, fun _ => rfl⟩
  next different =>
    constructor
    · intro zero
      cases zero
    · intro equal
      exact absurd (same.mpr equal) different

end

end Operator

/-! ## Shifts -/

namespace Direction

def move {width : Nat} (direction : Direction) (bits : BitVec width) (amount : Nat) :
    BitVec width :=
  match direction with
  | .left => bits <<< amount
  | .right => bits >>> amount

theorem getLsbD_move_iff {width index : Nat} (direction : Direction) (bits : BitVec width)
    (amount : Nat) (within : index < width) :
    (direction.move bits amount).getLsbD index = true ↔
      ∃ source, bits.getLsbD source = true ∧
        match direction with
        | .left => index = source + amount
        | .right => source = index + amount := by
  cases direction with
  | left =>
      rw [move, BitVec.getLsbD_shiftLeft]
      simp only [within, decide_true, Bool.true_and, Bool.and_eq_true, Bool.not_eq_true',
        decide_eq_false_iff_not]
      constructor
      · intro moved
        exact ⟨index - amount, moved.2, by omega⟩
      · intro moved
        rcases moved with ⟨source, set, fromBelow⟩
        have sameSource : index - amount = source := by omega
        rw [sameSource]
        exact ⟨by omega, set⟩
  | right =>
      rw [move, BitVec.getLsbD_ushiftRight]
      constructor
      · intro moved
        exact ⟨amount + index, moved, Nat.add_comm amount index⟩
      · intro moved
        rcases moved with ⟨source, set, fromAbove⟩
        rw [Nat.add_comm amount index, ← fromAbove]
        exact set

def moveNat (direction : Direction) (natural amount : Nat) : Nat :=
  match direction with
  | .left => natural * 2 ^ amount
  | .right => natural / 2 ^ amount

theorem ofNat_moveNat {narrow wide : Nat} (le : narrow ≤ wide) (direction : Direction)
    (bits : BitVec wide) (amount : Nat) :
    BitVec.ofNat narrow (direction.moveNat bits.toNat amount) =
      (direction.move bits amount).setWidth narrow := by
  apply BitVec.eq_of_toNat_eq
  rw [BitVec.toNat_ofNat, BitVec.toNat_setWidth]
  cases direction with
  | left =>
      rw [moveNat, move, BitVec.toNat_shiftLeft, Nat.shiftLeft_eq,
        Nat.mod_mod_of_dvd _ (Nat.pow_dvd_pow 2 le)]
  | right => rw [moveNat, move, BitVec.toNat_ushiftRight, Nat.shiftRight_eq_div_pow]

end Direction

namespace Value

theorem shift_of_toInt_eq {value : Value} {natural amount : Nat} (direction : Direction)
    (denotes : value.toInt = natural) (within : amount < value.type.bits)
    (fits : value.type.signed = true → natural * 2 ^ amount < 2 ^ value.type.valueBits) :
    value.shift direction amount = some (ofInt value.type (direction.moveNat natural amount)) := by
  have defined : ¬ ((amount : Int) < 0 ∨ (value.type.bits : Int) ≤ amount) := by omega
  simp only [shift, if_neg defined, denotes]
  cases direction with
  | right =>
      simp only [Direction.moveNat, Int.toNat_natCast]
      push_cast
      rfl
  | left =>
      have representable : ¬ (value.type.signed = true ∧ ((natural : Int) < 0 ∨
          (2 : Int) ^ value.type.valueBits ≤ natural * 2 ^ amount)) := by
        intro overflow
        have below : (natural * 2 ^ amount : Int) < 2 ^ value.type.valueBits := by
          exact_mod_cast fits overflow.1
        omega
      simp only [Direction.moveNat, Int.toNat_natCast, if_neg representable]
      push_cast
      rfl

theorem promote_type_cases (width : Width) (bits : BitVec width.bits) :
    (unsigned width bits).promote.type = intType ∧ width.bits ≤ 16 ∨
      (unsigned width bits).promote.type = unsignedType width := by
  cases width with
  | w8 => exact .inl ⟨rfl, by decide⟩
  | w16 => exact .inl ⟨rfl, by decide⟩
  | w32 => exact .inr rfl
  | w64 => exact .inr rfl

end Value

/-- A shift by less than the width of its unsigned operand is defined, and a narrower type
keeps the low bits of the result. -/
theorem Operator.apply_shift (narrow : Width) {width : Width} {amount : Value} {count : Nat}
    (direction : Direction) (bits : BitVec width.bits) (denotes : amount.toInt = count)
    (within : count < width.bits) (le : narrow.bits ≤ width.bits) :
    ∃ result, (shift direction).apply (.unsigned width bits) amount = some result ∧
      result.convert (unsignedType narrow) =
        .unsigned narrow ((direction.move bits count).setWidth narrow.bits) := by
  have promoted := Value.promote_of_toInt_eq (Value.toInt_unsigned width bits)
  have amountPromoted := Value.promote_of_toInt_eq denotes
  have wide : width.bits ≤ (Value.unsigned width bits).promote.type.bits := by
    rcases Value.promote_type_cases width bits with ⟨type, small⟩ | type
    · rw [type]
      change width.bits ≤ 32
      omega
    · rw [type]
      exact Nat.le_refl _
  have fits : (Value.unsigned width bits).promote.type.signed = true →
      bits.toNat * 2 ^ count < 2 ^ (Value.unsigned width bits).promote.type.valueBits := by
    intro signed
    rcases Value.promote_type_cases width bits with ⟨type, small⟩ | type
    · rw [type]
      have power := Nat.pow_le_pow_right (n := 2) (by decide)
        (show width.bits + count ≤ 31 by omega)
      rw [Nat.pow_add] at power
      exact Nat.lt_of_lt_of_le
        (Nat.mul_lt_mul_of_pos_right bits.isLt (Nat.two_pow_pos count)) power
    · rw [type] at signed
      cases signed
  have shifted := Value.shift_of_toInt_eq direction promoted (Nat.lt_of_lt_of_le within wide) fits
  rw [← amountPromoted] at shifted
  refine ⟨_, shifted, ?_⟩
  rw [Value.convert_ofInt (Nat.le_trans le wide), ← Direction.ofNat_moveNat le]
  rfl

end C

end CanCodec
