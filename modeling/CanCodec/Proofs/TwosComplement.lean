import Mathlib.Algebra.Ring.Int.Defs
import Mathlib.Algebra.Ring.Nat
import CanCodec.Codec

/-! # Raw values and words

A raw value of a signal's range and the low bits of its word determine each other. -/

namespace CanCodec

theorem setWidth_ofInt_of_le {narrow wide : Nat} (le : narrow ≤ wide) (value : Int) :
    (BitVec.ofInt wide value).setWidth narrow = BitVec.ofInt narrow value := by
  have divides : ((2 ^ narrow : Nat) : Int) ∣ ((2 ^ wide : Nat) : Int) := by
    exact_mod_cast Nat.pow_dvd_pow 2 le
  have positive : (0 : Int) < ((2 ^ wide : Nat) : Int) := by
    exact_mod_cast Nat.two_pow_pos wide
  have nonnegative := Int.emod_nonneg value (Int.ne_of_gt positive)
  apply BitVec.eq_of_toNat_eq
  rw [BitVec.toNat_setWidth, BitVec.toNat_ofInt, BitVec.toNat_ofInt]
  have reduced := Int.emod_emod_of_dvd value divides
  rw [← reduced]
  generalize value % ((2 ^ wide : Nat) : Int) = rest at nonnegative ⊢
  rcases Int.eq_ofNat_of_zero_le nonnegative with ⟨natural, rfl⟩
  rw [← Int.natCast_emod, Int.toNat_natCast, Int.toNat_natCast]

theorem getLsbD_setWidth_ofInt {length : Nat} (bound : length ≤ 64) (value : Int) (index : Nat) :
    ((BitVec.ofInt length value).setWidth 64).getLsbD index = true ↔
      index < length ∧ (BitVec.ofInt 64 value).getLsbD index = true := by
  rw [← setWidth_ofInt_of_le bound]
  simp only [BitVec.getLsbD_setWidth, Bool.and_eq_true, decide_eq_true_eq]
  exact ⟨fun set => set.2, fun set => ⟨by omega, set⟩⟩

theorem toNat_lt_of_clear {word : Word} {length : Nat}
    (clear : ∀ index, word.getLsbD index = true → index < length) :
    word.toNat < 2 ^ length := by
  apply Nat.lt_pow_two_of_testBit
  intro index outside
  rw [BitVec.testBit_toNat]
  cases set : word.getLsbD index with
  | false => rfl
  | true => exact absurd (clear index set) (by omega)

namespace RawRange

theorem contains_iff {range : RawRange} {raw : Int} :
    range.contains raw = true ↔ range.low ≤ raw ∧ raw ≤ range.high := by
  simp [contains]

theorem clamp_of_contains {range : RawRange} {raw : Int} (contained : range.contains raw = true) :
    range.clamp raw = raw := by
  have bounds := contains_iff.mp contained
  rw [clamp]
  omega

theorem contains_clamp {range : RawRange} (inhabited : range.low ≤ range.high) (raw : Int) :
    range.contains (range.clamp raw) = true := by
  rw [contains_iff]
  rw [clamp]
  omega

theorem clamp_mono (range : RawRange) {first second : Int} (le : first ≤ second) :
    range.clamp first ≤ range.clamp second := by
  rw [clamp, clamp]
  omega

theorem ofBits_low_le_high (length : Nat) (signed : Bool) :
    (ofBits length signed).low ≤ (ofBits length signed).high := by
  have power := fun width => Nat.two_pow_pos width
  rw [ofBits]
  cases signed with
  | true =>
      have := power (max 1 (min length 64) - 1)
      simp only [Nat.pow_eq, if_true]
      omega
  | false =>
      have := power (max 1 (min length 64))
      simp only [Nat.pow_eq, Bool.false_eq_true, if_false]
      omega

theorem contains_ofBits_iff {length : Nat} {signed : Bool} {raw : Int} (positive : 0 < length)
    (bound : length ≤ 64) :
    (ofBits length signed).contains raw = true ↔
      if signed then -(2 : Int) ^ (length - 1) ≤ raw ∧ raw < (2 : Int) ^ (length - 1)
      else 0 ≤ raw ∧ raw < (2 : Int) ^ length := by
  have width : max 1 (min length 64) = length := by omega
  rw [contains_iff, ofBits, width]
  cases signed with
  | true =>
      simp only [Nat.pow_eq, if_true]
      push_cast
      omega
  | false =>
      simp only [Nat.pow_eq, Bool.false_eq_true, if_false]
      push_cast
      omega

theorem contains_ofBits_of_le {length wider : Nat} {signed : Bool} {raw : Int}
    (positive : 0 < length) (le : length ≤ wider) (bound : wider ≤ 64)
    (contained : (ofBits length signed).contains raw = true) :
    (ofBits wider signed).contains raw = true := by
  rw [contains_ofBits_iff positive (by omega)] at contained
  rw [contains_ofBits_iff (by omega) bound]
  have powers : ∀ first second : Nat, first ≤ second → (2 : Int) ^ first ≤ 2 ^ second :=
    fun first second le => by exact_mod_cast Nat.pow_le_pow_right (Nat.zero_lt_succ 1) le
  cases signed with
  | true =>
      have power := powers (length - 1) (wider - 1) (by omega)
      simp only [if_true] at contained ⊢
      omega
  | false =>
      have power := powers length wider le
      simp only [Bool.false_eq_true, if_false] at contained ⊢
      omega

end RawRange

/-! ## Candidates -/

theorem candidateRange_eq : candidateRange = ⟨-(2 : Int) ^ 127, (2 : Int) ^ 127 - 1⟩ := rfl

theorem candidateRange_contains_iff {raw : Int} : candidateRange.contains raw = true ↔
    -(2 : Int) ^ 127 ≤ raw ∧ raw ≤ (2 : Int) ^ 127 - 1 :=
  RawRange.contains_iff

theorem candidate?_of_contains {raw : Int} (contained : candidateRange.contains raw = true) :
    candidate? raw = some raw := if_pos contained

theorem candidate?_eq_none_iff {raw : Int} :
    candidate? raw = none ↔ candidateRange.contains raw = false := by
  rw [candidate?]
  cases candidateRange.contains raw <;> simp

namespace Signal

/-! ## Reading a word -/

def wrap (signal : Signal) (raw : Int) : Int :=
  if signal.signed then Int.bmod raw (2 ^ signal.length) else raw % (2 ^ signal.length : Nat)

theorem wrap_of_contains {signal : Signal} {raw : Int} (positive : 0 < signal.length)
    (bound : signal.length ≤ 64) (contained : signal.range.contains raw = true) :
    signal.wrap raw = raw := by
  have range := (RawRange.contains_ofBits_iff positive bound).mp contained
  rw [wrap]
  cases signed : signal.signed with
  | true =>
      simp only [signed, if_true] at range ⊢
      rw [← BitVec.toInt_ofInt]
      exact BitVec.toInt_ofInt_eq_self positive range.1 range.2
  | false =>
      simp only [signed, Bool.false_eq_true, if_false] at range ⊢
      have below : raw < ((2 ^ signal.length : Nat) : Int) := by
        push_cast
        exact range.2
      exact Int.emod_eq_of_lt range.1 below

/-- A word with the low bits of an integer, and no others, is read as what is left of the
integer. -/
theorem interpret_eq_wrap {signal : Signal} {word : Word} {raw : Int}
    (bound : signal.length ≤ 64)
    (bits : ∀ index, word.getLsbD index = true ↔
      index < signal.length ∧ (BitVec.ofInt 64 raw).getLsbD index = true) :
    signal.interpret word = signal.wrap raw := by
  have narrow : word = (BitVec.ofInt signal.length raw).setWidth 64 :=
    BitVec.eq_of_getLsbD_eq fun index _ =>
      Bool.eq_iff_iff.mpr ((bits index).trans (getLsbD_setWidth_ofInt bound raw index).symm)
  have width : min signal.length 64 = signal.length := Nat.min_eq_left bound
  rw [interpret, wrap, width, narrow]
  cases signed : signal.signed with
  | true =>
      simp only [if_true]
      rw [BitVec.setWidth_setWidth_of_le _ bound, BitVec.setWidth_eq, BitVec.toInt_ofInt]
  | false =>
      simp only [Bool.false_eq_true, if_false]
      have power : ((2 ^ signal.length : Nat) : Int) ≠ 0 := by
        exact_mod_cast Nat.ne_of_gt (Nat.two_pow_pos signal.length)
      rw [BitVec.toNat_setWidth_of_le bound, BitVec.toNat_ofInt,
        Int.toNat_of_nonneg (Int.emod_nonneg raw power)]

theorem range_contains_interpret {signal : Signal} {word : Word}
    (positive : 0 < signal.length) (bound : signal.length ≤ 64)
    (clear : ∀ index, word.getLsbD index = true → index < signal.length) :
    signal.range.contains (signal.interpret word) = true := by
  have width : min signal.length 64 = signal.length := Nat.min_eq_left bound
  rw [range, RawRange.contains_ofBits_iff positive bound, interpret, width]
  cases signed : signal.signed with
  | true =>
      simp only [if_true]
      exact ⟨BitVec.le_toInt _, BitVec.toInt_lt⟩
  | false =>
      simp only [Bool.false_eq_true, if_false]
      refine ⟨Int.natCast_nonneg _, ?_⟩
      have below := toNat_lt_of_clear clear
      exact_mod_cast below

/-- The range is what the signal's bits leave unchanged. -/
theorem wrap_eq_iff {signal : Signal} {raw : Int} (positive : 0 < signal.length)
    (bound : signal.length ≤ 64) : signal.wrap raw = raw ↔ signal.range.contains raw = true := by
  refine ⟨fun kept => ?_, wrap_of_contains positive bound⟩
  have bits := getLsbD_setWidth_ofInt bound raw
  have contained := range_contains_interpret positive bound fun index set =>
    ((bits index).mp set).1
  rwa [interpret_eq_wrap bound bits, kept] at contained

theorem getLsbD_ofInt_interpret {signal : Signal} {index : Nat} (word : Word)
    (bound : signal.length ≤ 64) (within : index < signal.length) :
    (BitVec.ofInt 64 (signal.interpret word)).getLsbD index = word.getLsbD index := by
  have width : min signal.length 64 = signal.length := Nat.min_eq_left bound
  rw [interpret, width]
  cases signed : signal.signed with
  | true =>
      have narrow := setWidth_ofInt_of_le bound (word.setWidth signal.length).toInt
      rw [BitVec.ofInt_toInt] at narrow
      have same := congrArg (fun bits => bits.getLsbD index) narrow
      simpa [within] using same
  | false => simp

end Signal

end CanCodec
