import Mathlib.Algebra.Field.Rat
import Mathlib.Data.List.Basic
import Mathlib.Data.List.TakeWhile
import Mathlib.Tactic.Ring
import CanCodec.Decimal.Style

/-! # The value of digits

Digits are written around a point. Zeros before them move the point, and zeros after them change
nothing. -/

namespace CanCodec

namespace Decimal

theorem digitsValue_eq (digits : List Char) :
    digitsValue digits = Nat.ofDigitChars 10 digits 0 := by
  rw [digitsValue, Nat.ofDigitChars_eq_foldl]
  simp only [Nat.mul_comm]

theorem digitsValue_digitsOf (value : ℕ) : digitsValue (digitsOf value) = value := by
  rw [digitsValue_eq, digitsOf, Nat.ofDigitChars_toDigits (by decide) (by decide)]

theorem eq_zero_of_head?_digitsOf (value : ℕ) (leading : (digitsOf value).head? = some '0') :
    value = 0 := by
  induction value using Nat.strongRecOn with
  | ind value induction =>
      rw [digitsOf, Nat.toDigits_eq_if (by decide)] at leading
      split at leading
      next small =>
        have each : ∀ digit < 10, [Nat.digitChar digit].head? = some '0' → digit = 0 := by decide
        exact each value small leading
      next large =>
        rw [List.head?_append_of_ne_nil _ Nat.toDigits_ne_nil] at leading
        have shorter := induction (value / 10) (by omega) leading
        omega

theorem digitsValue_append (front back : List Char) :
    digitsValue (front ++ back) = digitsValue front * 10 ^ back.length + digitsValue back := by
  rw [digitsValue_eq, digitsValue_eq, digitsValue_eq, Nat.ofDigitChars_append,
    Nat.ofDigitChars_eq_ofDigitChars_zero, Nat.mul_comm]

theorem digitsValue_zeros (count : ℕ) : digitsValue (List.replicate count '0') = 0 := by
  rw [digitsValue_eq, Nat.ofDigitChars_replicate_zero, Nat.mul_zero]

def valueAt (digits : List Char) (place : ℤ) : ℚ :=
  digitsValue digits * 10 ^ (place - digits.length)

theorem valueAt_zeros_append (count : ℕ) (digits : List Char) (place : ℤ) :
    valueAt (List.replicate count '0' ++ digits) place = valueAt digits (place - count) := by
  rw [valueAt, valueAt, digitsValue_append, digitsValue_zeros, Nat.zero_mul, Nat.zero_add,
    List.length_append, List.length_replicate]
  push_cast
  rw [sub_sub]

theorem valueAt_append_zeros (digits : List Char) (count : ℕ) (place : ℤ) :
    valueAt (digits ++ List.replicate count '0') place = valueAt digits place := by
  have power : (10 : ℚ) ^ (place - digits.length) =
      10 ^ count * 10 ^ (place - (digits.length + count : ℕ)) := by
    rw [← zpow_natCast, ← zpow_add₀ (by norm_num)]
    congr 1
    push_cast
    ring
  rw [valueAt, valueAt, digitsValue_append, digitsValue_zeros, List.length_append,
    List.length_replicate, power]
  push_cast
  ring

end Decimal

namespace FloatStyle

open Decimal

theorem exists_dropTrailingZeros (digits : List Char) :
    ∃ count, digits = dropTrailingZeros digits ++ List.replicate count '0' := by
  obtain ⟨zeros, isZeros⟩ : ∃ zeros, digits.reverse.takeWhile (· == '0') = zeros := ⟨_, rfl⟩
  have same : ∀ digit ∈ zeros, digit = '0' := by
    intro digit member
    rw [← isZeros] at member
    have kept := List.mem_takeWhile_imp member
    exact beq_iff_eq.mp kept
  have reversed : zeros.reverse = List.replicate zeros.length '0' := by
    rw [List.eq_replicate_of_mem same, List.reverse_replicate, List.length_replicate]
  refine ⟨zeros.length, ?_⟩
  rw [← reversed, dropTrailingZeros, ← List.reverse_append, ← isZeros,
    List.takeWhile_append_dropWhile, List.reverse_reverse]

theorem valueAt_dropTrailingZeros (coefficient : ℕ) (exponent : ℤ) :
    valueAt (dropTrailingZeros (digitsOf coefficient))
      (exponent + (digitsOf coefficient).length) = coefficient * 10 ^ exponent := by
  rcases exists_dropTrailingZeros (digitsOf coefficient) with ⟨count, isDropped⟩
  rw [← valueAt_append_zeros _ count, ← isDropped, valueAt, digitsValue_digitsOf,
    add_sub_cancel_right]

theorem dropTrailingZeros_ne_nil {coefficient : ℕ} (nonzero : coefficient ≠ 0) :
    dropTrailingZeros (digitsOf coefficient) ≠ [] := by
  intro none
  rcases exists_dropTrailingZeros (digitsOf coefficient) with ⟨count, isDropped⟩
  rw [none, List.nil_append] at isDropped
  have value := digitsValue_digitsOf coefficient
  rw [isDropped, digitsValue_zeros] at value
  exact nonzero value.symm

end FloatStyle

end CanCodec
