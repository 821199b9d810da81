import CanCodec.Text.Blank
import CanCodec.Text.Numeral

/-! # Decimal numerals

The decimal text of a number is read as that number, if the number is within the range that is
read. -/

namespace CanCodec.Text

theorem digitValue?_digitChar {digit : Nat} (small : digit < 10) :
    digitValue? 10 (Nat.digitChar digit) = some digit := by
  have each : ∀ digit < 10, digitValue? 10 (Nat.digitChar digit) = some digit := by decide
  exact each digit small

theorem readDigits_toDigits {limit : Nat} (overflow : NumeralProblem) (value : Nat)
    (fits : value ≤ limit) (rest : List Char) :
    readDigits 10 limit overflow 0 (Nat.toDigits 10 value ++ rest) =
      readDigits 10 limit overflow value rest := by
  induction value using Nat.strongRecOn generalizing rest with
  | ind value induction =>
      rw [Nat.toDigits_eq_if (by decide)]
      split
      next small =>
        rw [List.singleton_append, readDigits, digitValue?_digitChar small]
        dsimp only
        rw [Nat.zero_mul, Nat.zero_add, if_neg (Nat.not_lt.mpr fits)]
      next large =>
        have shorter := induction (value / 10) (by omega) (by omega)
        have joined : value / 10 * 10 + value % 10 = value := by omega
        rw [List.append_assoc, shorter, List.singleton_append, readDigits,
          digitValue?_digitChar (Nat.mod_lt value (by decide))]
        dsimp only
        rw [joined, if_neg (Nat.not_lt.mpr fits)]

theorem exists_toDigits_cons (value : Nat) :
    ∃ first rest, Nat.toDigits 10 value = first :: rest ∧ first ≠ '+' ∧ first ≠ '-' := by
  cases digits : Nat.toDigits 10 value with
  | nil => exact absurd digits Nat.toDigits_ne_nil
  | cons first rest =>
      have isDigit : first.isDigit = true :=
        Nat.isDigit_of_mem_toDigits (by decide) (by decide) (digits ▸ List.mem_cons_self)
      refine ⟨first, rest, rfl, ?_, ?_⟩ <;> rintro rfl <;> exact absurd isDigit (by decide)

theorem readNatural_toDigits {limit value : Nat} (fits : value ≤ limit) :
    readNatural 10 limit (Nat.toDigits 10 value) = .ok value := by
  have read := readDigits_toDigits .tooLarge value fits []
  rw [List.append_nil] at read
  rcases exists_toDigits_cons value with ⟨first, rest, digits, notPlus, -⟩
  rw [digits] at read ⊢
  rw [readNatural, read, readDigits]
  · simp
  · simp [notPlus]
  · simp [notPlus]

theorem trim_of_forall {characters : List Char}
    (filled : ∀ character ∈ characters, isBlank character = false) :
    trim characters = characters := by
  have kept : ∀ list : List Char, (∀ character ∈ list, isBlank character = false) →
      dropBlanks list = list := by
    intro list filled
    cases list with
    | nil => rfl
    | cons first rest =>
        rw [dropBlanks, List.dropWhile_cons_of_neg (by simp [filled first List.mem_cons_self])]
  rw [trim, kept characters filled, kept _ (by simpa using filled), List.reverse_reverse]

theorem isBlank_of_isDigit {character : Char} (isDigit : character.isDigit = true) :
    isBlank character = false := by
  have bounds : 48 ≤ character.toNat ∧ character.toNat ≤ 57 := by
    simp only [Char.isDigit, Bool.and_eq_true, decide_eq_true_eq] at isDigit
    exact isDigit
  have each : ∀ code < 58, 48 ≤ code →
      (blankRanges.any fun range => range.1 ≤ code && code ≤ range.2) = false := by decide
  exact each _ (Nat.lt_succ_of_le bounds.2) bounds.1

theorem toList_toString (integer : Int) : (toString integer).toList =
    (if integer < 0 then ['-'] else []) ++ Nat.toDigits 10 integer.natAbs := by
  rw [Int.toString_eq_repr, Int.repr_eq_if]
  by_cases negative : integer < 0
  · rw [if_pos negative, if_neg (by omega), String.toList_append, Nat.toList_repr,
      show (-integer).toNat = integer.natAbs by omega]
    rfl
  · rw [if_neg negative, if_pos (by omega), Nat.toList_repr,
      show integer.toNat = integer.natAbs by omega]
    rfl

theorem readInteger_toString {limit : Nat} {value : Int} (low : -(limit + 1 : Int) ≤ value)
    (high : value ≤ limit) :
    readInteger 10 limit (trim (toString value).toList) = .ok value := by
  have digits : ∀ character ∈ Nat.toDigits 10 value.natAbs, isBlank character = false :=
    fun character member =>
      isBlank_of_isDigit (Nat.isDigit_of_mem_toDigits (by decide) (by decide) member)
  rw [toList_toString]
  rcases exists_toDigits_cons value.natAbs with ⟨first, rest, split, -, notMinus⟩
  by_cases negative : value < 0
  · rw [if_pos negative, List.singleton_append,
      trim_of_forall (List.forall_mem_cons.mpr ⟨by decide, digits⟩)]
    have read := @readDigits_toDigits (limit + 1) .tooSmall value.natAbs (by omega) []
    rw [List.append_nil] at read
    rw [split] at read ⊢
    rw [readInteger, read, readDigits]
    · exact congrArg Except.ok (show -(value.natAbs : Int) = value by omega)
    · simp
  · rw [if_neg negative, List.nil_append, trim_of_forall digits]
    have read := @readNatural_toDigits limit value.natAbs (by omega)
    rw [split] at read ⊢
    rw [readInteger, read]
    · exact congrArg Except.ok (Int.natAbs_of_nonneg (Int.not_lt.mp negative))
    · exact fun same => notMinus (List.cons.inj same).1
    · exact fun _ same => notMinus (List.cons.inj same).1

theorem toString_inj {first second : Int} : toString first = toString second ↔ first = second := by
  refine ⟨fun same => ?_, congrArg toString⟩
  have read : ∀ value : Int, value.natAbs ≤ first.natAbs + second.natAbs →
      readInteger 10 (first.natAbs + second.natAbs) (trim (toString value).toList) = .ok value :=
    fun value bound => readInteger_toString (by omega) (by omega)
  have readFirst := read first (by omega)
  rw [same, read second (by omega)] at readFirst
  exact (Except.ok.inj readFirst).symm

end CanCodec.Text
