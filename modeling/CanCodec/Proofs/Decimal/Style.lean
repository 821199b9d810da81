import CanCodec.Decimal.Style

/-! # Written doubles -/

namespace CanCodec

/-! ## Digits -/

namespace Decimal

theorem isDigit_of_mem_digitsOf {value : Nat} {character : Char}
    (member : character ∈ digitsOf value) : character.isDigit = true :=
  Nat.isDigit_of_mem_toDigits (by decide) (by decide) member

end Decimal

namespace FloatStyle

theorem mem_of_mem_dropTrailingZeros {digits : List Char} {character : Char}
    (member : character ∈ dropTrailingZeros digits) : character ∈ digits := by
  rw [dropTrailingZeros, List.mem_reverse] at member
  exact List.mem_reverse.mp ((List.dropWhile_sublist _).subset member)

/-! ## Characters -/

def IsFigure (character : Char) : Prop :=
  character.isAlphanum = true ∨ character = '.' ∨ character = '-' ∨ character = '+'

instance (character : Char) : Decidable (IsFigure character) := inferInstanceAs (Decidable (_ ∨ _))

theorem IsFigure.of_isDigit {character : Char} (digit : character.isDigit = true) :
    IsFigure character := by
  left
  rw [Char.isAlphanum, digit, Bool.or_true]

variable {digits : List Char} {character : Char}

theorem isFigure_of_mem_writePositional {keepsPoint : Bool} {place : Int}
    (figures : ∀ digit ∈ digits, IsFigure digit)
    (member : character ∈ writePositional keepsPoint digits place) : IsFigure character := by
  have zeros : ∀ count, ∀ digit ∈ List.replicate count '0', IsFigure digit := by
    intro count digit digitMember
    rw [List.eq_of_mem_replicate digitMember]
    decide
  rw [writePositional] at member
  split at member
  next =>
    simp only [List.mem_cons, List.mem_append] at member
    rcases member with rfl | rfl | member | member
    · decide
    · decide
    · exact zeros _ _ member
    · exact figures _ member
  next =>
    dsimp only at member
    split at member
    next =>
      simp only [List.mem_append] at member
      rcases member with (member | member) | member
      · exact figures _ member
      · exact zeros _ _ member
      · split at member
        · rcases List.mem_cons.mp member with rfl | member
          · decide
          · rw [List.mem_singleton.mp member]
            decide
        · cases member
    next =>
      simp only [List.mem_append, List.mem_cons] at member
      rcases member with member | rfl | member
      · exact figures _ (List.mem_of_mem_take member)
      · decide
      · exact figures _ (List.mem_of_mem_drop member)

theorem isFigure_of_mem_writeExponential {signsExponent : Bool} {place : Int}
    (figures : ∀ digit ∈ digits, IsFigure digit)
    (member : character ∈ writeExponential signsExponent digits place) : IsFigure character := by
  rw [writeExponential] at member
  simp only [List.mem_append, List.mem_cons] at member
  rcases member with (member | member) | rfl | member | member
  · exact figures _ (List.mem_of_mem_take member)
  · split at member
    · cases member
    · rcases List.mem_cons.mp member with rfl | member
      · decide
      · exact figures _ (List.mem_of_mem_drop member)
  · decide
  · split at member
    · rw [List.mem_singleton.mp member]
      decide
    · split at member
      · rw [List.mem_singleton.mp member]
        decide
      · cases member
  · exact .of_isDigit (Decimal.isDigit_of_mem_digitsOf member)

theorem isFigure_of_mem_write {style : FloatStyle} {value : Float}
    (member : character ∈ (style.write value).toList) : IsFigure character := by
  have names {name : String} (listed : name ∈ ["NaN", "-inf", "inf", "-", "0.0", "0"])
      (letter : character ∈ name.toList) : IsFigure character := by
    have figures : ∀ name ∈ ["NaN", "-inf", "inf", "-", "0.0", "0"],
        (name.toList.all fun letter => IsFigure letter) = true := by decide
    exact of_decide_eq_true (List.all_eq_true.mp (figures name listed) character letter)
  rw [write] at member
  split at member
  next => exact @names "NaN" (by decide) member
  next negative _ =>
    cases negative
    · exact @names "inf" (by decide) member
    · exact @names "-inf" (by decide) member
  next decimal _ =>
    rw [String.toList_ofList, writeDecimal, List.mem_append] at member
    rcases member with member | member
    · split at member
      · exact @names "-" (by decide) member
      · cases member
    · rw [writeMagnitude] at member
      split at member
      · split at member
        · exact @names "0.0" (by decide) member
        · exact @names "0" (by decide) member
      · have figures : ∀ digit ∈ dropTrailingZeros (Decimal.digitsOf decimal.coefficient),
            IsFigure digit := fun digit digitMember =>
          .of_isDigit (Decimal.isDigit_of_mem_digitsOf (mem_of_mem_dropTrailingZeros digitMember))
        dsimp only at member
        split at member
        · exact isFigure_of_mem_writePositional figures member
        · exact isFigure_of_mem_writeExponential figures member

end FloatStyle

end CanCodec
