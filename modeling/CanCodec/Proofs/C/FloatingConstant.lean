import CanCodec.Proofs.Decimal.Digits
import CanCodec.Proofs.Double.Nearest

/-! # Floating constants of C

A decimal floating constant has digits, and a point or an exponent or both. Its characters
determine its parts, so they stand for one number. -/

namespace CanCodec.C

open Decimal

/-! ## Grammar -/

structure ExponentPart where
  mark : Char
  sign : Option Char
  digits : List Char
  isMark : mark = 'e' ∨ mark = 'E'
  isSign : ∀ character ∈ sign, character = '+' ∨ character = '-'
  areDigits : ∀ digit ∈ digits, digit.isDigit = true
  filled : digits ≠ []
  deriving DecidableEq

namespace ExponentPart

def characters (exponent : ExponentPart) : List Char :=
  exponent.mark :: (exponent.sign.toList ++ exponent.digits)

def power (exponent : ExponentPart) : ℤ :=
  if exponent.sign = some '-' then -digitsValue exponent.digits else digitsValue exponent.digits

end ExponentPart

/-- A floating constant of type `double`, or the negation of one. The point may stand before or
after all the digits, and an exponent can do without it. -/
structure FloatingConstant where
  negative : Bool
  whole : List Char
  fraction : Option (List Char)
  exponent : Option ExponentPart
  wholeDigits : ∀ digit ∈ whole, digit.isDigit = true
  fractionDigits : ∀ digits ∈ fraction, ∀ digit ∈ digits, digit.isDigit = true
  filled : whole ++ fraction.getD [] ≠ []
  pointed : fraction.isSome ∨ exponent.isSome
  deriving DecidableEq

namespace FloatingConstant

def fractionCharacters : Option (List Char) → List Char
  | none => []
  | some digits => '.' :: digits

def exponentCharacters : Option ExponentPart → List Char
  | none => []
  | some exponent => exponent.characters

def tail (constant : FloatingConstant) : List Char :=
  fractionCharacters constant.fraction ++ exponentCharacters constant.exponent

def characters (constant : FloatingConstant) : List Char :=
  (if constant.negative then ['-'] else []) ++ (constant.whole ++ constant.tail)

def magnitude (constant : FloatingConstant) : ℚ :=
  let digits := constant.fraction.getD []
  (digitsValue constant.whole + digitsValue digits / 10 ^ digits.length) *
    10 ^ (constant.exponent.elim 0 ExponentPart.power)

/-! ## Parts -/

def Stops (characters : List Char) : Prop :=
  ∀ character ∈ characters.head?, character.isDigit = false ∧ character ≠ '-'

theorem stops_exponentCharacters (exponent : Option ExponentPart) :
    Stops (exponentCharacters exponent) := by
  rintro character member
  cases exponent with
  | none => cases member
  | some exponent =>
      cases member
      rcases exponent.isMark with isMark | isMark <;> rw [isMark] <;> decide

theorem stops_tail (constant : FloatingConstant) : Stops constant.tail := by
  rw [tail]
  cases constant.fraction with
  | none => exact stops_exponentCharacters _
  | some digits =>
      rintro character member
      cases member
      decide

theorem append_inj_of_digits {rest other : List Char} (restStops : Stops rest)
    (otherStops : Stops other) :
    ∀ {first second : List Char}, (∀ digit ∈ first, digit.isDigit = true) →
      (∀ digit ∈ second, digit.isDigit = true) → first ++ rest = second ++ other →
      first = second ∧ rest = other
  | [], [], _, _, same => ⟨rfl, same⟩
  | [], digit :: _, _, secondDigits, same => by
      rw [List.nil_append] at same
      rw [same] at restStops
      have stop := (restStops digit rfl).1
      rw [secondDigits digit List.mem_cons_self] at stop
      cases stop
  | digit :: _, [], firstDigits, _, same => by
      rw [List.nil_append] at same
      rw [← same] at otherStops
      have stop := (otherStops digit rfl).1
      rw [firstDigits digit List.mem_cons_self] at stop
      cases stop
  | digit :: first, _ :: second, firstDigits, secondDigits, same => by
      rcases List.cons.inj same with ⟨rfl, after⟩
      rcases append_inj_of_digits restStops otherStops
        (fun digit member => firstDigits digit (List.mem_cons_of_mem _ member))
        (fun digit member => secondDigits digit (List.mem_cons_of_mem _ member))
        after with ⟨rfl, rfl⟩
      exact ⟨rfl, rfl⟩

end FloatingConstant

namespace ExponentPart

theorem sign_not_digit (exponent : ExponentPart) {sign : Char}
    (isSign : exponent.sign = some sign) : sign.isDigit = false := by
  rcases exponent.isSign sign isSign with rfl | rfl <;> decide

theorem characters_inj {first second : ExponentPart}
    (same : first.characters = second.characters) : first = second := by
  rcases List.cons.inj same with ⟨marks, rest⟩
  have parts : first.sign = second.sign ∧ first.digits = second.digits := by
    cases isFirst : first.sign with
    | none =>
        cases isSecond : second.sign with
        | none =>
            rw [isFirst, isSecond] at rest
            exact ⟨rfl, rest⟩
        | some sign =>
            rw [isFirst, isSecond, Option.toList_none, List.nil_append] at rest
            have digit := first.areDigits sign (rest ▸ List.mem_cons_self)
            rw [second.sign_not_digit isSecond] at digit
            cases digit
    | some sign =>
        cases isSecond : second.sign with
        | none =>
            rw [isFirst, isSecond, Option.toList_none, List.nil_append] at rest
            have digit := second.areDigits sign (rest ▸ List.mem_cons_self)
            rw [first.sign_not_digit isFirst] at digit
            cases digit
        | some other =>
            rw [isFirst, isSecond] at rest
            rcases List.cons.inj rest with ⟨rfl, digits⟩
            exact ⟨rfl, digits⟩
  rcases first with ⟨⟩
  rcases second with ⟨⟩
  simp_all

end ExponentPart

namespace FloatingConstant

theorem exponentCharacters_inj {first second : Option ExponentPart}
    (same : exponentCharacters first = exponentCharacters second) : first = second := by
  cases first <;> cases second
  · rfl
  · cases same
  · cases same
  · exact congrArg some (ExponentPart.characters_inj same)

theorem ne_exponentCharacters (digits : List Char) (exponent : Option ExponentPart) :
    '.' :: digits ≠ exponentCharacters exponent := by
  intro same
  cases exponent with
  | none => cases same
  | some exponent =>
      rcases exponent.isMark with isMark | isMark <;>
        exact absurd ((List.cons.inj same).1.trans isMark) (by decide)

theorem tail_inj {first second : FloatingConstant} (same : first.tail = second.tail) :
    first.fraction = second.fraction ∧ first.exponent = second.exponent := by
  unfold tail at same
  cases isFirst : first.fraction with
  | none =>
      cases isSecond : second.fraction with
      | none =>
          rw [isFirst, isSecond] at same
          exact ⟨rfl, exponentCharacters_inj same⟩
      | some digits =>
          rw [isFirst, isSecond] at same
          exact absurd same.symm (ne_exponentCharacters _ _)
  | some digits =>
      cases isSecond : second.fraction with
      | none =>
          rw [isFirst, isSecond] at same
          exact absurd same (ne_exponentCharacters _ _)
      | some others =>
          rw [isFirst, isSecond] at same
          rcases append_inj_of_digits (stops_exponentCharacters _) (stops_exponentCharacters _)
            (first.fractionDigits digits isFirst) (second.fractionDigits others isSecond)
            (List.cons.inj same).2 with ⟨rfl, exponents⟩
          exact ⟨rfl, exponentCharacters_inj exponents⟩

theorem head_ne_minus (constant : FloatingConstant) (rest : List Char) :
    constant.whole ++ constant.tail ≠ '-' :: rest := by
  intro same
  cases isWhole : constant.whole with
  | nil =>
      rw [isWhole, List.nil_append] at same
      have stops := constant.stops_tail
      rw [same] at stops
      exact (stops '-' rfl).2 rfl
  | cons digit digits =>
      rw [isWhole] at same
      have isDigit := constant.wholeDigits digit (isWhole ▸ List.mem_cons_self)
      rw [(List.cons.inj same).1] at isDigit
      exact absurd isDigit (by decide)

theorem characters_inj {first second : FloatingConstant}
    (same : first.characters = second.characters) : first = second := by
  have signs : first.negative = second.negative ∧
      first.whole ++ first.tail = second.whole ++ second.tail := by
    unfold characters at same
    cases isFirst : first.negative <;> cases isSecond : second.negative <;>
      rw [isFirst, isSecond] at same
    · exact ⟨rfl, same⟩
    · exact absurd same (first.head_ne_minus _)
    · exact absurd same.symm (second.head_ne_minus _)
    · exact ⟨rfl, (List.cons.inj same).2⟩
  rcases append_inj_of_digits first.stops_tail second.stops_tail first.wholeDigits
    second.wholeDigits signs.2 with ⟨wholes, tails⟩
  rcases tail_inj tails with ⟨fractions, exponents⟩
  rcases first with ⟨⟩
  rcases second with ⟨⟩
  simp_all

theorem isDigit_or_of_mem_characters {constant : FloatingConstant} {character : Char}
    (member : character ∈ constant.characters) :
    character.isDigit = true ∨ character = '+' ∨ character = '-' ∨ character = '.' ∨
      character = 'e' ∨ character = 'E' := by
  rw [characters, tail, List.mem_append, List.mem_append, List.mem_append] at member
  rcases member with sign | whole | fraction | exponent
  · split_ifs at sign
    · exact .inr (.inr (.inl (List.mem_singleton.mp sign)))
    · cases sign
  · exact .inl (constant.wholeDigits _ whole)
  · cases isFraction : constant.fraction with
    | none =>
        rw [isFraction] at fraction
        cases fraction
    | some digits =>
        rw [isFraction] at fraction
        rcases List.mem_cons.mp fraction with point | digit
        · exact .inr (.inr (.inr (.inl point)))
        · exact .inl (constant.fractionDigits digits isFraction _ digit)
  · cases isExponent : constant.exponent with
    | none =>
        rw [isExponent] at exponent
        cases exponent
    | some part =>
        rw [isExponent, exponentCharacters, ExponentPart.characters, List.mem_cons,
          List.mem_append, Option.mem_toList] at exponent
        rcases exponent with rfl | sign | digit
        · exact .inr (.inr (.inr (.inr part.isMark)))
        · exact .inr ((part.isSign _ sign).imp_right .inl)
        · exact .inl (part.areDigits _ digit)

theorem exists_mark (constant : FloatingConstant) :
    ∃ character ∈ constant.characters, character = '.' ∨ character = 'e' ∨ character = 'E' := by
  rw [characters, tail]
  rcases constant.pointed with some | some
  · obtain ⟨digits, isFraction⟩ := Option.isSome_iff_exists.mp some
    refine ⟨'.', ?_, .inl rfl⟩
    rw [isFraction, fractionCharacters]
    simp
  · obtain ⟨part, isExponent⟩ := Option.isSome_iff_exists.mp some
    refine ⟨part.mark, ?_, .inr part.isMark⟩
    rw [isExponent, exponentCharacters, ExponentPart.characters]
    simp

/-! ## Values -/

theorem magnitude_nonneg (constant : FloatingConstant) : 0 ≤ constant.magnitude := by
  unfold magnitude
  positivity

theorem magnitude_eq (constant : FloatingConstant) :
    constant.magnitude = valueAt (constant.whole ++ constant.fraction.getD [])
      (constant.whole.length + constant.exponent.elim 0 ExponentPart.power) := by
  obtain ⟨digits, isDigits⟩ : ∃ digits, constant.fraction.getD [] = digits := ⟨_, rfl⟩
  obtain ⟨power, isPower⟩ : ∃ power, constant.exponent.elim 0 ExponentPart.power = power := ⟨_, rfl⟩
  have place : (constant.whole.length + power - (constant.whole.length + digits.length : ℕ) : ℤ) =
      power - digits.length := by omega
  rw [magnitude, valueAt, isDigits, isPower, digitsValue_append, List.length_append, place,
    zpow_sub₀ (by norm_num), zpow_natCast]
  push_cast
  field_simp

end FloatingConstant

/-- A text is a floating constant, and the number that it stands for is rounded to a double. -/
structure IsLiteralOf (text : String) (value : Float) : Prop where
  grammar : ∃ constant : FloatingConstant, constant.characters = text.toList
  rounded : ∀ constant : FloatingConstant, constant.characters = text.toList →
    Double.SignedRoundsTo constant.negative constant.magnitude value

theorem IsLiteralOf.intro {text : String} {value : Float} {constant : FloatingConstant}
    (spelled : constant.characters = text.toList)
    (rounded : Double.SignedRoundsTo constant.negative constant.magnitude value) :
    IsLiteralOf text value :=
  ⟨⟨constant, spelled⟩, fun _ isOther =>
    FloatingConstant.characters_inj (spelled.trans isOther.symm) ▸ rounded⟩

theorem IsLiteralOf.unique {text : String} {first second : Float} (isFirst : IsLiteralOf text first)
    (isSecond : IsLiteralOf text second) : first = second := by
  rcases isFirst.grammar with ⟨constant, spelled⟩
  exact (isFirst.rounded constant spelled).unique constant.magnitude_nonneg
    (isSecond.rounded constant spelled)

end CanCodec.C
