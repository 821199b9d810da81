import CanCodec.C.Conversion
import CanCodec.Proofs.C.FloatingConstant
import CanCodec.Proofs.Decimal.Shortest
import CanCodec.Proofs.Decimal.Style
import CanCodec.Proofs.Record
import CanCodec.Proofs.Schema.Acceptance

/-! # Floating literals of the generated header

A finite double is written as a floating constant that is rounded to the same double. A double
that is not finite is written as its name with a point, which is no constant. -/

namespace CanCodec

open Decimal C C.FloatingConstant

/-! ## Written digits -/

namespace FloatStyle

def Spells (characters : List Char) (magnitude : ℚ) : Prop :=
  ∀ negative, ∃ constant : FloatingConstant, constant.negative = negative ∧
    constant.characters = (if negative then ['-'] else []) ++ characters ∧
    constant.magnitude = magnitude

theorem spells_parts (whole : List Char) (fraction : Option (List Char))
    (exponent : Option ExponentPart) (wholeDigits : ∀ digit ∈ whole, digit.isDigit = true)
    (fractionDigits : ∀ digits ∈ fraction, ∀ digit ∈ digits, digit.isDigit = true)
    (filled : whole ++ fraction.getD [] ≠ []) (pointed : fraction.isSome ∨ exponent.isSome) :
    Spells (whole ++ (fractionCharacters fraction ++ exponentCharacters exponent))
      (valueAt (whole ++ fraction.getD [])
        (whole.length + exponent.elim 0 ExponentPart.power)) := fun negative =>
  ⟨⟨negative, whole, fraction, exponent, wholeDigits, fractionDigits, filled, pointed⟩,
    rfl, rfl, magnitude_eq _⟩

theorem spells_point {whole fraction : List Char}
    (wholeDigits : ∀ digit ∈ whole, digit.isDigit = true)
    (fractionDigits : ∀ digit ∈ fraction, digit.isDigit = true) (filled : whole ++ fraction ≠ []) :
    Spells (whole ++ '.' :: fraction) (valueAt (whole ++ fraction) whole.length) := by
  have parts := spells_parts whole (some fraction) none wholeDigits
    (fun digits member => Option.mem_some_iff.mp member ▸ fractionDigits) filled (.inl rfl)
  simpa only [fractionCharacters, exponentCharacters, List.append_nil, Option.getD_some,
    Option.elim_none, add_zero] using parts

theorem isDigit_of_mem_zeros {count : ℕ} {digit : Char}
    (member : digit ∈ List.replicate count '0') : digit.isDigit = true := by
  rw [List.eq_of_mem_replicate member]
  decide

def exponentOf (power : ℤ) : ExponentPart where
  mark := 'e'
  sign := if power < 0 then some '-' else none
  digits := digitsOf power.natAbs
  isMark := .inl rfl
  isSign := by
    rintro character member
    split_ifs at member
    · exact .inr (Option.mem_some_iff.mp member).symm
    · cases member
  areDigits digit member := isDigit_of_mem_digitsOf member
  filled := Nat.toDigits_ne_nil

theorem power_exponentOf (power : ℤ) : (exponentOf power).power = power := by
  have magnitude : (digitsValue (exponentOf power).digits : ℤ) = power.natAbs :=
    congrArg Nat.cast (digitsValue_digitsOf power.natAbs)
  rw [ExponentPart.power, magnitude]
  by_cases negative : power < 0
  · have signed : (exponentOf power).sign = some '-' := if_pos negative
    rw [signed, if_pos rfl]
    omega
  · have unsigned : (exponentOf power).sign = none := if_neg negative
    rw [unsigned, if_neg (Option.some_ne_none _).symm]
    omega

section

variable {digits : List Char} (isDigits : ∀ digit ∈ digits, digit.isDigit = true)
  (filled : digits ≠ []) (place : ℤ)

include isDigits filled

theorem spells_writePositional :
    Spells (writePositional true digits place) (valueAt digits place) := by
  by_cases low : place ≤ 0
  · -- The point stands before all digits, and zeros fill the gap.
    rw [writePositional, if_pos low]
    have point := @spells_point ['0'] (List.replicate place.natAbs '0' ++ digits)
      (fun _ member => @isDigit_of_mem_zeros 1 _ member)
      (fun digit member => (List.mem_append.mp member).elim isDigit_of_mem_zeros (isDigits digit))
      (List.cons_ne_nil _ _)
    have zeros : ['0'] ++ (List.replicate place.natAbs '0' ++ digits) =
        List.replicate (place.natAbs + 1) '0' ++ digits := rfl
    rwa [zeros, valueAt_zeros_append, show ((['0'].length : ℕ) - (place.natAbs + 1 : ℕ) : ℤ) = place
      by rw [List.length_singleton]; omega] at point
  · obtain ⟨count, rfl⟩ := Int.eq_ofNat_of_zero_le (not_le.mp low).le
    rw [writePositional, if_neg low]
    dsimp only
    rw [Int.toNat_natCast]
    by_cases short : digits.length ≤ count
    · -- The point stands after all digits, which the kept point shows with one more zero.
      rw [if_pos short, if_pos rfl]
      have point := @spells_point (digits ++ List.replicate (count - digits.length) '0') ['0']
        (fun digit member => (List.mem_append.mp member).elim (isDigits digit) isDigit_of_mem_zeros)
        (fun _ member => @isDigit_of_mem_zeros 1 _ member) (by simp)
      have zeros : digits ++ List.replicate (count - digits.length) '0' ++ ['0'] =
          digits ++ List.replicate (count - digits.length + 1) '0' := by
        rw [List.append_assoc, ← List.replicate_succ']
      rwa [zeros, valueAt_append_zeros, List.length_append, List.length_replicate,
        Nat.add_sub_cancel' short] at point
    · rw [if_neg short]
      have point := @spells_point (digits.take count) (digits.drop count)
        (fun digit member => isDigits digit (List.mem_of_mem_take member))
        (fun digit member => isDigits digit (List.mem_of_mem_drop member))
        (by rwa [List.take_append_drop])
      rwa [List.take_append_drop, List.length_take, min_eq_left (by omega)] at point

theorem spells_writeExponential :
    Spells (writeExponential false digits place) (valueAt digits place) := by
  obtain ⟨first, rest, rfl⟩ := List.exists_cons_of_ne_nil filled
  obtain ⟨fraction, isFraction⟩ :
      ∃ fraction, (if rest.isEmpty then none else some rest) = fraction := ⟨_, rfl⟩
  have isRest : fraction.getD [] = rest := by
    rw [← isFraction]
    cases rest <;> rfl
  have text : writeExponential false (first :: rest) place = [first] ++
      (fractionCharacters fraction ++ exponentCharacters (some (exponentOf (place - 1)))) := by
    have sign : (if place - 1 < 0 then ['-'] else []) = (exponentOf (place - 1)).sign.toList := by
      rw [exponentOf]
      split_ifs <;> rfl
    rw [writeExponential, ← isFraction, exponentCharacters, ExponentPart.characters, ← sign]
    cases rest <;> rfl
  have parts := spells_parts [first] fraction (some (exponentOf (place - 1)))
    (fun digit member => isDigits digit (List.mem_singleton.mp member ▸ List.mem_cons_self))
    (fun others member digit digitMember => isDigits digit (List.mem_cons_of_mem _ (by
      rwa [← isRest, Option.mem_def.mp member])))
    (List.cons_ne_nil _ _) (.inr rfl)
  rw [text]
  rwa [isRest, List.singleton_append, Option.elim_some, power_exponentOf, List.length_singleton,
    Nat.cast_one, add_sub_cancel] at parts

end

theorem spells_writeMagnitude (coefficient : ℕ) (exponent : ℤ) :
    Spells (literal.writeMagnitude coefficient exponent) (coefficient * 10 ^ exponent) := by
  rw [writeMagnitude]
  by_cases zero : coefficient = 0
  · rw [if_pos zero, zero, Nat.cast_zero, zero_mul]
    have point := @spells_point ['0'] ['0'] (fun _ member => @isDigit_of_mem_zeros 1 _ member)
      (fun _ member => @isDigit_of_mem_zeros 1 _ member) (List.cons_ne_nil _ _)
    rwa [valueAt, show digitsValue (['0'] ++ ['0']) = 0 from rfl, Nat.cast_zero, zero_mul] at point
  · have isDigits : ∀ digit ∈ dropTrailingZeros (digitsOf coefficient), digit.isDigit = true :=
      fun digit member => isDigit_of_mem_digitsOf (mem_of_mem_dropTrailingZeros member)
    have filled := dropTrailingZeros_ne_nil zero
    rw [if_neg zero, ← valueAt_dropTrailingZeros]
    dsimp only
    split_ifs
    · exact spells_writePositional isDigits filled _
    · exact spells_writeExponential isDigits filled _

end FloatStyle

/-! ## Literals -/

namespace C

open FloatStyle

theorem isLiteralOf_floatLiteral {value : Float} (finite : value.isFinite = true) :
    IsLiteralOf (floatLiteral value) value := by
  obtain ⟨decimal, shape⟩ := (@shapeOf_finite_iff literal.tie value).mpr finite
  obtain ⟨constant, sign, spelled, magnitude⟩ :=
    spells_writeMagnitude decimal.coefficient decimal.exponent decimal.negative
  have written : (literal.write value).toList = constant.characters := by
    rw [write, shape, String.toList_ofList, spelled, writeDecimal]
  have rounded := decimal.toFloat_roundsTo
  rw [shapeOf_toFloat shape, ← sign, Decimal.magnitude, ← magnitude] at rounded
  refine .intro ?_ rounded
  have marked : (constant.characters.any fun character =>
      character = '.' ∨ character = 'e' ∨ character = 'E') = true := by
    simpa only [List.any_eq_true, decide_eq_true_eq] using constant.exists_mark
  rw [floatLiteral, written, if_pos marked, String.toList_ofList]

theorem floatLiteral_of_not_isFinite {value : Float} (infinite : value.isFinite = false) :
    floatLiteral value = "NaN.0" ∨ floatLiteral value = "inf.0" ∨
      floatLiteral value = "-inf.0" := by
  cases shape : shapeOf literal.tie value with
  | notANumber =>
      rw [floatLiteral, write, shape]
      decide
  | infinite negative =>
      rw [floatLiteral, write, shape]
      cases negative <;> decide
  | finite decimal =>
      rw [shapeOf_finite_iff.mp ⟨decimal, shape⟩] at infinite
      cases infinite

theorem characters_ne_floatLiteral {value : Float} (infinite : value.isFinite = false)
    (constant : FloatingConstant) : constant.characters ≠ (floatLiteral value).toList := by
  have noName : 'N' ∉ constant.characters ∧ 'i' ∉ constant.characters :=
    ⟨fun member => absurd (isDigit_or_of_mem_characters member) (by decide),
      fun member => absurd (isDigit_or_of_mem_characters member) (by decide)⟩
  intro spelled
  rw [spelled] at noName
  rcases floatLiteral_of_not_isFinite infinite with text | text | text
  · exact noName.1 (by simp [text])
  · exact noName.2 (by simp [text])
  · exact noName.2 (by simp [text])

/-! ## Accepted schemas -/

theorem isFinite_range_limits (signal : Signal) :
    (Float.ofInt signal.range.low).isFinite = true ∧
      (Float.ofInt signal.range.high).isFinite = true := by
  rcases signal.exists_range_bits with ⟨bits, fits, high, low⟩
  have positive := Nat.two_pow_pos bits
  exact ⟨Double.isFinite_ofInt (show _ ≤ 2 ^ bits by omega) (by omega),
    Double.isFinite_ofInt (show _ ≤ 2 ^ bits by omega) (by omega)⟩

/-- The constants of a signal in the generated header. The scale and the limits of the raw range
always are constants. The offset and the bounds are if they are finite, which no rule of a schema
demands. -/
theorem literals_of_accepted_signals (schema : Schema) {message : Message}
    (messageMember : message ∈ schema.messages) {signal : Signal}
    (member : signal ∈ message.signals) :
    (∀ value ∈ [signal.linear.scale, Float.ofInt signal.range.low, Float.ofInt signal.range.high],
      IsLiteralOf (floatLiteral value) value) ∧
    ∀ value ∈ signal.linear.offset ::
        (signal.bounds.minimum.toList ++ signal.bounds.maximum.toList),
      (value.isFinite = true → IsLiteralOf (floatLiteral value) value) ∧
      (value.isFinite = false → ∀ constant : FloatingConstant,
        constant.characters ≠ (floatLiteral value).toList) := by
  rcases exists_violation?_eq_none schema.sound message messageMember with ⟨before, sound⟩
  have valid := Signal.violation?_eq_none_iff.mp (Message.signals_sound sound signal member)
  have limits := isFinite_range_limits signal
  refine ⟨fun value listed => isLiteralOf_floatLiteral ?_, fun value _ =>
    ⟨isLiteralOf_floatLiteral, characters_ne_floatLiteral⟩⟩
  simp only [List.mem_cons, List.not_mem_nil, or_false] at listed
  rcases listed with rfl | rfl | rfl
  · exact valid.scale.1
  · exact limits.1
  · exact limits.2

def outdoorTemperature : Signal where
  name := "Temperature"
  start := 0
  length := 8
  byteOrder := .littleEndian
  linear := ⟨0.5, -40⟩
  bounds := { minimum := some (-40), maximum := some (1 / 0) }

def outdoor : Message where
  frameId := 0x31
  name := "Outdoor"
  length := 1
  signals := [outdoorTemperature]

def outdoorSchema : Schema := ⟨none, [outdoor], by decide +kernel⟩

theorem literals_of_accepted_signals_outdoor :
    IsLiteralOf "0.5" 0.5 ∧ IsLiteralOf "-40.0" (-40) ∧ IsLiteralOf "255.0" 255 := by
  have texts : floatLiteral 0.5 = "0.5" ∧ floatLiteral (-40) = "-40.0" ∧
      floatLiteral 255 = "255.0" := by decide +kernel
  have literals := literals_of_accepted_signals outdoorSchema
    (List.mem_singleton.mpr (rfl : outdoor = outdoor))
    (List.mem_singleton.mpr (rfl : outdoorTemperature = outdoorTemperature))
  have scale := literals.1 0.5 List.mem_cons_self
  have offset := (literals.2 (-40) List.mem_cons_self).1 (by decide +kernel)
  have limit := literals.1 255 (List.mem_cons_of_mem _ (List.mem_cons_of_mem _ List.mem_cons_self))
  rw [texts.1] at scale
  rw [texts.2.1] at offset
  rw [texts.2.2] at limit
  exact ⟨scale, offset, limit⟩

/-- An infinite bound is accepted, and what the range test compares with is no constant. -/
theorem not_literal_of_accepted_bound :
    Schema.accept none [outdoor] = .ok outdoorSchema ∧
      rangeTests outdoorTemperature.bounds = ["(physical >= -40.0)", "(physical <= inf.0)"] ∧
      floatLiteral (1 / 0) = "inf.0" ∧
      ∀ constant : FloatingConstant, constant.characters ≠ "inf.0".toList := by
  have text : floatLiteral (1 / 0) = "inf.0" := by decide +kernel
  refine ⟨by rfl, by decide +kernel, text, fun constant => ?_⟩
  rw [← text]
  exact characters_ne_floatLiteral (by decide +kernel) constant

end C

end CanCodec
