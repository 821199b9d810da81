import CanCodec.Proofs.C.Floating
import CanCodec.Proofs.C.FloatingConstant

/-! # Integer constants of C

A suffix names the type of a decimal constant, and a number that the type does not have makes the
constant wider or leaves it without a type. A minus negates a constant that already has its type,
so the least integer of a type is not the negation of a constant of that type. -/

namespace CanCodec.C

open Decimal FloatingConstant

/-! ## Grammar -/

/-- A decimal constant with the suffix `u`, `ll`, `ull` or none. A zero before other digits would
make it octal. -/
structure IntegerConstant where
  digits : List Char
  unsigned : Bool
  long : Bool
  areDigits : ∀ digit ∈ digits, digit.isDigit = true
  filled : digits ≠ []
  decimal : digits.head? = some '0' → digits = ['0']

namespace IntegerConstant

def suffix (unsigned long : Bool) : List Char :=
  (if unsigned then ['u'] else []) ++ if long then ['l', 'l'] else []

def characters (constant : IntegerConstant) : List Char :=
  constant.digits ++ suffix constant.unsigned constant.long

def number (constant : IntegerConstant) : ℕ := digitsValue constant.digits

def suffixType (unsigned long : Bool) : Primitive := ⟨if long then .w64 else .w32, !unsigned⟩

def namedType (constant : IntegerConstant) : Primitive :=
  suffixType constant.unsigned constant.long

/-- The types that a constant can have, in the order in which they are tried. A `long` is as wide
as one of these. -/
def types (constant : IntegerConstant) : List Primitive :=
  [constant.namedType, ⟨.w64, !constant.unsigned⟩]

/-- A constant has the first type that has its number. -/
def value? (constant : IntegerConstant) : Option Value :=
  constant.types.findSome? fun type => Value.of? type constant.number

end IntegerConstant

/-- A constant, the negation of one, or one of the macros `INT32_MIN` and `INT64_MIN`. -/
inductive IntegerExpression
  | plain (constant : IntegerConstant)
  | negated (constant : IntegerConstant)
  | min32
  | min64

/-- The negation of a value after promotion. A signed type has to have it, and an unsigned type
takes it modulo its size. -/
def Value.negate? (value : Value) : Option Value :=
  let operand := value.promote
  if operand.type.signed then of? operand.type (-operand.toInt)
  else some (ofInt operand.type (-operand.toInt))

namespace IntegerExpression

def characters : IntegerExpression → List Char
  | .plain constant => constant.characters
  | .negated constant => '-' :: constant.characters
  | .min32 => "INT32_MIN".toList
  | .min64 => "INT64_MIN".toList

def value? : IntegerExpression → Option Value
  | .plain constant => constant.value?
  | .negated constant => constant.value?.bind Value.negate?
  | .min32 => Value.of? ⟨.w32, true⟩ (-2 ^ 31)
  | .min64 => Value.of? ⟨.w64, true⟩ (-2 ^ 63)

def constant? : IntegerExpression → Option IntegerConstant
  | .plain constant | .negated constant => some constant
  | .min32 | .min64 => none

def Fits (expression : IntegerExpression) : Prop :=
  ∀ constant ∈ expression.constant?, constant.namedType.range.contains constant.number = true

instance (expression : IntegerExpression) : Decidable expression.Fits :=
  inferInstanceAs (Decidable (∀ _ ∈ _, _))

end IntegerExpression

structure ReadsAs (text : String) (value : Value) : Prop where
  grammar : ∃ expression : IntegerExpression, expression.characters = text.toList
  fits : ∀ expression : IntegerExpression, expression.characters = text.toList → expression.Fits
  evaluated : ∀ expression : IntegerExpression, expression.characters = text.toList →
    expression.value? = some value

/-- A text stands for an integer, which conversion to a type does not change. -/
def DenotesIn (type : Primitive) (text : String) (integer : ℤ) : Prop :=
  ∃ value, ReadsAs text value ∧ value.toInt = integer ∧ (value.convert type).toInt = integer

/-! ## Parts -/

namespace IntegerConstant

theorem stops_suffix (unsigned long : Bool) : Stops (suffix unsigned long) := by
  intro character member
  cases unsigned <;> cases long <;> cases member <;> decide

theorem suffix_inj {unsigned long otherUnsigned otherLong : Bool}
    (same : suffix unsigned long = suffix otherUnsigned otherLong) :
    unsigned = otherUnsigned ∧ long = otherLong := by
  revert unsigned long otherUnsigned otherLong
  decide

theorem characters_inj {first second : IntegerConstant}
    (same : first.characters = second.characters) : first = second := by
  rcases append_inj_of_digits (stops_suffix _ _) (stops_suffix _ _) first.areDigits
    second.areDigits same with ⟨digits, suffixes⟩
  rcases suffix_inj suffixes with ⟨signs, lengths⟩
  rcases first with ⟨⟩
  rcases second with ⟨⟩
  simp_all

theorem characters_ne_cons (constant : IntegerConstant) {character : Char}
    (noDigit : character.isDigit = false) (rest : List Char) :
    constant.characters ≠ character :: rest := by
  obtain ⟨digit, others, isDigits⟩ := List.exists_cons_of_ne_nil constant.filled
  have isDigit := constant.areDigits digit (isDigits ▸ List.mem_cons_self)
  intro same
  rw [characters, isDigits, List.cons_append, List.cons.injEq] at same
  rw [same.1, noDigit] at isDigit
  cases isDigit

end IntegerConstant

namespace IntegerExpression

theorem characters_inj {first second : IntegerExpression}
    (same : first.characters = second.characters) : first = second := by
  cases first <;> cases second
  case plain.plain => exact congrArg _ (IntegerConstant.characters_inj same)
  case negated.negated =>
      exact congrArg _ (IntegerConstant.characters_inj (List.cons.inj same).2)
  case min32.min32 | min64.min64 => rfl
  case plain.negated | plain.min32 | plain.min64 =>
      exact absurd same (IntegerConstant.characters_ne_cons _ (by decide) _)
  case negated.plain | min32.plain | min64.plain =>
      exact absurd same.symm (IntegerConstant.characters_ne_cons _ (by decide) _)
  case negated.min32 | negated.min64 | min32.negated | min64.negated =>
      exact absurd (List.cons.inj same).1 (by decide)
  case min32.min64 | min64.min32 => exact absurd same (by decide)

end IntegerExpression

/-! ## Values -/

theorem IntegerConstant.value?_of_contains {constant : IntegerConstant}
    (contained : constant.namedType.range.contains constant.number = true) :
    constant.value? = Value.of? constant.namedType constant.number := by
  rcases Value.exists_of? contained with ⟨value, evaluated, -⟩
  rw [value?, types, List.findSome?_cons, evaluated]

theorem Value.bind_negate?_of? {type : Primitive} {natural : ℕ} (signed : type.signed = true)
    (wide : 32 ≤ type.bits) (contained : type.range.contains natural = true) :
    (of? type natural).bind negate? = of? type (-natural) := by
  have unpromoted : (ofInt type natural).promote = ofInt type natural :=
    if_neg (Nat.not_lt.mpr wide)
  rw [of?, if_pos contained, Option.bind_some, negate?, unpromoted,
    toInt_ofInt_of_contains contained]
  exact if_pos signed

theorem ReadsAs.intro {text : String} {value : Value} {expression : IntegerExpression}
    (spelled : expression.characters = text.toList) (fits : expression.Fits)
    (evaluated : expression.value? = some value) : ReadsAs text value where
  grammar := ⟨expression, spelled⟩
  fits _ isOther := IntegerExpression.characters_inj (spelled.trans isOther.symm) ▸ fits
  evaluated _ isOther := IntegerExpression.characters_inj (spelled.trans isOther.symm) ▸ evaluated

end CanCodec.C
