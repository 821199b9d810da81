import CanCodec.Proofs.C.Definitions
import CanCodec.Proofs.C.IntegerConstant
import CanCodec.Proofs.C.Saturation
import CanCodec.Proofs.Decimal.Style
import CanCodec.Proofs.Numeral

/-! # Integers of the generated header

A raw value is written as a constant expression whose value it is. The expressions stand in the
macros for choices and in the functions that encode physical values, which return them where the
raw value is saturated. -/

namespace CanCodec.C

open Decimal

/-! ## Written integers -/

namespace IntegerConstant

def ofNatural (natural : ℕ) (unsigned long : Bool) : IntegerConstant where
  digits := digitsOf natural
  unsigned := unsigned
  long := long
  areDigits _ member := isDigit_of_mem_digitsOf member
  filled := Nat.toDigits_ne_nil
  decimal leading := by
    rw [eq_zero_of_head?_digitsOf natural leading]
    rfl

theorem number_ofNatural (natural : ℕ) (unsigned long : Bool) :
    (ofNatural natural unsigned long).number = natural :=
  digitsValue_digitsOf natural

theorem thirtyTwo_le_suffixType (unsigned long : Bool) : 32 ≤ (suffixType unsigned long).bits := by
  cases unsigned <;> cases long <;> decide

end IntegerConstant

namespace IntegerExpression

def ofInteger (integer : ℤ) (unsigned long : Bool) : IntegerExpression :=
  let constant := IntegerConstant.ofNatural integer.natAbs unsigned long
  if integer < 0 then .negated constant else .plain constant

theorem characters_ofInteger (integer : ℤ) (unsigned long : Bool) :
    (ofInteger integer unsigned long).characters =
      (toString integer).toList ++ IntegerConstant.suffix unsigned long := by
  rw [Text.toList_toString, ofInteger]
  split <;> rfl

section

variable {integer : ℤ} {unsigned long : Bool}
  (contained : (IntegerConstant.suffixType unsigned long).range.contains integer.natAbs = true)

include contained

theorem fits_ofInteger : (ofInteger integer unsigned long).Fits := by
  have fits : (IntegerConstant.ofNatural integer.natAbs unsigned long).namedType.range.contains
      (IntegerConstant.ofNatural integer.natAbs unsigned long).number = true := by
    rw [IntegerConstant.number_ofNatural]
    exact contained
  intro constant member
  rw [ofInteger] at member
  split at member <;> exact Option.mem_some_iff.mp member ▸ fits

theorem value?_ofInteger (signed : integer < 0 → unsigned = false) :
    (ofInteger integer unsigned long).value? =
      Value.of? (IntegerConstant.suffixType unsigned long) integer := by
  have constant : (IntegerConstant.ofNatural integer.natAbs unsigned long).value? =
      Value.of? (IntegerConstant.suffixType unsigned long) integer.natAbs := by
    rw [IntegerConstant.value?_of_contains, IntegerConstant.number_ofNatural]
    · rfl
    · rw [IntegerConstant.number_ofNatural]
      exact contained
  rw [ofInteger]
  split
  next negative =>
    rw [signed negative] at contained constant ⊢
    rw [value?, constant, Value.bind_negate?_of? rfl
      (IntegerConstant.thirtyTwo_le_suffixType _ _) contained]
    congr 1
    omega
  next natural =>
    rw [value?, constant]
    congr 1
    omega

end

example : ¬(ofInteger (-2147483648) false false).Fits := by decide
example : (ofInteger (-9223372036854775808) false true).value?.isNone := by decide

end IntegerExpression

namespace IntegerLiteral

def expression : IntegerLiteral → IntegerExpression
  | .min64 => .min64
  | .min32 => .min32
  | .signed value long => .ofInteger value false long
  | .unsigned value long => .ofInteger value true long

theorem characters_expression (literal : IntegerLiteral) :
    literal.expression.characters = literal.text.toList := by
  cases literal with
  | min64 => rfl
  | min32 => rfl
  | signed value long | unsigned value long =>
      rw [expression, text, IntegerExpression.characters_ofInteger, String.toList_append]
      cases long <;> rfl

/-- The magnitude of an integer of a type has the type that the suffix names, unless the integer
is the least of 32 or of 64 bits. -/
theorem contains_natAbs {type : Primitive} {integer : ℤ}
    (contained : type.range.contains integer = true)
    (notLeast : type.signed = true → integer ≠ -2 ^ 63 ∧ integer ≠ -2 ^ 31) :
    (IntegerConstant.suffixType (!type.signed) (32 < type.bits)).range.contains
      integer.natAbs = true := by
  obtain ⟨magnitude, isMagnitude⟩ : ∃ magnitude, integer.natAbs = magnitude := ⟨_, rfl⟩
  rw [range_contains_iff] at contained ⊢
  rw [isMagnitude]
  rcases type with ⟨width, signed⟩
  cases width <;> cases signed <;>
    simp [Primitive.bits, Width.bits, IntegerConstant.suffixType] at contained notLeast ⊢ <;> omega

theorem expression_ofValue {type : Primitive} {integer : ℤ}
    (contained : type.range.contains integer = true) :
    (ofValue type integer).expression.Fits ∧
      (ofValue type integer).expression.value? = (ofValue type integer).value? := by
  unfold ofValue
  dsimp only
  split_ifs with signed least64 least32
  · exact ⟨nofun, rfl⟩
  · exact ⟨nofun, rfl⟩
  · have fits := contains_natAbs contained fun _ => ⟨least64, least32⟩
    rw [signed] at fits
    exact ⟨IntegerExpression.fits_ofInteger fits,
      IntegerExpression.value?_ofInteger fits fun _ => rfl⟩
  · rw [Bool.not_eq_true] at signed
    have fits := contains_natAbs contained fun isSigned => absurd isSigned (by rw [signed]; decide)
    rw [signed] at fits
    have natural : 0 ≤ integer := by
      have bounds := range_contains_iff.mp contained
      rw [signed] at bounds
      exact bounds.1
    exact ⟨IntegerExpression.fits_ofInteger fits,
      IntegerExpression.value?_ofInteger fits fun negative => absurd natural (by omega)⟩

theorem denotesIn_ofValue {type : Primitive} {integer : ℤ}
    (contained : type.range.contains integer = true) :
    DenotesIn type (ofValue type integer).text integer := by
  rcases exists_value? contained with ⟨value, evaluated, isInteger⟩
  have written := expression_ofValue contained
  refine ⟨value, .intro (characters_expression _) written.1 (written.2.trans evaluated),
    isInteger, ?_⟩
  rw [Value.toInt_convert_of_contains (isInteger ▸ contained), isInteger]

theorem denotesIn_ofBits {length : ℕ} {signed : Bool} {raw : ℤ} (positive : 0 < length)
    (bound : length ≤ 64) (contained : (RawRange.ofBits length signed).contains raw = true) :
    DenotesIn (.ofBits length signed) (ofValue (.ofBits length signed) raw).text raw :=
  denotesIn_ofValue (RawRange.contains_ofBits_of_le positive (Primitive.le_bits_ofBits bound _)
    (Primitive.bits_le _) contained)

end IntegerLiteral

/-! ## Macros for choices -/

/-- A macro is that of a choice, and its body stands for the raw value in the signal's type. -/
structure DefinesChoice (stem : String) (signal : Signal) (choice : ℤ × String)
    (constant : Macro) : Prop where
  name : constant.name =
    s!"{stem}_{Identifier.upper signal.name}_{Identifier.upper choice.2}_CHOICE"
  body : DenotesIn (.ofBits signal.length signal.signed) constant.body choice.1

theorem forall₂_choiceMacros {signal : Signal} (positive : 0 < signal.length)
    (bound : signal.length ≤ 64) (inRange : signal.ChoicesInRange) {choices : Choices}
    (declared : signal.choices = some choices) (stem : String) :
    List.Forall₂ (DefinesChoice stem signal) choices.entries (choiceMacros stem signal) := by
  rw [choiceMacros, declared]
  dsimp only
  rw [List.forall₂_map_right_iff, List.forall₂_same]
  intro choice member
  exact ⟨rfl, IntegerLiteral.denotesIn_ofBits positive bound
    (inRange choices declared choice member)⟩

theorem mem_recordHeader_of_choiceMacros (options : Options) (version : Option String)
    (fileName : String) {codecs : List Codec} {codec : Codec} (codecMember : codec ∈ codecs)
    {signal : Signal} (signalMember : signal ∈ codec.message.signals) {constant : Macro}
    (member : constant ∈ choiceMacros (macroName options codec.message) signal) :
    .code constant.text ∈ recordHeader options version fileName codecs := by
  have listed : constant ∈ messageMacros options codec.message :=
    List.mem_append_right _ (List.mem_flatMap_of_mem signalMember member)
  have line : Item.code constant.text ∈ macroItems options codec.message :=
    List.mem_cons_of_mem _ (List.mem_map_of_mem listed)
  exact (macroItems_infix_recordHeader options version fileName codecMember).subset line

/-! ## Saturated results -/

def EncoderStep.returns : EncoderStep → Bool
  | .floor _ _ | .ceiling _ _ => true
  | _ => false

/-- The steps of an encoder that return are two, and their results stand for the limits of the
raw range in the signal's type. -/
structure ReturnsLimits (signal : Signal) (low high : IntegerLiteral) : Prop where
  steps : (encoderSteps signal).filter EncoderStep.returns =
    [.floor (Float.ofInt signal.range.low) low, .ceiling (Float.ofInt signal.range.high) high]
  low : DenotesIn (.ofBits signal.length signal.signed) low.text signal.range.low
  high : DenotesIn (.ofBits signal.length signal.signed) high.text signal.range.high

theorem filter_returns_encoderSteps (signal : Signal) :
    (encoderSteps signal).filter EncoderStep.returns = saturation signal := by
  have plain : ∀ (bound : Option Float) (step : Float → EncoderStep),
      (∀ limit, (step limit).returns = false) →
      (bound.toList.map step).filter EncoderStep.returns = [] := by
    intro bound step returnsNot
    cases bound with
    | none => rfl
    | some limit => exact List.filter_cons_of_neg (by simp [returnsNot])
  rw [encoderSteps, List.filter_append, List.filter_append, List.filter_append,
    List.filter_append, plain _ _ fun _ => rfl, plain _ _ fun _ => rfl]
  split
  · rw [List.filter_append, plain _ _ fun _ => rfl, plain _ _ fun _ => rfl]
    rfl
  · rfl

theorem returnsLimits {signal : Signal} (positive : 0 < signal.length)
    (bound : signal.length ≤ 64) :
    ReturnsLimits signal
      (.ofValue (.ofBits signal.length signal.signed) signal.range.low)
      (.ofValue (.ofBits signal.length signal.signed) signal.range.high) where
  steps := filter_returns_encoderSteps signal
  low := IntegerLiteral.denotesIn_ofBits positive bound signal.range_contains_limits.1
  high := IntegerLiteral.denotesIn_ofBits positive bound signal.range_contains_limits.2

theorem encodeFunction_infix_recordHeader (options : Options) (version : Option String)
    (fileName : String) {codecs : List Codec} {codec : Codec} (codecMember : codec ∈ codecs)
    {field : Field} (member : field ∈ codec.fields) :
    encodeFunction options codec.message field <:+:
      recordHeader options version fileName codecs := by
  have conversions : encodeFunction options codec.message field <:+:
      conversionFunctions options codec.message field := by
    rw [conversionFunctions, List.append_assoc]
    exact (List.prefix_append _ _).isInfix
  have fields : conversionFunctions options codec.message field <:+:
      messageFunctions options codec :=
    (List.infix_of_mem_flatten (List.mem_map_of_mem member)).trans
      (List.suffix_append _ _).isInfix
  exact (conversions.trans fields).trans
    (messageFunctions_infix_recordHeader options version fileName codecMember)

/-! ## Headers -/

theorem length_bounds_of_plan {schema : Schema} {options : Options} {codebook : Codebook}
    (planned : Codebook.plan schema options = .ok codebook) {codec : Codec}
    (codecMember : codec ∈ codebook.codecs) {field : Field} (member : field ∈ codec.fields) :
    0 < field.signal.length ∧ field.signal.length ≤ 64 := by
  rw [Codebook.codecs_eq_map planned] at codecMember
  rcases List.mem_map.mp codecMember with ⟨message, listed, rfl⟩
  have signalMember : field.signal ∈ message.signals :=
    map_signal_ofMessage options.packed message ▸ List.mem_map_of_mem member
  exact schema.signal_length_bounds (List.mem_filter.mp listed).1 signalMember

def stamp : Signal where
  name := "Stamp"
  start := 0
  length := 64
  byteOrder := .littleEndian
  signed := true
  choices := some ⟨[(-9223372036854775808, "Invalid"), (-2147483648, "Legacy"), (0, "Epoch")],
    by simp [Ascending]⟩

def clock : Message where
  frameId := 0x31
  name := "Clock"
  length := 8
  signals := [stamp]

def clockSchema : Schema where
  version := none
  messages := [clock]
  sound := by decide

end CanCodec.C
