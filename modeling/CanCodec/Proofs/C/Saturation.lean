import CanCodec.Proofs.C.Correction
import CanCodec.Proofs.Record

/-! # Saturation of a raw value

The encoder moves a value into its bounds, rounds it, corrects it and saturates it. A double
that holds an integer is saturated as the codec clamps the integer. -/

namespace CanCodec.C

open Double

/-! ## Phases of the encoder -/

section

variable (type : Primitive) (signal : Signal) (rest : List EncoderStep)

theorem ite_less (first second whenLess otherwise : Float) :
    (if Quantity.less first second then whenLess else otherwise) =
      if first < second then whenLess else otherwise :=
  if_congr decide_eq_true_iff rfl rfl

theorem runEncoder_raise (minimum : Option Float) (value : Float) (raw : Option Float) :
    runEncoder type (minimum.toList.map .raise ++ rest) value raw =
      runEncoder type rest (Conversion.moveInto ⟨minimum, none⟩ value) raw := by
  cases minimum with
  | none => rfl
  | some bound =>
      exact congrArg (runEncoder type rest · raw) (ite_less value bound bound value).symm

theorem runEncoder_lower (maximum : Option Float) (value : Float) (raw : Option Float) :
    runEncoder type (maximum.toList.map .lower ++ rest) value raw =
      runEncoder type rest (Conversion.moveInto ⟨none, maximum⟩ value) raw := by
  cases maximum with
  | none => rfl
  | some bound =>
      exact congrArg (runEncoder type rest · raw) (ite_less bound value bound value).symm

theorem moveInto_eq (bounds : Bounds Float) (value : Float) :
    Conversion.moveInto bounds value = Conversion.moveInto ⟨none, bounds.maximum⟩
      (Conversion.moveInto ⟨bounds.minimum, none⟩ value) :=
  rfl

theorem runEncoder_stepDown (maximum : Option Float) (value raw : Float) :
    runEncoder type (maximum.toList.map (.stepDown signal.linear) ++ rest) value (some raw) =
      runEncoder type rest value (some (if maximum.any (· < signal.linearDouble raw) then
        raw - stepSize signal.linear else raw)) := by
  cases maximum with
  | none => rfl
  | some bound =>
      simp only [Option.any, decide_eq_true_eq]
      rfl

theorem runEncoder_stepUp (minimum : Option Float) (value raw : Float) :
    runEncoder type (minimum.toList.map (.stepUp signal.linear) ++ rest) value (some raw) =
      runEncoder type rest value (some (if minimum.any (signal.linearDouble raw < ·) then
        raw + stepSize signal.linear else raw)) := by
  cases minimum with
  | none => rfl
  | some bound =>
      simp only [Option.any, decide_eq_true_eq]
      rfl

theorem runEncoder_corrections (value raw : Float) :
    runEncoder type ((if Conversion.isConsistent signal.bounds then
        signal.bounds.maximum.toList.map (.stepDown signal.linear) ++
          signal.bounds.minimum.toList.map (.stepUp signal.linear)
      else []) ++ rest) value (some raw) =
      runEncoder type rest value (some (signal.steppedUp (signal.steppedDown raw))) := by
  unfold Signal.steppedUp Signal.steppedDown Signal.passesMaximum Signal.passesMinimum
  cases Conversion.isConsistent signal.bounds with
  | false => simp only [Bool.and_false, Bool.false_eq_true, if_false, List.nil_append]
  | true =>
      simp only [Bool.and_true, if_true, List.append_assoc]
      rw [runEncoder_stepDown, runEncoder_stepUp]

end

def saturation (signal : Signal) : List EncoderStep :=
  let type := Primitive.ofBits signal.length signal.signed
  [.floor (Float.ofInt signal.range.low) (.ofValue type signal.range.low),
    .ceiling (Float.ofInt signal.range.high) (.ofValue type signal.range.high)]

theorem encodePhysical_eq (signal : Signal) (value : Float) :
    encodePhysical signal value =
      runEncoder (.ofBits signal.length signal.signed) (saturation signal)
        (Conversion.moveInto signal.bounds value)
        (some (signal.steppedUp (signal.steppedDown (roundAway (signal.quotient value))))) := by
  rw [encodePhysical, encoderSteps]
  simp only [List.append_assoc]
  rw [runEncoder_raise, runEncoder_lower, ← moveInto_eq, List.singleton_append, runEncoder,
    runEncoder_corrections]
  rfl

/-! ## Saturation -/

theorem exact_range_low (signal : Signal) : Exact signal.range.low := by
  rcases signal.exists_range_bits with ⟨bits, fits, -, low | ⟨low, -⟩⟩
  · rw [low]
    exact exact_of_natAbs_le (Nat.zero_le _)
  · rw [low]
    exact exact_two_pow .negative bits (by omega)

theorem clamp_candidateRange_clamp (signal : Signal) (integer : Int) :
    signal.range.clamp (candidateRange.clamp integer) = signal.range.clamp integer := by
  rcases signal.exists_range_bits with ⟨bits, fits, high, low⟩
  have power : 2 ^ bits ≤ 2 ^ 64 := Nat.pow_le_pow_right (by decide) (by omega)
  rw [candidateRange_eq]
  unfold RawRange.clamp
  dsimp only
  omega

theorem range_of_narrow {signal : Signal} (narrow : signal.length ≤ 53) :
    -(2 : Int) ^ 53 < signal.range.low ∧ signal.range.high < (2 : Int) ^ 53 := by
  rcases signal.exists_range_bits with ⟨bits, fits, high, low | ⟨low, shorter⟩⟩
  · have power : 2 ^ bits ≤ 2 ^ 53 := Nat.pow_le_pow_right (by decide) (by omega)
    omega
  · have power : 2 ^ bits ≤ 2 ^ 52 := Nat.pow_le_pow_right (by decide) (by omega)
    omega

/-- The converted upper limit separates the doubles as the limit separates the integers,
although it can be the next integer. -/
theorem ofInt_range_high_le_iff (signal : Signal) {raw : Float} {integer : Int}
    (holds : Holds raw integer) :
    Float.ofInt signal.range.high ≤ raw ↔ signal.range.high ≤ integer := by
  rcases signal.exists_range_bits with ⟨bits, fits, high, -⟩
  rw [high]
  by_cases wide : 53 < bits
  · have different : integer ≠ (2 ^ bits : Nat) - 1 := by
      rintro rfl
      exact not_exact_pred_two_pow wide (by omega) holds.exact
    rw [(holds_pred_two_pow wide (by omega)).le_iff holds]
    omega
  · have power : 2 ^ bits ≤ 2 ^ 53 := Nat.pow_le_pow_right (by decide) (by omega)
    have positive := Nat.two_pow_pos bits
    exact (holds_ofInt (exact_of_natAbs_le (by omega))).le_iff holds

theorem ofInt_range_low_le_iff (signal : Signal) {raw : Float} {integer : Int}
    (holds : Holds raw integer) :
    raw ≤ Float.ofInt signal.range.low ↔ integer ≤ signal.range.low :=
  holds.le_iff (holds_ofInt (exact_range_low signal))

theorem primitive_range_contains {signal : Signal} (positive : 0 < signal.length)
    (bound : signal.length ≤ 64) {integer : Int}
    (contained : signal.range.contains integer = true) :
    (Primitive.ofBits signal.length signal.signed).range.contains integer = true :=
  RawRange.contains_ofBits_of_le positive (Primitive.le_bits_ofBits bound _) (Primitive.bits_le _)
    contained

theorem exists_literal {signal : Signal} (positive : 0 < signal.length)
    (bound : signal.length ≤ 64) {limit : Int} (contained : signal.range.contains limit = true) :
    ∃ result, (IntegerLiteral.ofValue (.ofBits signal.length signal.signed) limit).value?.map
        (fun literal => literal.convert (.ofBits signal.length signal.signed)) = some result ∧
      result.toInt = limit := by
  have representable := primitive_range_contains positive bound contained
  rcases IntegerLiteral.exists_value? representable with ⟨literal, evaluated, isLimit⟩
  rw [← isLimit] at representable
  refine ⟨literal.convert _, by rw [evaluated, Option.map_some], ?_⟩
  rw [Value.toInt_convert_of_contains representable, isLimit]

theorem runEncoder_saturation {signal : Signal} (positive : 0 < signal.length)
    (bound : signal.length ≤ 64) {raw : Float} {integer : Int} (holds : Holds raw integer)
    (value : Float) :
    ∃ result, runEncoder (.ofBits signal.length signal.signed) (saturation signal) value
        (some raw) = some result ∧ result.toInt = signal.range.clamp integer := by
  have ordered := RawRange.ofBits_low_le_high signal.length signal.signed
  change signal.range.low ≤ signal.range.high at ordered
  have limits := signal.range_contains_limits
  have below := ofInt_range_low_le_iff signal holds
  have above := ofInt_range_high_le_iff signal holds
  simp only [saturation, runEncoder, Option.bind_some, ge_iff_le, below, above]
  unfold RawRange.clamp
  split_ifs with low high
  · rcases exists_literal positive bound limits.1 with ⟨result, returned, isLow⟩
    exact ⟨result, returned, by omega⟩
  · rcases exists_literal positive bound limits.2 with ⟨result, returned, isHigh⟩
    exact ⟨result, returned, by omega⟩
  · have contained : signal.range.contains integer = true :=
      RawRange.contains_iff.mpr ⟨by omega, by omega⟩
    rcases castTo_of_holds holds (primitive_range_contains positive bound contained) with
      ⟨result, cast, isInteger⟩
    refine ⟨result, cast, ?_⟩
    rw [isInteger]
    omega

/-- A raw value that is not a number passes both limits, and its cast is undefined. -/
theorem runEncoder_saturation_of_isNaN (signal : Signal) {raw : Float} (nan : raw.isNaN)
    (value : Float) :
    runEncoder (.ofBits signal.length signal.signed) (saturation signal) value (some raw) =
      none := by
  have below : ¬raw ≤ Float.ofInt signal.range.low := not_le_of_isNaN (.inl nan)
  have above : ¬raw ≥ Float.ofInt signal.range.high := not_le_of_isNaN (.inr nan)
  simp only [saturation, runEncoder, Option.bind_some, if_neg below, if_neg above]
  exact castTo_of_isNaN _ nan

end CanCodec.C
