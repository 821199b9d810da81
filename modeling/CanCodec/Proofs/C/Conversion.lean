import CanCodec.Proofs.C.Saturation

/-! # Encoding of physical values

The generated function that encodes a physical value keeps the raw value as a double, where
the codec keeps an integer of 128 bits. -/

namespace CanCodec.C

open Double

/-! ## Agreement -/

/-- The conditions under which rounding does not reach the corrections of a candidate, given
the integer nearest to the quotient. -/
inductive KeepsCorrections (signal : Signal) (nearest : Int) : Prop
  | unbounded (minimum : signal.bounds.minimum = none) (maximum : signal.bounds.maximum = none)
  | contradictory (inconsistent : Conversion.isConsistent signal.bounds = false)
  | within (contained : candidateRange.contains nearest = true)
      (isWithin : Conversion.isWithin signal.bounds (signal.toPhysical nearest) = true)
  | small (small : nearest.natAbs < 2 ^ 53)
  | narrow (narrow : signal.length ≤ 53) (small : nearest.natAbs < 2 ^ 127)

section

variable {signal : Signal} {value : Float}

def rawDouble (signal : Signal) (value : Float) : Float :=
  signal.steppedUp (signal.steppedDown (roundAway (signal.quotient value)))

def rawInteger (signal : Signal) (nearest : Int) : Int :=
  signal.pulledUp (signal.pulledDown (candidateRange.clamp nearest))

theorem isNaN_moveInto (bounds : Bounds Float) (nan : value.isNaN) :
    (Conversion.moveInto bounds value).isNaN := by
  have kept : Conversion.moveInto bounds value = value := by
    rcases bounds with ⟨minimum, maximum⟩
    have below (bound : Float) : ¬Quantity.less value bound = true :=
      fun less => not_lt_of_isNaN (.inl nan) (of_decide_eq_true less)
    have above (bound : Float) : ¬Quantity.less bound value = true :=
      fun less => not_lt_of_isNaN (.inr nan) (of_decide_eq_true less)
    cases minimum <;> cases maximum <;>
      simp only [Conversion.moveInto, if_neg (below _), if_neg (above _)]
  rwa [kept]

theorem isNaN_quotient (signal : Signal) (nan : value.isNaN) : (signal.quotient value).isNaN :=
  isNaN_div (isNaN_sub (isNaN_moveInto signal.bounds nan) _) _

theorem toRaw_eq (number : (signal.quotient value).isNaN = false)
    (within : ¬signal.Overflows value) : signal.toRaw value =
      some (signal.range.clamp (rawInteger signal (nearestInt (signal.quotient value)))) := by
  have isNumber : value.isNaN = false := by
    cases nan : value.isNaN with
    | true => exact absurd (isNaN_quotient signal nan) (by rw [number]; exact nofun)
    | false => rfl
  exact Signal.toRaw_of_not_overflows isNumber within

theorem encodePhysical_of_holds (positive : 0 < signal.length) (bound : signal.length ≤ 64)
    {integer : Int} (holds : Holds (rawDouble signal value) integer) :
    ∃ result, encodePhysical signal value = some result ∧
      result.toInt = signal.range.clamp integer := by
  rw [encodePhysical_eq]
  exact runEncoder_saturation positive bound holds _

theorem exists_holds_rawDouble (number : (signal.quotient value).isNaN = false) :
    ∃ integer, Holds (rawDouble signal value) integer := by
  rcases exists_holds_steppedDown signal (holds_roundAway number) with
    ⟨down, holdsDown, -⟩
  rcases exists_holds_steppedUp signal holdsDown with ⟨up, holdsUp, -⟩
  exact ⟨up, holdsUp⟩

theorem encodePhysical_eq_none_iff (positive : 0 < signal.length) (bound : signal.length ≤ 64)
    (value : Float) :
    encodePhysical signal value = none ↔ (signal.quotient value).isNaN := by
  constructor
  · intro undefined
    cases number : (signal.quotient value).isNaN with
    | true => rfl
    | false =>
        rcases exists_holds_rawDouble number with ⟨integer, holds⟩
        rcases encodePhysical_of_holds positive bound holds with ⟨result, encoded, -⟩
        rw [undefined] at encoded
        cases encoded
  · intro nan
    rw [encodePhysical_eq]
    exact runEncoder_saturation_of_isNaN signal
      (isNaN_steppedUp (isNaN_steppedDown (isNaN_roundAway nan))) _

theorem rawDouble_of_settled {nearest : Int}
    (holds : Holds (roundAway (signal.quotient value)) nearest)
    (maximum : signal.passesMaximum (signal.toPhysical nearest) = false)
    (minimum : signal.passesMinimum (signal.toPhysical nearest) = false) :
    rawDouble signal value = roundAway (signal.quotient value) := by
  have alike := alike_linearDouble signal holds
  rw [rawDouble, Signal.steppedDown, passesMaximum_congr signal alike,
    if_neg (ne_true_of_eq_false maximum), Signal.steppedUp, passesMinimum_congr signal alike,
    if_neg (ne_true_of_eq_false minimum)]

theorem rawInteger_of_settled {nearest : Int}
    (maximum : signal.passesMaximum (signal.toPhysical (candidateRange.clamp nearest)) = false)
    (minimum : signal.passesMinimum (signal.toPhysical (candidateRange.clamp nearest)) = false) :
    rawInteger signal nearest = candidateRange.clamp nearest := by
  rw [rawInteger, Signal.pulledDown, if_neg (ne_true_of_eq_false maximum), Signal.pulledUp,
    if_neg (ne_true_of_eq_false minimum)]

theorem holds_rawDouble_of_small {nearest : Int}
    (holds : Holds (roundAway (signal.quotient value)) nearest) (small : nearest.natAbs < 2 ^ 53) :
    Holds (rawDouble signal value) (rawInteger signal nearest) := by
  have unit := Signal.natAbs_step signal.linear
  have contained : candidateRange.contains nearest = true :=
    candidateRange_contains_iff.mpr (by omega)
  have holdsDown := holds_steppedDown signal holds
    (holds.isFinite small (by decide)) (exact_of_natAbs_le (by omega))
  have down := signal.pulledDown_eq_or nearest
  have smallDown : (signal.pulledDown nearest).natAbs < 2 ^ 54 := by omega
  rw [rawInteger, RawRange.clamp_of_contains contained]
  exact holds_steppedUp signal holdsDown (holdsDown.isFinite smallDown (by decide))
    (exact_of_natAbs_le (by omega))

theorem rawInteger_of_large (signal : Signal) {nearest : Int} (small : nearest.natAbs < 2 ^ 127) :
    ((2 : Int) ^ 53 ≤ nearest → (2 : Int) ^ 53 - 1 ≤ rawInteger signal nearest) ∧
      (nearest ≤ -(2 : Int) ^ 53 → rawInteger signal nearest ≤ -(2 : Int) ^ 53 + 1) := by
  have contained : candidateRange.contains nearest = true :=
    candidateRange_contains_iff.mpr (by omega)
  have near := signal.pulled_near nearest
  rw [rawInteger, RawRange.clamp_of_contains contained]
  omega

theorem le_of_stepped {integer stepped target limit : Int} (exact : Exact limit)
    (moved : stepped = integer ∨ Holds (Float.ofInt target) stepped)
    (before : limit ≤ integer ∧ limit ≤ target) : limit ≤ stepped := by
  rcases moved with rfl | holds
  · exact before.1
  · exact holds.le_of_le exact before.2

theorem ge_of_stepped {integer stepped target limit : Int} (exact : Exact limit)
    (moved : stepped = integer ∨ Holds (Float.ofInt target) stepped)
    (after : integer ≤ limit ∧ target ≤ limit) : stepped ≤ limit := by
  rcases moved with rfl | holds
  · exact after.1
  · exact holds.ge_of_ge exact after.2

/-- The steps of a double can be rounded, but they too stay past the raw values of 53 bits. -/
theorem exists_holds_rawDouble_of_large {nearest : Int}
    (holds : Holds (roundAway (signal.quotient value)) nearest) :
    ∃ integer, Holds (rawDouble signal value) integer ∧
      ((2 : Int) ^ 53 ≤ nearest → (2 : Int) ^ 53 - 1 ≤ integer) ∧
      (nearest ≤ -(2 : Int) ^ 53 → integer ≤ -(2 : Int) ^ 53 + 1) := by
  rcases exists_holds_steppedDown signal holds with ⟨down, holdsDown, isDown⟩
  rcases exists_holds_steppedUp signal holdsDown with ⟨up, holdsUp, isUp⟩
  have unit : Conversion.step signal.linear = 1 ∨ Conversion.step signal.linear = -1 := by
    have magnitude := Signal.natAbs_step signal.linear
    omega
  have exact (limit : Int) (near : limit.natAbs ≤ 2 ^ 53) : Exact limit := exact_of_natAbs_le near
  refine ⟨up, holdsUp, fun large => ?_, fun large => ?_⟩
  · -- A raising step is subtracted first, a falling one last.
    rcases unit with raises | falls
    · rw [raises] at isDown isUp
      have far := le_of_stepped (exact (2 ^ 53 - 1) (by decide)) isDown (by omega)
      exact le_of_stepped (exact (2 ^ 53 - 1) (by decide)) isUp (by omega)
    · rw [falls] at isDown isUp
      have far := le_of_stepped (exact (2 ^ 53) (by decide)) isDown (by omega)
      exact le_of_stepped (exact (2 ^ 53 - 1) (by decide)) isUp (by omega)
  · rcases unit with raises | falls
    · rw [raises] at isDown isUp
      have far := ge_of_stepped (exact (-2 ^ 53) (by decide)) isDown (by omega)
      exact ge_of_stepped (exact (-2 ^ 53 + 1) (by decide)) isUp (by omega)
    · rw [falls] at isDown isUp
      have far := ge_of_stepped (exact (-2 ^ 53 + 1) (by decide)) isDown (by omega)
      exact ge_of_stepped (exact (-2 ^ 53 + 1) (by decide)) isUp (by omega)

/-- The encoder's raw value is an integer that is clamped as the codec's is. -/
def ClampedAlike (signal : Signal) (value : Float) (nearest : Int) : Prop :=
  ∃ integer, Holds (rawDouble signal value) integer ∧
    signal.range.clamp integer = signal.range.clamp (rawInteger signal nearest)

section

variable {nearest : Int} (holds : Holds (roundAway (signal.quotient value)) nearest)
include holds

theorem clampedAlike_of_settled
    (maximum : ∀ physical, signal.passesMaximum physical = false)
    (minimum : ∀ physical, signal.passesMinimum physical = false) :
    ClampedAlike signal value nearest := by
  rw [ClampedAlike, rawDouble_of_settled holds (maximum _) (minimum _),
    rawInteger_of_settled (maximum _) (minimum _), clamp_candidateRange_clamp]
  exact ⟨nearest, holds, rfl⟩

theorem clampedAlike_of_isWithin (contained : candidateRange.contains nearest = true)
    (isWithin : Conversion.isWithin signal.bounds (signal.toPhysical nearest) = true) :
    ClampedAlike signal value nearest := by
  have passes := Signal.not_passes_of_isWithin isWithin
  have clamped := RawRange.clamp_of_contains contained
  rw [ClampedAlike, rawDouble_of_settled holds passes.1 passes.2,
    rawInteger_of_settled (clamped.symm ▸ passes.1) (clamped.symm ▸ passes.2), clamped]
  exact ⟨nearest, holds, rfl⟩

theorem clampedAlike_of_small (small : nearest.natAbs < 2 ^ 53) :
    ClampedAlike signal value nearest :=
  ⟨_, holds_rawDouble_of_small holds small, rfl⟩

theorem clampedAlike_of_narrow (narrow : signal.length ≤ 53) (bounded : nearest.natAbs < 2 ^ 127) :
    ClampedAlike signal value nearest := by
  by_cases small : nearest.natAbs < 2 ^ 53
  · exact clampedAlike_of_small holds small
  · have corrected := rawInteger_of_large signal bounded
    rcases exists_holds_rawDouble_of_large holds with ⟨integer, held, above, below⟩
    have range := range_of_narrow narrow
    refine ⟨integer, held, ?_⟩
    unfold RawRange.clamp
    omega

end

/-! ### Steps that stay among the candidates -/

theorem not_overflows_of_settled
    (maximum : signal.passesMaximum (signal.toPhysical (signal.candidate value)) = false)
    (minimum : signal.passesMinimum (signal.toPhysical (signal.candidate value)) = false) :
    ¬signal.Overflows value := by
  have contained := signal.contains_candidate value
  have down : signal.pulledDown (signal.candidate value) = signal.candidate value :=
    if_neg (ne_true_of_eq_false maximum)
  have up : signal.pulledUp (signal.candidate value) = signal.candidate value :=
    if_neg (ne_true_of_eq_false minimum)
  exact Signal.not_overflows_of_contains (by rwa [down]) (by rwa [down, up])

/-- The greatest candidate is not a double, so that a step from a double stays a candidate. -/
theorem not_overflows_of_exact (exact : Exact (nearestInt (signal.quotient value)))
    (small : (nearestInt (signal.quotient value)).natAbs < 2 ^ 127) :
    ¬signal.Overflows value := by
  have different : nearestInt (signal.quotient value) ≠ (2 ^ 127 : Nat) - 1 := by
    intro greatest
    rw [greatest] at exact
    exact not_exact_pred_two_pow (by decide) (by decide) exact
  have contained : candidateRange.contains (nearestInt (signal.quotient value)) = true :=
    candidateRange_contains_iff.mpr (by omega)
  have candidate : signal.candidate value = nearestInt (signal.quotient value) :=
    RawRange.clamp_of_contains contained
  have unit := Signal.natAbs_step signal.linear
  have down := signal.pulledDown_eq_or (nearestInt (signal.quotient value))
  have near := signal.pulled_near (nearestInt (signal.quotient value))
  refine Signal.not_overflows_of_contains ?_ ?_ <;> rw [candidate, candidateRange_contains_iff] <;>
    omega

theorem not_overflows_of_keeps (number : (signal.quotient value).isNaN = false)
    (keeps : KeepsCorrections signal (nearestInt (signal.quotient value))) :
    ¬signal.Overflows value := by
  have exact := (holds_roundAway number).exact
  cases keeps with
  | unbounded minimum maximum =>
      apply not_overflows_of_settled
      · rw [Signal.passesMaximum, maximum]
        rfl
      · rw [Signal.passesMinimum, minimum]
        rfl
  | contradictory inconsistent =>
      apply not_overflows_of_settled
      · rw [Signal.passesMaximum, inconsistent, Bool.and_false]
      · rw [Signal.passesMinimum, inconsistent, Bool.and_false]
  | within contained isWithin =>
      have candidate : signal.candidate value = nearestInt (signal.quotient value) :=
        RawRange.clamp_of_contains contained
      rw [← candidate] at isWithin
      have passes := Signal.not_passes_of_isWithin isWithin
      exact not_overflows_of_settled passes.1 passes.2
  | small small => exact not_overflows_of_exact exact (by omega)
  | narrow narrow bounded => exact not_overflows_of_exact exact bounded

theorem clampedAlike_of_keeps (number : (signal.quotient value).isNaN = false)
    (keeps : KeepsCorrections signal (nearestInt (signal.quotient value))) :
    ClampedAlike signal value (nearestInt (signal.quotient value)) := by
  have holds := holds_roundAway number
  cases keeps with
  | unbounded minimum maximum =>
      apply clampedAlike_of_settled holds
      · intro physical
        rw [Signal.passesMaximum, maximum]
        rfl
      · intro physical
        rw [Signal.passesMinimum, minimum]
        rfl
  | contradictory inconsistent =>
      apply clampedAlike_of_settled holds
      · intro physical
        rw [Signal.passesMaximum, inconsistent, Bool.and_false]
      · intro physical
        rw [Signal.passesMinimum, inconsistent, Bool.and_false]
  | within contained isWithin => exact clampedAlike_of_isWithin holds contained isWithin
  | small small => exact clampedAlike_of_small holds small
  | narrow narrow bounded => exact clampedAlike_of_narrow holds narrow bounded

end

/-- A function that encodes physical values has no result exactly where the quotient is not a
number, as it is for NaN, which the codec takes for raw zero. Elsewhere its result is the raw
value of the codec, as long as no correction is rounded. -/
theorem encodePhysical_agrees (schema : Schema) {message : Message} {signal : Signal}
    (messageMember : message ∈ schema.messages) (signalMember : signal ∈ message.signals)
    (value : Float) :
    (encodePhysical signal value = none ↔ (signal.quotient value).isNaN) ∧
      (value.isNaN → encodePhysical signal value = none ∧ signal.toRaw value = some 0) ∧
      ((signal.quotient value).isNaN = false →
        KeepsCorrections signal (nearestInt (signal.quotient value)) →
        ∃ result, encodePhysical signal value = some result ∧
          signal.toRaw value = some result.toInt) := by
  have bounds := schema.signal_length_bounds messageMember signalMember
  have undefined := encodePhysical_eq_none_iff bounds.1 bounds.2 value
  refine ⟨undefined, fun nan => ⟨?_, ?_⟩, fun number keeps => ?_⟩
  · exact undefined.mpr (isNaN_quotient signal nan)
  · rw [Signal.toRaw_of_isNaN nan, RawRange.clamp_of_contains signal.range_contains_zero]
  · rcases clampedAlike_of_keeps number keeps with ⟨integer, holds, agrees⟩
    rcases encodePhysical_of_holds bounds.1 bounds.2 holds with ⟨result, encoded, isInteger⟩
    have within := not_overflows_of_keeps number keeps
    exact ⟨result, encoded, by rw [isInteger, agrees, toRaw_eq number within]⟩

/-- A signal whose maximum is rounded to a raw value past it. -/
def setpoint : Signal where
  name := "Setpoint"
  start := 0
  length := 8
  byteOrder := .littleEndian
  linear := ⟨0.5, -40⟩
  bounds := { minimum := some (-40), maximum := some 80.3 }

/-- A signal whose largest raw values are corrected past 53 bits. -/
def distance : Signal where
  name := "Distance"
  start := 8
  length := 64
  byteOrder := .littleEndian
  linear := ⟨0.7, 0.5⟩
  bounds := { maximum := some 7457562623574580 }

def trip : Message where
  frameId := 0x31
  name := "Trip"
  length := 9
  signals := [setpoint, distance]

def tripSchema : Schema where
  version := none
  messages := [trip]
  sound := by decide

theorem encodePhysical_agrees_setpoint :
    (encodePhysical setpoint (0 / 0) = none ∧ setpoint.toRaw (0 / 0) = some 0) ∧
      setpoint.steppedDown 241 = 240 ∧
      ∃ result, encodePhysical setpoint 100 = some result ∧ result.toInt = 240 := by
  have agrees :=
    @encodePhysical_agrees tripSchema trip setpoint List.mem_cons_self List.mem_cons_self
  rcases (agrees 100).2.2 (by decide +kernel) (.small (by decide +kernel)) with
    ⟨result, encoded, isRaw⟩
  have sent : setpoint.toRaw 100 = some 240 := by decide +kernel
  exact ⟨(agrees (0 / 0)).2.1 (by decide +kernel), by decide +kernel, result, encoded,
    Option.some.inj (isRaw.symm.trans sent)⟩

/-- NaN has no result, and past 53 bits a rounded correction leads to another raw value. -/
theorem not_encodePhysical_eq_toRaw :
    (¬∀ (schema : Schema) (message : Message) (signal : Signal), message ∈ schema.messages →
      signal ∈ message.signals → ∀ value : Float,
        ∃ result, encodePhysical signal value = some result ∧
          signal.toRaw value = some result.toInt) ∧
      (encodePhysical distance 1e16).map Value.toInt = some 10653660890820828 ∧
      distance.toRaw 1e16 = some 10653660890820829 := by
  refine ⟨fun agrees => ?_, by decide +kernel, by decide +kernel⟩
  rcases agrees tripSchema trip setpoint List.mem_cons_self List.mem_cons_self (0 / 0) with
    ⟨result, encoded, -⟩
  have undefined : (encodePhysical setpoint (0 / 0)).isNone = true := by decide +kernel
  rw [encoded] at undefined
  cases undefined

end CanCodec.C
