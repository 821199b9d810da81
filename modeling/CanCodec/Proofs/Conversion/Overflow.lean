import CanCodec.Proofs.Conversion.Candidates
import CanCodec.Proofs.Record
import CanCodec.Proofs.Schema.Acceptance

/-! # Steps past the candidates

A step back of the outermost candidate leads past the integers of 128 bits. Main statement:
this happens exactly when the declared bounds lie wholly past what the candidates decode to,
and then for every number that is sent. -/

namespace CanCodec

open Double Conversion

namespace Signal

def lowest (signal : Signal) : Int := outermost signal.linear (-1)

def highest (signal : Signal) : Int := outermost signal.linear 1

/-- The bounds do not contradict each other, but every value they admit lies below what the
lowest candidate decodes to, or above what the highest one does. -/
def IsBeyondCandidates (signal : Signal) : Prop :=
  isConsistent signal.bounds = true ∧
    ((∃ maximum, signal.bounds.maximum = some maximum ∧
        maximum < signal.toPhysical signal.lowest) ∨
      ∃ minimum, signal.bounds.minimum = some minimum ∧
        signal.toPhysical signal.highest < minimum)

/-! ## Passed bounds -/

theorem passesMaximum_iff {signal : Signal} {physical : Float} :
    signal.passesMaximum physical = true ↔ isConsistent signal.bounds = true ∧
      ∃ maximum, signal.bounds.maximum = some maximum ∧ maximum < physical := by
  rw [passesMaximum, Bool.and_eq_true, and_comm, Option.any_eq_true]
  simp only [decide_eq_true_eq]

theorem passesMinimum_iff {signal : Signal} {physical : Float} :
    signal.passesMinimum physical = true ↔ isConsistent signal.bounds = true ∧
      ∃ minimum, signal.bounds.minimum = some minimum ∧ physical < minimum := by
  rw [passesMinimum, Bool.and_eq_true, and_comm, Option.any_eq_true]
  simp only [decide_eq_true_eq]

theorem isBeyondCandidates_iff {signal : Signal} : signal.IsBeyondCandidates ↔
    signal.passesMaximum (signal.toPhysical signal.lowest) = true ∨
      signal.passesMinimum (signal.toPhysical signal.highest) = true := by
  rw [passesMaximum_iff, passesMinimum_iff, ← and_or_left]
  rfl

theorem ends (signal : Signal) :
    step signal.linear = 1 ∧ signal.lowest = candidateRange.low ∧
        signal.highest = candidateRange.high ∨
      step signal.linear = -1 ∧ signal.lowest = candidateRange.high ∧
        signal.highest = candidateRange.low := by
  rw [lowest, highest, outermost, outermost]
  rcases isDirection_step signal.linear with raises | falls
  · rw [raises]
    exact .inl ⟨rfl, rfl, rfl⟩
  · rw [falls]
    exact .inr ⟨rfl, rfl, rfl⟩

section

variable {signal : Signal} {raw : Int}

/-- A step in a direction leaves the candidates only from the outermost one. -/
theorem contains_add_mul_step_iff {direction : Int} (isDirection : IsDirection direction)
    (contained : candidateRange.contains raw = true) :
    candidateRange.contains (raw + direction * step signal.linear) = false ↔
      raw = outermost signal.linear direction := by
  have bounds := candidateRange_contains_iff.mp contained
  rw [← Bool.not_eq_true, candidateRange_contains_iff, outermost, candidateRange_eq]
  rcases isDirection.mul (isDirection_step signal.linear) with high | low
  · rw [high, if_pos rfl]
    dsimp only
    omega
  · rw [low, if_neg (by decide)]
    dsimp only
    omega

theorem contains_pulledDown_iff (contained : candidateRange.contains raw = true) :
    candidateRange.contains (signal.pulledDown raw) = false ↔
      signal.passesMaximum (signal.toPhysical raw) = true ∧ raw = signal.lowest := by
  rw [pulledDown]
  split_ifs with passes
  · rw [Int.sub_eq_add_neg, ← Int.neg_one_mul, contains_add_mul_step_iff (.inr rfl) contained,
      and_iff_right passes]
    rfl
  · simp [contained, passes]

theorem contains_pulledUp_iff (contained : candidateRange.contains raw = true) :
    candidateRange.contains (signal.pulledUp raw) = false ↔
      signal.passesMinimum (signal.toPhysical raw) = true ∧ raw = signal.highest := by
  rw [pulledUp]
  split_ifs with passes
  · rw [← Int.one_mul (step signal.linear), contains_add_mul_step_iff (.inl rfl) contained,
      and_iff_right passes]
    rfl
  · simp [contained, passes]

end

/-! ## Bounds past the candidates -/

section

variable {signal : Signal} (proper : signal.linear.IsProper) {physical : Float}
  (number : physical.isNaN = false)

include proper

theorem not_passesMinimum {first second : Int}
    (le : step signal.linear * first ≤ step signal.linear * second)
    (passes : signal.passesMaximum (signal.toPhysical first) = true) :
    ¬signal.passesMinimum (signal.toPhysical second) = true := by
  rw [passesMinimum_iff]
  rintro ⟨consistent, minimum, declaredMinimum, below⟩
  rcases passesMaximum_iff.mp passes with ⟨_, maximum, declaredMaximum, above⟩
  have ordered := level_le_boundedLevel consistent declaredMinimum (isNaN_of_lt below).2
    (level maximum)
  have capped := boundedLevel_le declaredMaximum (isNaN_of_lt above).1 (level maximum)
  have decoded := proper.toPhysical_mono le
  have past := level_lt_of_lt above
  have short := level_lt_of_lt below
  change level (signal.toPhysical first) ≤ level (signal.toPhysical second) at decoded
  omega

include number

theorem candidate_eq_lowest
    (passes : signal.passesMaximum (signal.toPhysical signal.lowest) = true) :
    signal.candidate physical = signal.lowest := by
  rcases passesMaximum_iff.mp passes with ⟨_, maximum, declared, above⟩
  have capped := boundedLevel_le declared (isNaN_of_lt above).1 (level physical)
  have past := level_lt_of_lt above
  apply proper.candidate_eq_outermost number (.inr rfl)
  rw [(moveInto_spec signal.bounds number).2]
  change -1 * level (signal.toPhysical signal.lowest) < _
  omega

theorem candidate_eq_highest
    (passes : signal.passesMinimum (signal.toPhysical signal.highest) = true) :
    signal.candidate physical = signal.highest := by
  rcases passesMinimum_iff.mp passes with ⟨consistent, minimum, declared, below⟩
  have raised := level_le_boundedLevel consistent declared (isNaN_of_lt below).2 (level physical)
  have past := level_lt_of_lt below
  apply proper.candidate_eq_outermost number (.inl rfl)
  rw [(moveInto_spec signal.bounds number).2]
  change 1 * level (signal.toPhysical signal.highest) < _
  omega

/-- A step overflows only at an outermost candidate, and bounds past it give that candidate to
every number. -/
theorem overflows_iff : signal.Overflows physical ↔ signal.IsBeyondCandidates := by
  have contained := signal.contains_candidate physical
  rw [Overflows, and_iff_right number, isBeyondCandidates_iff]
  constructor
  · intro overflows
    cases down : candidateRange.contains (signal.pulledDown (signal.candidate physical)) with
    | false =>
        rcases (contains_pulledDown_iff contained).mp down with ⟨passes, same⟩
        exact .inl (same ▸ passes)
    | true =>
        have up := overflows.resolve_left (by simp [down])
        rcases (contains_pulledUp_iff down).mp up with ⟨passes, same⟩
        exact .inr (same ▸ passes)
  · rintro (passes | passes)
    · have same := candidate_eq_lowest proper number passes
      exact .inl ((contains_pulledDown_iff contained).mpr ⟨by rwa [same], same⟩)
    · have same := candidate_eq_highest proper number passes
      -- The minimum is compared after the step back from the maximum, which is not taken here.
      have kept : signal.pulledDown (signal.candidate physical) = signal.highest := by
        rw [pulledDown, if_neg, same]
        rw [same]
        exact fun both => not_passesMinimum proper le_rfl both passes
      have keptContained :
          candidateRange.contains (signal.pulledDown (signal.candidate physical)) = true := by
        rwa [kept, ← same]
      exact .inr ((contains_pulledUp_iff keptContained).mpr ⟨by rwa [kept], kept⟩)

end

theorem isProper {signal : Signal} (scale : signal.HasValidScale)
    (offset : signal.linear.offset.isFinite = true) : signal.linear.IsProper := by
  refine ⟨scale.1, fun zero => scale.2 ?_, offset⟩
  rw [toRat_eq_level scale.1, zero, Int.cast_zero, zero_div]

/-! ## Ends of the range -/

/-- A single step does not bring a raw value back from past an end of the range. -/
theorem clamp_pulled (signal : Signal) (raw : Int) :
    (signal.range.high < raw →
        signal.range.clamp (signal.pulledUp (signal.pulledDown raw)) = signal.range.high) ∧
      (raw < signal.range.low →
        signal.range.clamp (signal.pulledUp (signal.pulledDown raw)) = signal.range.low) := by
  have ordered : signal.range.low ≤ signal.range.high := RawRange.ofBits_low_le_high _ _
  have near := signal.pulled_near raw
  rw [RawRange.clamp]
  omega

/-- A step overflows exactly for the numbers sent by a signal whose bounds lie past the
candidates, at an outermost candidate, and then there is no raw value. All other steps are
exact, and what lies past the range is sent as its near end. -/
theorem overflows_iff_isBeyondCandidates (schema : Schema) {message : Message} {signal : Signal}
    (messageMember : message ∈ schema.messages) (signalMember : signal ∈ message.signals)
    (offset : signal.linear.offset.isFinite = true) (physical : Float) :
    (signal.toRaw physical = none ↔ signal.Overflows physical) ∧
    (signal.Overflows physical ↔ physical.isNaN = false ∧ signal.IsBeyondCandidates) ∧
    (signal.Overflows physical → signal.candidate physical = candidateRange.low ∨
      signal.candidate physical = candidateRange.high) ∧
    (physical.isNaN = false → ¬signal.Overflows physical →
      signal.toRaw physical = some (signal.range.clamp
          (signal.pulledUp (signal.pulledDown (signal.candidate physical)))) ∧
        (signal.range.high < signal.candidate physical →
          signal.toRaw physical = some signal.range.high) ∧
        (signal.candidate physical < signal.range.low →
          signal.toRaw physical = some signal.range.low)) := by
  have valid := (schema.isCatalog.valid message messageMember).signals signal signalMember
  have proper := isProper valid.scale offset
  refine ⟨toRaw_eq_none_iff, ⟨fun overflows => ?_, fun ⟨number, beyond⟩ => ?_⟩, fun overflows => ?_,
    fun number within => ?_⟩
  · exact ⟨overflows.1, (overflows_iff proper overflows.1).mp overflows⟩
  · exact (overflows_iff proper number).mpr beyond
  · have number := overflows.1
    have ends := signal.ends
    rcases isBeyondCandidates_iff.mp ((overflows_iff proper number).mp overflows) with
      passes | passes
    · rw [candidate_eq_lowest proper number passes]
      omega
    · rw [candidate_eq_highest proper number passes]
      omega
  · have exact := toRaw_of_not_overflows number within
    have ends := signal.clamp_pulled (signal.candidate physical)
    rw [exact]
    exact ⟨rfl, fun above => congrArg some (ends.1 above), fun below => congrArg some (ends.2 below)⟩

/-- No charge and no drain has a raw value. A filling is sent as its maximum. -/
theorem overflows_iff_isBeyondCandidates_battery :
    (charge.Overflows 0 ∧ charge.toRaw 0 = none) ∧ (drain.Overflows 0 ∧ drain.toRaw 0 = none) ∧
      ¬filling.Overflows 1e300 ∧ filling.toRaw 1e300 = some 200 := by
  have steps := @overflows_iff_isBeyondCandidates batterySchema battery
  have member : battery ∈ batterySchema.messages := List.mem_cons_self
  have charged := steps member (.head _) (by decide +kernel) 0
  have drained := steps member (.tail _ (.head _)) (by decide +kernel) 0
  have filled := steps member (.tail _ (.tail _ (.head _))) (by decide +kernel) 1e300
  have chargeOverflows := charged.2.1.mpr
    ⟨by decide +kernel, by decide +kernel, .inr ⟨1e39, rfl, by decide +kernel⟩⟩
  have drainOverflows := drained.2.1.mpr
    ⟨by decide +kernel, by decide +kernel, .inl ⟨-1e39, rfl, by decide +kernel⟩⟩
  have fillingStays : ¬filling.Overflows 1e300 := fun overflows => by
    have passes := isBeyondCandidates_iff.mp (filled.2.1.mp overflows).2
    exact absurd passes (by decide +kernel)
  have fillingSent := (filled.2.2.2 (by decide +kernel) fillingStays).1
  exact ⟨⟨chargeOverflows, charged.1.mpr chargeOverflows⟩,
    ⟨drainOverflows, drained.1.mpr drainOverflows⟩, fillingStays,
    fillingSent.trans (by decide +kernel)⟩

/-- From bounds past the candidates a step leads past either end of them. -/
theorem not_forall_not_overflows :
    (¬∀ (schema : Schema) (message : Message) (signal : Signal), message ∈ schema.messages →
      signal ∈ message.signals → signal.linear.offset.isFinite = true →
        ∀ physical : Float, ¬signal.Overflows physical) ∧
      (charge.candidate 1e39 = candidateRange.high ∧ charge.toRaw 1e39 = none) ∧
      drain.candidate (-1e39) = candidateRange.low ∧ drain.toRaw (-1e39) = none := by
  refine ⟨fun within => ?_, ⟨by decide +kernel, by decide +kernel⟩, by decide +kernel,
    by decide +kernel⟩
  exact within batterySchema battery charge (.head _) (.head _) (by decide +kernel) 1e39
    (by decide +kernel)

end Signal

end CanCodec
