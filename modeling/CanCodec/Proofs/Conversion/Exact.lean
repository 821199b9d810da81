import CanCodec.Proofs.Double.Rational

/-! # Exact conversions

The numbers of a signal and a physical value are doubles, which are rational numbers. Where
nothing is rounded off on the way, the conversion of doubles sends what the conversion of
these rational numbers sends. -/

namespace CanCodec

open Double

def Linear.exact (linear : Linear Float) : Linear ℚ := ⟨toRat linear.scale, toRat linear.offset⟩

def Bounds.exact (bounds : Bounds Float) : Bounds ℚ :=
  ⟨bounds.minimum.map toRat, bounds.maximum.map toRat⟩

namespace Conversion

structure HasFiniteNumbers (linear : Linear Float) (bounds : Bounds Float) : Prop where
  scale : linear.scale.isFinite = true
  offset : linear.offset.isFinite = true
  minimum : ∀ minimum ∈ bounds.minimum, minimum.isFinite = true
  maximum : ∀ maximum ∈ bounds.maximum, maximum.isFinite = true

def DecodesExactly (linear : Linear Float) (raw : Int) : Prop :=
  Denotes (toPhysical linear raw) (toPhysical linear.exact raw)

/-- Nothing is rounded off, other than to an integer, when a physical value is converted. A
raw value is decoded only to be compared with a declared bound. -/
structure ConvertsExactly (linear : Linear Float) (bounds : Bounds Float) (physical : Float) :
    Prop extends HasFiniteNumbers linear bounds where
  isFinite : physical.isFinite = true
  quotient : Denotes ((moveInto bounds physical - linear.offset) / linear.scale)
    ((toRat (moveInto bounds physical) - toRat linear.offset) / toRat linear.scale)
  atMaximum : bounds.maximum.isSome = true →
    DecodesExactly linear (candidate linear bounds physical)
  atMinimum : bounds.minimum.isSome = true →
    ∀ lowered ∈ stepDown linear bounds (candidate linear bounds physical),
      DecodesExactly linear lowered

section

variable {linear : Linear Float} {bounds : Bounds Float} {physical : Float} {raw : Int}

namespace HasFiniteNumbers

theorem step_eq (finite : HasFiniteNumbers linear bounds) : step linear = step linear.exact := by
  have zero : Denotes (Quantity.ofInt 0) (Quantity.ofInt 0) := denotes_zero
  rw [step, step, zero.less_eq (.of_isFinite finite.scale)]
  rfl

theorem isConsistent_eq (finite : HasFiniteNumbers linear bounds) :
    isConsistent bounds = isConsistent bounds.exact := by
  rcases finite with ⟨-, -, lower, upper⟩
  rcases bounds with ⟨minimum, maximum⟩
  cases minimum with
  | none => rfl
  | some minimum =>
      cases maximum with
      | none => rfl
      | some maximum =>
          exact Denotes.atMost_eq (.of_isFinite (lower minimum rfl))
            (.of_isFinite (upper maximum rfl))

theorem denotes_moveInto (finite : HasFiniteNumbers linear bounds)
    (isFinite : physical.isFinite = true) :
    Denotes (moveInto bounds physical) (moveInto bounds.exact (toRat physical)) := by
  have given := Denotes.of_isFinite isFinite
  rcases finite with ⟨-, -, lower, upper⟩
  rcases bounds with ⟨minimum, maximum⟩
  cases minimum with
  | none =>
      cases maximum with
      | none => exact given
      | some maximum => exact given.lower (.of_isFinite (upper maximum rfl))
  | some minimum =>
      have raised := given.raise (.of_isFinite (lower minimum rfl))
      cases maximum with
      | none => exact raised
      | some maximum => exact raised.lower (.of_isFinite (upper maximum rfl))

theorem stepDown_eq (finite : HasFiniteNumbers linear bounds)
    (decodes : bounds.maximum.isSome = true → DecodesExactly linear raw) :
    stepDown linear bounds raw = stepDown linear.exact bounds.exact raw := by
  rw [stepDown, stepDown, finite.isConsistent_eq, finite.step_eq]
  cases declared : bounds.maximum with
  | none => simp [Bounds.exact, declared]
  | some maximum =>
      have bound := Denotes.of_isFinite (finite.maximum maximum declared)
      have less := bound.less_eq (decodes (by rw [declared]; rfl))
      simp [Bounds.exact, declared, less]

theorem stepUp_eq (finite : HasFiniteNumbers linear bounds)
    (decodes : bounds.minimum.isSome = true → DecodesExactly linear raw) :
    stepUp linear bounds raw = stepUp linear.exact bounds.exact raw := by
  rw [stepUp, stepUp, finite.isConsistent_eq, finite.step_eq]
  cases declared : bounds.minimum with
  | none => simp [Bounds.exact, declared]
  | some minimum =>
      have bound := Denotes.of_isFinite (finite.minimum minimum declared)
      have less := Denotes.less_eq (decodes (by rw [declared]; rfl)) bound
      simp [Bounds.exact, declared, less]

theorem isWithin_eq (finite : HasFiniteNumbers linear bounds)
    (decodes : DecodesExactly linear raw) :
    isWithin bounds (toPhysical linear raw) =
      isWithin bounds.exact (toPhysical linear.exact raw) := by
  have least : ∀ minimum ∈ bounds.minimum, Quantity.atMost minimum (toPhysical linear raw) =
      Quantity.atMost (toRat minimum) (toPhysical linear.exact raw) :=
    fun minimum declared => Denotes.atMost_eq (.of_isFinite (finite.minimum _ declared)) decodes
  have most : ∀ maximum ∈ bounds.maximum, Quantity.atMost (toPhysical linear raw) maximum =
      Quantity.atMost (toPhysical linear.exact raw) (toRat maximum) :=
    fun maximum declared => Denotes.atMost_eq decodes (.of_isFinite (finite.maximum _ declared))
  rw [isWithin, isWithin, Bounds.exact, Option.all_map, Option.all_map]
  congr 1
  · cases declared : bounds.minimum with
    | none => rfl
    | some minimum => exact least minimum declared
  · cases declared : bounds.maximum with
    | none => rfl
    | some maximum => exact most maximum declared

end HasFiniteNumbers

namespace ConvertsExactly

theorem candidate_eq (exact : ConvertsExactly linear bounds physical) :
    candidate linear bounds physical = candidate linear.exact bounds.exact (toRat physical) := by
  have moved := exact.denotes_moveInto exact.isFinite
  have rounded := nearestInt_eq exact.quotient.isFinite
  rw [exact.quotient.toRat_eq, moved.toRat_eq] at rounded
  exact congrArg candidateRange.clamp rounded

theorem toRaw_eq (exact : ConvertsExactly linear bounds physical) (range : RawRange) :
    toRaw range linear bounds physical =
      toRaw range linear.exact bounds.exact (toRat physical) := by
  have number : Quantity.isNumber physical = true := by
    change (!physical.isNaN) = true
    rw [isNaN_of_isFinite exact.isFinite]
    rfl
  have exactNumber : Quantity.isNumber (toRat physical) = true := rfl
  have down := exact.stepDown_eq exact.atMaximum
  have up : ∀ lowered ∈ stepDown linear bounds (candidate linear bounds physical),
      stepUp linear bounds lowered = stepUp linear.exact bounds.exact lowered :=
    fun lowered isLowered => exact.stepUp_eq fun declared =>
      exact.atMinimum declared lowered isLowered
  rw [toRaw, toRaw, corrected, corrected, if_pos number, if_pos exactNumber, ← exact.candidate_eq,
    ← down]
  exact congrArg (Option.map range.clamp) (Option.bind_congr up)

end ConvertsExactly

end

/-- As long as a raw value of the range decodes inside the declared bounds, a physical value is
sent as such a raw value that decodes nearest to it. This holds of exact numbers, and of doubles
wherever nothing is rounded off. -/
theorem toRaw_isNearest :
    (∀ (length : Nat) (signed : Bool) (linear : Linear ℚ) (bounds : Bounds ℚ) (physical : ℚ),
      linear.scale ≠ 0 →
      (∃ raw, Admissible (.ofBits length signed) linear bounds raw) →
      ∃ raw, toRaw (.ofBits length signed) linear bounds physical = some raw ∧
        IsNearest (.ofBits length signed) linear bounds physical raw) ∧
    ∀ (signal : Signal) (physical : Float),
      ConvertsExactly signal.linear signal.bounds physical →
      toRat signal.linear.scale ≠ 0 →
      (∃ raw, Admissible signal.range signal.linear.exact signal.bounds.exact raw) →
      ∃ raw, signal.toRaw physical = some raw ∧
        IsNearest signal.range signal.linear.exact signal.bounds.exact (toRat physical) raw ∧
        (DecodesExactly signal.linear raw →
          signal.isInRange (signal.toPhysical raw) = true) := by
  refine ⟨fun length signed linear bounds physical nonzero ⟨_, admissible⟩ => ?_,
    fun signal physical exact nonzero ⟨_, admissible⟩ => ?_⟩
  · exact isNearest_toRaw (RawRange.ofBits_isInner length signed) nonzero admissible physical
  · rcases isNearest_toRaw (RawRange.ofBits_isInner signal.length signal.signed) nonzero
      admissible (toRat physical) with ⟨raw, converted, nearest⟩
    have same : signal.toRaw physical = toRaw signal.range signal.linear.exact
      signal.bounds.exact (toRat physical) := exact.toRaw_eq signal.range
    exact ⟨raw, same.trans converted, nearest,
      fun decodes => (exact.isWithin_eq decodes).trans nearest.admissible.isWithin⟩

/-- Halfway between two raw values the one farther from zero is sent. -/
example : toRaw (.ofBits 8 true) (⟨1, 0⟩ : Linear ℚ) {} (-5 / 2) = some (-3) := by decide +kernel

def halfDegrees : Signal :=
  { name := "Temperature", start := 0, length := 8, byteOrder := .littleEndian
    linear := ⟨0.5, -40⟩, bounds := ⟨some (-40), some 60.75⟩ }

theorem convertsExactly_halfDegrees :
    ConvertsExactly halfDegrees.linear halfDegrees.bounds 1000 where
  scale := by decide +kernel
  offset := by decide +kernel
  minimum minimum declared := by
    cases declared
    decide +kernel
  maximum maximum declared := by
    cases declared
    decide +kernel
  isFinite := by decide +kernel
  quotient := ⟨by decide +kernel, by decide +kernel⟩
  atMaximum _ := ⟨by decide +kernel, by decide +kernel⟩
  atMinimum _ lowered isLowered := by
    have stepped : stepDown halfDegrees.linear halfDegrees.bounds
        (candidate halfDegrees.linear halfDegrees.bounds 1000) = some 201 := by decide +kernel
    rw [stepped] at isLowered
    cases isLowered
    exact ⟨by decide +kernel, by decide +kernel⟩

/-- A tenth too many is stepped back below a maximum of 0.96, and half a degree too many below
a maximum of 60.75. -/
theorem toRaw_isNearest_stepped :
    IsNearest (.ofBits 8 false) ⟨1 / 10, 0⟩ ⟨none, some (24 / 25)⟩ (24 / 25) 9 ∧
      IsNearest halfDegrees.range halfDegrees.linear.exact halfDegrees.bounds.exact 1000 201 ∧
        halfDegrees.isInRange (halfDegrees.toPhysical 201) = true := by
  rcases toRaw_isNearest.1 8 false ⟨1 / 10, 0⟩ ⟨none, some (24 / 25)⟩ (24 / 25)
    (by norm_num) ⟨0, by decide +kernel, by decide +kernel⟩ with ⟨tenths, tenthsSent, isTenths⟩
  rcases toRaw_isNearest.2 halfDegrees 1000 convertsExactly_halfDegrees
    (by decide +kernel) ⟨0, by decide +kernel, by decide +kernel⟩ with
    ⟨degrees, degreesSent, isDegrees, decodes⟩
  have nine : toRaw (.ofBits 8 false) (⟨1 / 10, 0⟩ : Linear ℚ) ⟨none, some (24 / 25)⟩
      (24 / 25) = some 9 := by decide +kernel
  have last : halfDegrees.toRaw 1000 = some 201 := by decide +kernel
  have number : toRat 1000 = 1000 := by decide +kernel
  obtain rfl : tenths = 9 := Option.some.inj (tenthsSent.symm.trans nine)
  obtain rfl : degrees = 201 := Option.some.inj (degreesSent.symm.trans last)
  rw [number] at isDegrees
  exact ⟨isTenths, isDegrees, decodes ⟨by decide +kernel, by decide +kernel⟩⟩

end Conversion

end CanCodec
