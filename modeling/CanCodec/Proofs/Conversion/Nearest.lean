import Mathlib.Order.Interval.Set.OrdConnected
import Mathlib.Tactic.LinearCombination
import CanCodec.Proofs.Conversion.Rounding

/-! # The nearest admissible raw value

Over exact numbers, a physical value is sent as the raw value that decodes nearest to it,
among those that the range holds and that decode inside the declared bounds. -/

namespace CanCodec

instance : Quantity ℚ where
  ofInt := Int.cast
  isNumber _ := true
  less first second := first < second
  atMost first second := first ≤ second
  nearest := roundHalfAway

def Bounds.clamp (bounds : Bounds ℚ) (physical : ℚ) : ℚ :=
  let raised := bounds.minimum.elim physical (max physical)
  bounds.maximum.elim raised (min raised)

namespace Conversion

structure Admissible (range : RawRange) (linear : Linear ℚ) (bounds : Bounds ℚ) (raw : ℤ) :
    Prop where
  contained : range.contains raw = true
  isWithin : isWithin bounds (toPhysical linear raw) = true

/-- How far from a number, once that is moved into the declared bounds, a raw value decodes. -/
def distance (linear : Linear ℚ) (bounds : Bounds ℚ) (physical : ℚ) (raw : ℤ) : ℚ :=
  |toPhysical linear raw - bounds.clamp physical|

/-- An admissible raw value that decodes nearest to a number; of two equally near ones it is
the one farther from zero. -/
structure IsNearest (range : RawRange) (linear : Linear ℚ) (bounds : Bounds ℚ) (physical : ℚ)
    (raw : ℤ) : Prop where
  admissible : Admissible range linear bounds raw
  least : ∀ other, Admissible range linear bounds other →
    distance linear bounds physical raw ≤ distance linear bounds physical other
  tie : ∀ other, Admissible range linear bounds other → other ≠ raw →
    distance linear bounds physical other = distance linear bounds physical raw →
      other.natAbs < raw.natAbs

/-! ## Bounds -/

section

variable {bounds : Bounds ℚ} {physical : ℚ}

theorem isWithin_iff : isWithin bounds physical = true ↔
    (∀ minimum ∈ bounds.minimum, minimum ≤ physical) ∧
      ∀ maximum ∈ bounds.maximum, physical ≤ maximum := by
  rw [isWithin, Bool.and_eq_true, Option.all_eq_true, Option.all_eq_true]
  simp only [Quantity.atMost, decide_eq_true_eq, Option.mem_def]

theorem isConsistent_of_isWithin (within : isWithin bounds physical = true) :
    isConsistent bounds = true := by
  rw [isWithin_iff] at within
  rw [isConsistent]
  split
  · next minimum maximum isMinimum isMaximum =>
      exact decide_eq_true ((within.1 minimum isMinimum).trans (within.2 maximum isMaximum))
  · rfl

theorem moveInto_eq_clamp (bounds : Bounds ℚ) (physical : ℚ) :
    moveInto bounds physical = bounds.clamp physical := by
  have raise : ∀ minimum : ℚ, (if physical < minimum then minimum else physical) =
      max physical minimum := fun minimum => (max_def_lt physical minimum).symm
  have lower : ∀ raised maximum : ℚ, (if maximum < raised then maximum else raised) =
      min raised maximum := fun raised maximum => by rw [min_comm, min_def_lt]
  rcases bounds with ⟨minimum, maximum⟩
  cases minimum <;> cases maximum <;>
    simp only [moveInto, Bounds.clamp, Quantity.less, decide_eq_true_eq, raise, lower,
      Option.elim_none, Option.elim_some]

theorem isWithin_clamp {admitted : ℚ} (within : isWithin bounds admitted = true)
    (physical : ℚ) : isWithin bounds (bounds.clamp physical) = true := by
  rw [isWithin_iff] at within ⊢
  rcases bounds with ⟨minimum, maximum⟩
  cases minimum <;> cases maximum <;> simp [Bounds.clamp] at within ⊢
  exact within.1.trans within.2

theorem ordConnected_isWithin (bounds : Bounds ℚ) :
    {physical | isWithin bounds physical = true}.OrdConnected := by
  refine ⟨fun first firstMem second secondMem between inside => isWithin_iff.mpr ?_⟩
  have firstWithin := isWithin_iff.mp firstMem
  have secondWithin := isWithin_iff.mp secondMem
  exact ⟨fun minimum declared => (firstWithin.1 minimum declared).trans inside.1,
    fun maximum declared => inside.2.trans (secondWithin.2 maximum declared)⟩

end

/-! ## The linear conversion -/

section

variable {linear : Linear ℚ}

theorem toPhysical_eq (linear : Linear ℚ) (raw : ℤ) :
    toPhysical linear raw = raw * linear.scale + linear.offset := rfl

theorem abs_eq_step_mul (nonzero : linear.scale ≠ 0) :
    (step linear : ℚ) * linear.scale = |linear.scale| := by
  rw [step]
  split_ifs with positive
  · have positive : 0 < linear.scale := by simpa [Quantity.less, Quantity.ofInt] using positive
    rw [abs_of_pos positive, Int.cast_one, one_mul]
  · have negative : linear.scale < 0 := by
      refine lt_of_le_of_ne (not_lt.mp fun positive' => positive ?_) nonzero
      simpa [Quantity.less, Quantity.ofInt] using positive'
    rw [abs_of_neg negative]
    push_cast
    ring

theorem linear_lt_iff (nonzero : linear.scale ≠ 0) {first second : ℚ} :
    first * linear.scale + linear.offset < second * linear.scale + linear.offset ↔
      step linear * first < step linear * second := by
  have size : 0 < |linear.scale| := abs_pos.mpr nonzero
  have square : (step linear : ℚ) * step linear = 1 := by
    exact_mod_cast (isDirection_step linear).mul_self
  have scaled : ∀ value : ℚ, value * linear.scale = step linear * value * |linear.scale| := by
    intro value
    rw [← abs_eq_step_mul nonzero]
    linear_combination -value * linear.scale * square
  rw [scaled first, scaled second, add_lt_add_iff_right, mul_lt_mul_iff_left₀ size]

theorem toPhysical_lt_iff (nonzero : linear.scale ≠ 0) {first second : ℤ} :
    toPhysical linear first < toPhysical linear second ↔
      step linear * first < step linear * second := by
  rw [toPhysical_eq, toPhysical_eq, linear_lt_iff nonzero]
  exact_mod_cast Iff.rfl

def interval (linear : Linear ℚ) (bounds : Bounds ℚ) : Set ℚ :=
  {value | isWithin bounds (value * linear.scale + linear.offset) = true}

theorem ordConnected_interval (linear : Linear ℚ) (bounds : Bounds ℚ) :
    (interval linear bounds).OrdConnected := by
  have connected := ordConnected_isWithin bounds
  rcases le_total 0 linear.scale with nonneg | nonpos
  · exact connected.preimage_mono fun first second le =>
      add_le_add_left (mul_le_mul_of_nonneg_right le nonneg) linear.offset
  · exact connected.preimage_anti fun first second le =>
      add_le_add_left (mul_le_mul_of_nonpos_right le nonpos) linear.offset

end

/-! ## Stepping back -/

section

variable {linear : Linear ℚ} {bounds : Bounds ℚ} {raw : ℤ}

theorem stepDown_of_passed {maximum : ℚ} (declared : bounds.maximum = some maximum)
    (consistent : isConsistent bounds = true) (passed : maximum < toPhysical linear raw) :
    stepDown linear bounds raw = candidate? (raw - step linear) := by
  simp [stepDown, declared, consistent, Quantity.less, passed]

theorem stepDown_of_atMost
    (kept : ∀ maximum ∈ bounds.maximum, toPhysical linear raw ≤ maximum) :
    stepDown linear bounds raw = some raw := by
  rw [stepDown]
  split
  · next maximum declared =>
      simp [Quantity.less, not_lt.mpr (kept maximum declared)]
  · rfl

theorem stepUp_of_passed {minimum : ℚ} (declared : bounds.minimum = some minimum)
    (consistent : isConsistent bounds = true) (passed : toPhysical linear raw < minimum) :
    stepUp linear bounds raw = candidate? (raw + step linear) := by
  simp [stepUp, declared, consistent, Quantity.less, passed]

theorem stepUp_of_atLeast
    (kept : ∀ minimum ∈ bounds.minimum, minimum ≤ toPhysical linear raw) :
    stepUp linear bounds raw = some raw := by
  rw [stepUp]
  split
  · next minimum declared =>
      simp [Quantity.less, not_lt.mpr (kept minimum declared)]
  · rfl

end

/-! ## The nearest raw value -/

def target (linear : Linear ℚ) (bounds : Bounds ℚ) (physical : ℚ) : ℚ :=
  (bounds.clamp physical - linear.offset) / linear.scale

theorem candidate_eq (linear : Linear ℚ) (bounds : Bounds ℚ) (physical : ℚ) :
    candidate linear bounds physical =
      candidateRange.clamp (roundHalfAway (target linear bounds physical)) := by
  rw [candidate, moveInto_eq_clamp]
  rfl

section

variable {range : RawRange} {linear : Linear ℚ} {bounds : Bounds ℚ} {reference : ℤ}

theorem settledFor_target (linear : Linear ℚ) (inner : range.IsInner) {direction : ℤ}
    (isDirection : IsDirection direction) (bounds : Bounds ℚ) (physical : ℚ) :
    SettledFor range (target linear bounds physical) direction
      (candidate linear bounds physical) := by
  rw [candidate_eq]
  exact settledFor_candidate inner isDirection

theorem target_decodes (nonzero : linear.scale ≠ 0) (bounds : Bounds ℚ) (physical : ℚ) :
    target linear bounds physical * linear.scale + linear.offset = bounds.clamp physical := by
  rw [target, div_mul_cancel₀ _ nonzero, sub_add_cancel]

theorem distance_eq (nonzero : linear.scale ≠ 0) (bounds : Bounds ℚ) (physical : ℚ) (raw : ℤ) :
    distance linear bounds physical raw =
      |(raw : ℚ) - target linear bounds physical| * |linear.scale| := by
  rw [distance, ← target_decodes nonzero, toPhysical_eq, ← abs_mul]
  ring_nf

theorem target_mem (nonzero : linear.scale ≠ 0)
    (admissible : Admissible range linear bounds reference) (physical : ℚ) :
    target linear bounds physical ∈ interval linear bounds := by
  rw [interval, Set.mem_ofPred_eq, target_decodes nonzero]
  exact isWithin_clamp admissible.isWithin physical

theorem candidate?_sub {direction raw : ℤ} (inner : range.IsInner)
    (contained : range.contains reference = true) (isDirection : IsDirection direction)
    (isCandidate : candidateRange.contains raw = true)
    (ahead : direction * reference < direction * raw) :
    candidate? (raw - direction) = some (raw - direction) := by
  have bounds := RawRange.contains_iff.mp contained
  have candidateBounds := RawRange.contains_iff.mp isCandidate
  apply candidate?_of_contains
  rw [RawRange.contains_iff]
  rcases inner with ⟨low, high⟩
  rcases isDirection with rfl | rfl <;> constructor <;> omega

/-- Down a candidate is stepped only from past the maximum, and then toward the target. -/
theorem stepDown_spec (inner : range.IsInner) (nonzero : linear.scale ≠ 0)
    (admissible : Admissible range linear bounds reference) (physical : ℚ) {raw : ℤ}
    (isCandidate : candidateRange.contains raw = true) :
    (stepDown linear bounds raw = some raw ∧
      ∀ maximum ∈ bounds.maximum, toPhysical linear raw ≤ maximum) ∨
    ∃ stepped, stepDown linear bounds raw = some stepped ∧
      SteppedBack (interval linear bounds) (target linear bounds physical) raw stepped := by
  by_cases past : ∃ maximum ∈ bounds.maximum, maximum < toPhysical linear raw
  · right
    rcases past with ⟨maximum, declared, past⟩
    have targetWithin := isWithin_iff.mp (target_mem nonzero admissible physical)
    have referenceWithin := isWithin_iff.mp admissible.isWithin
    have passed : step linear * target linear bounds physical < step linear * raw :=
      (linear_lt_iff nonzero).mp ((targetWithin.2 maximum declared).trans_lt past)
    have ahead := (toPhysical_lt_iff nonzero).mp
      ((referenceWithin.2 maximum declared).trans_lt past)
    have outside : (raw : ℚ) ∉ interval linear bounds := fun mem =>
      absurd past (not_lt.mpr ((isWithin_iff.mp mem).2 maximum declared))
    refine ⟨_, ?_, .back _ (isDirection_step linear) outside passed⟩
    rw [stepDown_of_passed declared (isConsistent_of_isWithin admissible.isWithin) past,
      candidate?_sub inner admissible.contained (isDirection_step linear) isCandidate ahead]
  · left
    have atMost : ∀ maximum ∈ bounds.maximum, toPhysical linear raw ≤ maximum :=
      fun maximum declared => not_lt.mp fun less => past ⟨maximum, declared, less⟩
    exact ⟨stepDown_of_atMost atMost, atMost⟩

theorem stepUp_spec (inner : range.IsInner) (nonzero : linear.scale ≠ 0)
    (admissible : Admissible range linear bounds reference) (physical : ℚ) {raw : ℤ}
    (isCandidate : candidateRange.contains raw = true) :
    (stepUp linear bounds raw = some raw ∧
      ∀ minimum ∈ bounds.minimum, minimum ≤ toPhysical linear raw) ∨
    ∃ stepped, stepUp linear bounds raw = some stepped ∧
      SteppedBack (interval linear bounds) (target linear bounds physical) raw stepped := by
  by_cases short : ∃ minimum ∈ bounds.minimum, toPhysical linear raw < minimum
  · right
    rcases short with ⟨minimum, declared, short⟩
    have targetWithin := isWithin_iff.mp (target_mem nonzero admissible physical)
    have referenceWithin := isWithin_iff.mp admissible.isWithin
    have passed : step linear * raw < step linear * target linear bounds physical :=
      (linear_lt_iff nonzero).mp (short.trans_le (targetWithin.1 minimum declared))
    have ahead := (toPhysical_lt_iff nonzero).mp
      (short.trans_le (referenceWithin.1 minimum declared))
    have behind : -step linear * reference < -step linear * raw := by
      rw [Int.neg_mul, Int.neg_mul]
      exact Int.neg_lt_neg ahead
    have outside : (raw : ℚ) ∉ interval linear bounds := fun mem =>
      absurd short (not_lt.mpr ((isWithin_iff.mp mem).1 minimum declared))
    refine ⟨_, ?_, .back _ (isDirection_step linear).neg outside (by push_cast; linarith)⟩
    rw [stepUp_of_passed declared (isConsistent_of_isWithin admissible.isWithin) short,
      ← Int.sub_neg, candidate?_sub inner admissible.contained (isDirection_step linear).neg
      isCandidate behind]
  · left
    have atLeast : ∀ minimum ∈ bounds.minimum, minimum ≤ toPhysical linear raw :=
      fun minimum declared => not_lt.mp fun less => short ⟨minimum, declared, less⟩
    exact ⟨stepUp_of_atLeast atLeast, atLeast⟩

/-- Of the two steps at most one is taken, since a step back ends inside the bounds. Neither
overflows. -/
theorem within_steps (inner : range.IsInner) (nonzero : linear.scale ≠ 0)
    (admissible : Admissible range linear bounds reference) (physical : ℚ) :
    ∃ stepped, corrected linear bounds physical = some stepped ∧
      Within (interval linear bounds) range (target linear bounds physical) stepped := by
  have isCandidate : candidateRange.contains (candidate linear bounds physical) = true :=
    RawRange.contains_clamp (by decide) _
  have within : ∀ stepped, SteppedBack (interval linear bounds) (target linear bounds physical)
      (candidate linear bounds physical) stepped →
      Within (interval linear bounds) range (target linear bounds physical) stepped :=
    fun stepped back => back.within (ordConnected_interval linear bounds)
      (target_mem nonzero admissible physical) admissible.isWithin admissible.contained
      fun direction isDirection => settledFor_target linear inner isDirection bounds physical
  have isNumber : Quantity.isNumber physical = true := rfl
  rw [corrected, if_pos isNumber]
  rcases stepDown_spec inner nonzero admissible physical isCandidate with
    ⟨kept, atMost⟩ | ⟨stepped, down, back⟩
  · rw [kept]
    rcases stepUp_spec inner nonzero admissible physical isCandidate with
      ⟨kept, atLeast⟩ | ⟨stepped, up, back⟩
    · exact ⟨_, kept, within _ (.stays (isWithin_iff.mpr ⟨atLeast, atMost⟩))⟩
    · exact ⟨stepped, up, within _ back⟩
  · have inside := within _ back
    rw [down]
    exact ⟨stepped, stepUp_of_atLeast (isWithin_iff.mp inside.mem).1, inside⟩

theorem isNearest_toRaw (inner : range.IsInner) (nonzero : linear.scale ≠ 0)
    (admissible : Admissible range linear bounds reference) (physical : ℚ) :
    ∃ raw, toRaw range linear bounds physical = some raw ∧
      IsNearest range linear bounds physical raw := by
  have connected := ordConnected_interval linear bounds
  rcases within_steps inner nonzero admissible physical with ⟨stepped, isStepped, within⟩
  have nearest := within.nearestIn_clamp connected admissible.isWithin admissible.contained
  have size : 0 < |linear.scale| := abs_pos.mpr nonzero
  refine ⟨range.clamp stepped, by rw [toRaw, isStepped, Option.map_some],
    ⟨nearest.mem.1, nearest.mem.2⟩, fun other isOther => ?_, fun other isOther different => ?_⟩
  · rw [distance_eq nonzero, distance_eq nonzero]
    exact mul_le_mul_of_nonneg_right (nearest.least other ⟨isOther.1, isOther.2⟩) size.le
  · rw [distance_eq nonzero, distance_eq nonzero]
    intro equal
    exact nearest.tie other ⟨isOther.1, isOther.2⟩ different (mul_right_cancel₀ size.ne' equal)

end

end Conversion

end CanCodec
