import Mathlib.Data.Int.ConditionallyCompleteOrder
import Mathlib.Data.Rat.Floor
import Mathlib.Tactic.Linarith
import CanCodec.Conversion
import CanCodec.Proofs.TwosComplement

/-! # Rounding into an interval

A candidate is rounded from a number of an interval, stepped back once if that left the
interval, and clamped to a range. What comes out is the nearest integer that is in the
interval and in the range. -/

namespace CanCodec

/-- The nearest integer; a half goes away from zero. -/
def roundHalfAway (value : ℚ) : ℤ := if 0 ≤ value then ⌊value + 1 / 2⌋ else ⌈value - 1 / 2⌉

def IsDirection (direction : ℤ) : Prop := direction = 1 ∨ direction = -1

/-- A step from an integer does not lead nearer to a value, and only toward zero if it leads
as near. -/
def Settled (value : ℚ) (direction integer : ℤ) : Prop :=
  direction * (value - integer) < 1 / 2 ∨
    direction * (value - integer) = 1 / 2 ∧ (integer + direction).natAbs < integer.natAbs

/-- A step from an integer is settled, or leads away from a whole range. -/
def SettledFor (range : RawRange) (value : ℚ) (direction integer : ℤ) : Prop :=
  Settled value direction integer ∨
    ∀ raw, range.contains raw = true → direction * raw < direction * integer

/-- An integer of a set that is nearest to a value; of two equally near ones it is the one
farther from zero. -/
structure NearestIn (admitted : Set ℤ) (value : ℚ) (integer : ℤ) : Prop where
  mem : integer ∈ admitted
  least : ∀ other ∈ admitted, |(integer : ℚ) - value| ≤ |(other : ℚ) - value|
  tie : ∀ other ∈ admitted, other ≠ integer →
    |(other : ℚ) - value| = |(integer : ℚ) - value| → other.natAbs < integer.natAbs

/-- A candidate after it has been stepped back into an interval, toward a value. -/
inductive SteppedBack (interval : Set ℚ) (value : ℚ) (candidate : ℤ) : ℤ → Prop
  | stays (inside : (candidate : ℚ) ∈ interval) : SteppedBack interval value candidate candidate
  | back (direction : ℤ) (isDirection : IsDirection direction)
      (outside : (candidate : ℚ) ∉ interval)
      (passed : direction * value < direction * candidate) :
      SteppedBack interval value candidate (candidate - direction)

/-! ## Rounding -/

theorem roundHalfAway_neg (value : ℚ) : roundHalfAway (-value) = -roundHalfAway value := by
  rcases lt_trichotomy value 0 with negative | rfl | positive
  · rw [roundHalfAway, roundHalfAway, if_pos (by linarith), if_neg (by linarith), ← Int.floor_neg]
    congr 1
    ring
  · norm_num [roundHalfAway]
  · rw [roundHalfAway, roundHalfAway, if_neg (by linarith), if_pos positive.le, ← Int.ceil_neg]
    congr 1
    ring

theorem roundHalfAway_intCast (integer : ℤ) : roundHalfAway integer = integer := by
  rw [roundHalfAway]
  split_ifs
  · rw [Int.floor_eq_iff]
    constructor <;> linarith
  · rw [Int.ceil_eq_iff]
    constructor <;> linarith

theorem roundHalfAway_mono {first second : ℚ} (le : first ≤ second) :
    roundHalfAway first ≤ roundHalfAway second := by
  rw [roundHalfAway, roundHalfAway]
  split_ifs with firstNonneg secondNonneg secondNonneg
  · exact Int.floor_mono (by linarith)
  · exact absurd (firstNonneg.trans le) secondNonneg
  · calc
      ⌈first - 1 / 2⌉ ≤ 0 := Int.ceil_le.mpr (by push_cast; linarith)
      _ ≤ ⌊second + 1 / 2⌋ := Int.floor_nonneg.mpr (by linarith)
  · exact Int.ceil_mono (by linarith)

theorem IsDirection.neg {direction : ℤ} (isDirection : IsDirection direction) :
    IsDirection (-direction) := by
  rcases isDirection with rfl | rfl
  · exact .inr rfl
  · exact .inl rfl

theorem Settled.neg {value : ℚ} {direction integer : ℤ}
    (settled : Settled value direction integer) : Settled (-value) (-direction) (-integer) := by
  have same : ((-direction : ℤ) : ℚ) * (-value - (-integer : ℤ)) =
      direction * (value - integer) := by
    push_cast
    ring
  rw [Settled, same, ← Int.neg_add, Int.natAbs_neg, Int.natAbs_neg]
  exact settled

theorem settled_roundHalfAway_of_nonneg {value : ℚ} (nonneg : 0 ≤ value) {direction : ℤ}
    (isDirection : IsDirection direction) : Settled value direction (roundHalfAway value) := by
  rw [roundHalfAway, if_pos nonneg]
  have lower := Int.floor_le (value + 1 / 2)
  have upper := Int.lt_floor_add_one (value + 1 / 2)
  have floorNonneg : 0 ≤ ⌊value + 1 / 2⌋ := Int.floor_nonneg.mpr (by linarith)
  generalize ⌊value + 1 / 2⌋ = integer at lower upper floorNonneg
  rcases isDirection with rfl | rfl
  · left
    push_cast
    linarith
  · rcases lt_or_eq_of_le lower with less | equal
    · left
      push_cast
      linarith
    · right
      have positive : (0 : ℚ) < integer := by linarith
      rw [Int.cast_pos] at positive
      exact ⟨by push_cast; linarith, by omega⟩

theorem settled_roundHalfAway (value : ℚ) {direction : ℤ} (isDirection : IsDirection direction) :
    Settled value direction (roundHalfAway value) := by
  rcases le_total 0 value with nonneg | nonpos
  · exact settled_roundHalfAway_of_nonneg nonneg isDirection
  · have mirrored := settled_roundHalfAway_of_nonneg (neg_nonneg.mpr nonpos) isDirection.neg
    simpa only [roundHalfAway_neg, neg_neg] using mirrored.neg

theorem Settled.le_half {value : ℚ} {direction integer : ℤ}
    (settled : Settled value direction integer) : direction * (value - integer) ≤ 1 / 2 := by
  rcases settled with less | ⟨equal, _⟩
  · exact le_of_lt less
  · exact le_of_eq equal

theorem IsDirection.abs_mul_cast {direction : ℤ} (isDirection : IsDirection direction)
    (value : ℚ) : |direction * value| = |value| := by
  rcases isDirection with rfl | rfl <;> simp

theorem IsDirection.mul_self {direction : ℤ} (isDirection : IsDirection direction) :
    direction * direction = 1 := by
  rcases isDirection with rfl | rfl <;> rfl

theorem IsDirection.eq_or_eq_neg {direction other : ℤ} (isDirection : IsDirection direction)
    (isOther : IsDirection other) : other = direction ∨ other = -direction := by
  rcases isDirection with rfl | rfl <;> rcases isOther with rfl | rfl <;> simp

theorem exists_direction {integer other : ℤ} (different : other ≠ integer) :
    ∃ direction, IsDirection direction ∧ 1 ≤ direction * (other - integer) := by
  rcases lt_or_gt_of_ne different with below | above
  · exact ⟨-1, .inr rfl, by omega⟩
  · exact ⟨1, .inl rfl, by omega⟩

theorem mem_of_between {α : Type} [Ring α] [LinearOrder α] [IsStrictOrderedRing α] {set : Set α}
    (connected : set.OrdConnected) {direction : ℤ} (isDirection : IsDirection direction)
    {first second between : α} (firstMem : first ∈ set) (secondMem : second ∈ set)
    (lower : direction * first ≤ direction * between)
    (upper : direction * between ≤ direction * second) : between ∈ set := by
  rcases isDirection with rfl | rfl
  · simp only [Int.cast_one, one_mul] at lower upper
    exact connected.out firstMem secondMem ⟨lower, upper⟩
  · simp only [Int.cast_neg, Int.cast_one, neg_mul, one_mul, neg_le_neg_iff] at lower upper
    exact connected.out secondMem firstMem ⟨upper, lower⟩

theorem Conversion.isDirection_step {α : Type} [Quantity α] (linear : Linear α) :
    IsDirection (step linear) := by
  rw [step]
  split_ifs
  · exact .inl rfl
  · exact .inr rfl

/-! ## Nearest integers -/

/-- A settled integer is at least as near as any in the direction, and an equally near one is
the next and nearer to zero. -/
theorem Settled.compare {value : ℚ} {direction integer other : ℤ}
    (settled : Settled value direction integer) (isDirection : IsDirection direction)
    (apart : 1 ≤ direction * (other - integer)) :
    |(integer : ℚ) - value| ≤ |(other : ℚ) - value| ∧
      (|(other : ℚ) - value| = |(integer : ℚ) - value| → other.natAbs < integer.natAbs) := by
  have half := settled.le_half
  have far : (1 : ℚ) ≤ direction * (other - integer) := by exact_mod_cast apart
  have nearDistance : |(integer : ℚ) - value| = |direction * (value - integer)| := by
    rw [isDirection.abs_mul_cast, abs_sub_comm]
  have farDistance : |(other : ℚ) - value| =
      direction * (other - integer) - direction * (value - integer) := by
    rw [← isDirection.abs_mul_cast, abs_of_nonneg (by linarith)]
    ring
  rw [nearDistance, farDistance]
  refine ⟨abs_le.mpr ⟨by linarith, by linarith⟩, fun equal => ?_⟩
  -- Equal distances leave one step and a value in the middle of it.
  have middle : direction * (value - integer) = 1 / 2 := by
    rcases abs_cases (direction * (value - integer)) with ⟨same, _⟩ | ⟨same, _⟩ <;> linarith
  have step : direction * ((other : ℚ) - integer) = 1 := by
    rw [middle, abs_of_pos (by norm_num)] at equal
    linarith
  have next : other = integer + direction := by
    have whole : direction * (other - integer) = 1 := by exact_mod_cast step
    rcases isDirection with rfl | rfl <;> omega
  rw [next]
  rcases settled with less | ⟨_, toward⟩
  · exact absurd middle (ne_of_lt less)
  · exact toward

/-- In a set without gaps an integer that is settled against its neighbours is the nearest. -/
theorem NearestIn.of_settled {admitted : Set ℤ} (connected : admitted.OrdConnected) {value : ℚ}
    {integer : ℤ} (mem : integer ∈ admitted)
    (settled : ∀ direction, IsDirection direction → integer + direction ∈ admitted →
      Settled value direction integer) : NearestIn admitted value integer := by
  have compare : ∀ other ∈ admitted, other ≠ integer →
      |(integer : ℚ) - value| ≤ |(other : ℚ) - value| ∧
        (|(other : ℚ) - value| = |(integer : ℚ) - value| → other.natAbs < integer.natAbs) := by
    intro other otherMem different
    rcases exists_direction different with ⟨direction, isDirection, apart⟩
    have neighbour : integer + direction ∈ admitted := by
      refine mem_of_between connected isDirection mem otherMem ?_ ?_ <;>
        rcases isDirection with rfl | rfl <;> push_cast <;> omega
    exact (settled direction isDirection neighbour).compare isDirection apart
  refine ⟨mem, fun other otherMem => ?_, fun other otherMem different =>
    (compare other otherMem different).2⟩
  by_cases same : other = integer
  · rw [same]
  · exact (compare other otherMem same).1

/-! ## Stepping back and clamping -/

def RawRange.IsInner (range : RawRange) : Prop :=
  candidateRange.low < range.low ∧ range.high < candidateRange.high

theorem RawRange.ofBits_isInner (length : Nat) (signed : Bool) :
    (RawRange.ofBits length signed).IsInner := by
  have width : max 1 (min length 64) ≤ 64 := by omega
  have power : ∀ bits ≤ 64, 2 ^ bits ≤ 2 ^ 64 := fun bits le =>
    Nat.pow_le_pow_right (Nat.zero_lt_succ 1) le
  have wide := power _ width
  have half := power _ ((Nat.sub_le _ 1).trans width)
  rw [IsInner, ofBits, candidateRange_eq]
  cases signed with
  | true =>
      simp only [Nat.pow_eq, if_true]
      omega
  | false =>
      simp only [Nat.pow_eq, Bool.false_eq_true, if_false]
      omega

section

variable {range : RawRange} {value : ℚ}

/-- A bound that the rounded value has passed is settled inward, and outward of it there is no
raw value. -/
theorem settledFor_of_passed {outward bound : ℤ} (isOutward : IsDirection outward)
    (passed : outward * bound < outward * roundHalfAway value)
    (room : ∀ raw, range.contains raw = true → outward * raw < outward * bound) {direction : ℤ}
    (isDirection : IsDirection direction) : SettledFor range value direction bound := by
  rcases isOutward.eq_or_eq_neg isDirection with rfl | rfl
  · exact .inr room
  · have near := (settled_roundHalfAway value isDirection).le_half
    have gap : (outward : ℚ) * bound + 1 ≤ outward * roundHalfAway value := by
      exact_mod_cast passed
    left
    left
    push_cast at near ⊢
    linarith

theorem settledFor_candidate (inner : range.IsInner) {direction : ℤ}
    (isDirection : IsDirection direction) :
    SettledFor range value direction (candidateRange.clamp (roundHalfAway value)) := by
  have ordered : candidateRange.low ≤ candidateRange.high := by decide
  rcases lt_or_ge (roundHalfAway value) candidateRange.low with below | above
  · have clamped : candidateRange.clamp (roundHalfAway value) = candidateRange.low := by
      rw [RawRange.clamp]
      omega
    rw [clamped]
    refine settledFor_of_passed (.inr rfl) (by omega) (fun raw contained => ?_) isDirection
    have bounds := RawRange.contains_iff.mp contained
    have room := inner.1
    omega
  rcases lt_or_ge candidateRange.high (roundHalfAway value) with past | within
  · have clamped : candidateRange.clamp (roundHalfAway value) = candidateRange.high := by
      rw [RawRange.clamp]
      omega
    rw [clamped]
    refine settledFor_of_passed (.inl rfl) (by omega) (fun raw contained => ?_) isDirection
    have bounds := RawRange.contains_iff.mp contained
    have room := inner.2
    omega
  · rw [RawRange.clamp_of_contains (RawRange.contains_iff.mpr ⟨above, within⟩)]
    exact .inl (settled_roundHalfAway value isDirection)

variable {interval : Set ℚ} {reference candidate stepped : ℤ}

/-- What a step back leads to, as long as the interval and the range have an integer in
common. -/
structure Within (interval : Set ℚ) (range : RawRange) (value : ℚ) (stepped : ℤ) : Prop where
  mem : (stepped : ℚ) ∈ interval
  settled : ∀ direction, IsDirection direction → ((stepped + direction : ℤ) : ℚ) ∈ interval →
    SettledFor range value direction stepped

theorem SteppedBack.within (connected : interval.OrdConnected) (valueMem : value ∈ interval)
    (referenceMem : (reference : ℚ) ∈ interval) (contained : range.contains reference = true)
    (rounded : ∀ direction, IsDirection direction → SettledFor range value direction candidate)
    (back : SteppedBack interval value candidate stepped) :
    Within interval range value stepped := by
  cases back with
  | stays inside => exact ⟨inside, fun direction isDirection _ => rounded direction isDirection⟩
  | back direction isDirection outside passed =>
      have ahead : direction * reference < direction * candidate := by
        by_contra behind
        have order : (direction : ℚ) * candidate ≤ direction * reference := by
          exact_mod_cast not_lt.mp behind
        exact outside (mem_of_between connected isDirection valueMem referenceMem
          (le_of_lt passed) order)
      have near : (direction : ℚ) * (candidate - value) ≤ 1 / 2 := by
        rcases rounded (-direction) isDirection.neg with settled | behind
        · have half := settled.le_half
          push_cast at half
          linarith
        · have := behind reference contained
          rw [Int.neg_mul, Int.neg_mul] at this
          omega
      have square := isDirection.mul_self
      have squareCast : (direction : ℚ) * direction = 1 := by exact_mod_cast square
      have lower : (direction : ℚ) * reference ≤ direction * (candidate - direction : ℤ) := by
        have : direction * reference ≤ direction * (candidate - direction) := by
          rw [Int.mul_sub, square]
          omega
        exact_mod_cast this
      have upper : (direction : ℚ) * (candidate - direction : ℤ) ≤ direction * value := by
        push_cast
        linarith
      refine ⟨mem_of_between connected isDirection referenceMem valueMem lower upper,
        fun other isOther otherMem => ?_⟩
      rcases isDirection.eq_or_eq_neg isOther with rfl | rfl
      · rw [Int.sub_add_cancel] at otherMem
        exact absurd otherMem outside
      · left
        left
        push_cast
        linarith

namespace Within

theorem clamp_mem (within : Within interval range value stepped)
    (connected : interval.OrdConnected) (referenceMem : (reference : ℚ) ∈ interval)
    (contained : range.contains reference = true) :
    ((range.clamp stepped : ℤ) : ℚ) ∈ interval := by
  have bounds := RawRange.contains_iff.mp contained
  rcases le_total reference stepped with upward | downward
  · refine connected.out referenceMem within.mem ⟨?_, ?_⟩ <;>
      rw [Int.cast_le, RawRange.clamp] <;> omega
  · refine connected.out within.mem referenceMem ⟨?_, ?_⟩ <;>
      rw [Int.cast_le, RawRange.clamp] <;> omega

/-- Where the range goes on, clamping did not lead back, so what was settled before is settled
after it. -/
theorem settled_clamp (within : Within interval range value stepped)
    (connected : interval.OrdConnected) {direction : ℤ} (isDirection : IsDirection direction)
    (contained : range.contains (range.clamp stepped) = true)
    (mem : ((range.clamp stepped : ℤ) : ℚ) ∈ interval)
    (nextContained : range.contains (range.clamp stepped + direction) = true)
    (nextMem : ((range.clamp stepped + direction : ℤ) : ℚ) ∈ interval) :
    Settled value direction (range.clamp stepped) := by
  have bounds := RawRange.contains_iff.mp nextContained
  have behind : direction * stepped ≤ direction * range.clamp stepped := by
    rw [RawRange.clamp] at bounds ⊢
    rcases isDirection with rfl | rfl <;> omega
  have settled : ((stepped + direction : ℤ) : ℚ) ∈ interval →
      Settled value direction stepped := by
    intro stepMem
    refine (within.settled direction isDirection stepMem).resolve_right fun past => ?_
    have := past _ contained
    omega
  rcases eq_or_lt_of_le behind with same | less
  · have equal : range.clamp stepped = stepped := by rcases isDirection with rfl | rfl <;> omega
    rw [equal] at nextMem ⊢
    exact settled nextMem
  · have apart : direction * stepped + 1 ≤ direction * range.clamp stepped := less
    have apartCast : (direction : ℚ) * stepped + 1 ≤ direction * (range.clamp stepped : ℤ) := by
      exact_mod_cast apart
    have stepCast : (direction : ℚ) * (stepped + direction : ℤ) = direction * stepped + 1 := by
      have : direction * (stepped + direction) = direction * stepped + 1 := by
        rw [Int.mul_add, isDirection.mul_self]
      exact_mod_cast this
    have half := (settled (mem_of_between connected isDirection within.mem mem (by linarith)
      (by linarith))).le_half
    left
    linarith

theorem nearestIn_clamp (within : Within interval range value stepped)
    (connected : interval.OrdConnected) (referenceMem : (reference : ℚ) ∈ interval)
    (contained : range.contains reference = true) :
    NearestIn {raw | range.contains raw = true ∧ (raw : ℚ) ∈ interval} value
      (range.clamp stepped) := by
  have bounds := RawRange.contains_iff.mp contained
  have inRange := RawRange.contains_clamp (bounds.1.trans bounds.2) stepped
  have mem := within.clamp_mem connected referenceMem contained
  refine NearestIn.of_settled ⟨?_⟩ ⟨inRange, mem⟩ fun direction isDirection next =>
    within.settled_clamp connected isDirection inRange mem next.1 next.2
  rintro first ⟨firstContained, firstMem⟩ second ⟨secondContained, secondMem⟩ between
    ⟨lower, upper⟩
  have firstBounds := RawRange.contains_iff.mp firstContained
  have secondBounds := RawRange.contains_iff.mp secondContained
  exact ⟨RawRange.contains_iff.mpr ⟨by omega, by omega⟩,
    connected.out firstMem secondMem ⟨by exact_mod_cast lower, by exact_mod_cast upper⟩⟩

end Within

end

end CanCodec
