import CanCodec.Proofs.Frame.Overlap
import CanCodec.Proofs.Traversal

/-! # Messages that cannot be planned

A plan fails at the first signal that has no place: one that exceeds the frame or, in a
strict plan, one that meets an earlier signal. -/

namespace CanCodec

namespace Signal

def excess (message : Message) (signal : Signal) : LayoutFault :=
  ⟨message.name, signal.name,
    .exceeds signal.start (signal.start + signal.length) (8 * message.length)⟩

/-- Why a signal has no place after the signals `earlier`: it exceeds the frame, or a strict
plan finds a place that it shares with one of them. -/
inductive Misplaced (message : Message) (strict : Bool) (earlier : List Signal)
    (signal : Signal) : LayoutFault → Prop
  | exceeds (unfit : ¬ signal.Fits message.length) :
      Misplaced message strict earlier signal (signal.excess message)
  | meets (other : Signal) (place : Place) (isStrict : strict = true)
      (fits : signal.Fits message.length) (member : other ∈ earlier)
      (shared : other.Claims place ∧ signal.Claims place) :
      Misplaced message strict earlier signal
        ⟨message.name, signal.name, .overlaps other.name place.byte⟩

end Signal

namespace Frame

/-! ## The earlier signal that is met -/

theorem owner?_eq_some {earlier : List Signal} {byte bit : Nat} {other : Signal}
    (positive : ∀ other ∈ earlier, 0 < other.length)
    (owned : owner? (earlier.map placing) byte bit = some other) :
    other ∈ earlier ∧ other.Claims ⟨byte, bit⟩ := by
  rcases Option.map_eq_some_iff.mp owned with ⟨placed, found, same⟩
  rcases List.mem_map.mp (List.mem_of_find?_eq_some found) with ⟨source, member, placedEqual⟩
  have held := List.find?_some found
  simp only [← placedEqual, placing] at held same
  rw [← same]
  exact ⟨member, (any_holds_segments_iff (positive source member)).mp held⟩

theorem overlap?_eq_some {earlier : List Signal} {signal : Signal} {reason : LayoutReason}
    (earlierPositive : ∀ other ∈ earlier, 0 < other.length) (positive : 0 < signal.length)
    (met : overlap? (earlier.map placing) (segments signal) = some reason) :
    ∃ other ∈ earlier, ∃ place, (other.Claims place ∧ signal.Claims place) ∧
      reason = .overlaps other.name place.byte := by
  rcases List.exists_of_findSome?_eq_some met with ⟨segment, segmentMember, metSegment⟩
  rcases List.exists_of_findSome?_eq_some metSegment with ⟨bit, bitMember, metBit⟩
  rcases Option.map_eq_some_iff.mp metBit with ⟨other, owned, same⟩
  have within := List.mem_range'_1.mp bitMember
  have held : (segments signal).any (holds segment.byteIndex bit) = true :=
    List.any_eq_true.mpr ⟨segment, segmentMember, holds_iff.mpr ⟨rfl, within⟩⟩
  rcases owner?_eq_some earlierPositive owned with ⟨member, claims⟩
  exact ⟨other, member, ⟨segment.byteIndex, bit⟩,
    ⟨claims, (any_holds_segments_iff positive).mp held⟩, same.symm⟩

theorem place_error_iff_of_fits {message : Message} {strict : Bool} {placed : List Placed}
    {signal : Signal} {fault : LayoutFault} (fits : signal.Fits message.length) :
    place message strict placed signal = .error fault ↔
      strict = true ∧ ∃ reason, overlap? placed (segments signal) = some reason ∧
        fault = ⟨message.name, signal.name, reason⟩ := by
  rw [place, planWithin_ok_iff.mpr ⟨fits, rfl⟩]
  cases strict with
  | false => simp
  | true => cases met : overlap? placed (segments signal) <;> simp [met, eq_comm]

theorem place_error {message : Message} {strict : Bool} {earlier : List Signal}
    {signal : Signal} {fault : LayoutFault} (positive : ∀ other ∈ earlier, 0 < other.length)
    (refused : place message strict (earlier.map placing) signal = .error fault) :
    signal.Misplaced message strict earlier fault := by
  by_cases fits : signal.Fits message.length
  · rcases (place_error_iff_of_fits fits).mp refused with ⟨isStrict, reason, met, rfl⟩
    rcases overlap?_eq_some positive fits.1 met with ⟨other, member, sharedPlace, shared, rfl⟩
    exact .meets other sharedPlace isStrict fits member shared
  · rw [place, planWithin_of_not_fits fits, Except.error.injEq] at refused
    rw [← refused]
    exact .exceeds fits

/-! ## The first signal without a place -/

theorem placeAll_error_iff {message : Message} {strict : Bool} {earlier signals : List Signal}
    {fault : LayoutFault} (positive : ∀ other ∈ earlier, 0 < other.length) :
    placeAll message strict (earlier.map placing) signals = .error fault ↔
      ∃ before signal after, signals = before ++ signal :: after ∧
        placeAll message strict (earlier.map placing) before =
          .ok ((earlier ++ before).map placing) ∧
        place message strict ((earlier ++ before).map placing) signal = .error fault := by
  induction signals generalizing earlier with
  | nil => simp [placeAll]
  | cons head rest induction =>
      rw [exists_split_cons_iff]
      cases next : place message strict (earlier.map placing) head with
      | error headFault => simp [placeAll, next]
      | ok placed =>
          rcases (place_ok_iff positive).mp next with ⟨fits, _, equal⟩
          have extended : earlier.map placing ++ [placing head] =
              (earlier ++ [head]).map placing := by simp
          have extendedPositive : ∀ other ∈ earlier ++ [head], 0 < other.length :=
            List.forall_mem_append.mpr ⟨positive, List.forall_mem_singleton.mpr fits.1⟩
          have later := induction extendedPositive
          simp only [List.append_assoc, List.singleton_append] at later
          simp only [placeAll, next, equal, extended, later, List.append_nil, reduceCtorEq,
            and_false, false_or]

/-- A plan fails at the first signal that cannot be placed after the signals before it, which
are all placed. -/
theorem planMessage_error_iff {message : Message} {strict : Bool} {fault : LayoutFault} :
    planMessage message strict = .error fault ↔
      ∃ before signal after, message.signals = before ++ signal :: after ∧
        (∀ other ∈ before, other.Fits message.length) ∧
        (strict = true → before.Pairwise Signal.Apart) ∧
        place message strict (before.map placing) signal = .error fault := by
  have noneEarlier : ∀ other ∈ ([] : List Signal), 0 < other.length := by simp
  have accepted : ∀ before, placeAll message strict [] before = .ok (before.map placing) ↔
      (∀ other ∈ before, other.Fits message.length) ∧
        (strict = true → before.Pairwise Signal.Apart) := by
    intro before
    have placed : placeAll message strict ([].map placing) before = .ok (before.map placing) ↔ _ :=
      placeAll_ok_iff noneEarlier
    simpa using placed
  have refused : placeAll message strict ([].map placing) message.signals = .error fault ↔ _ :=
    placeAll_error_iff noneEarlier
  rw [planMessage]
  simpa only [List.map_nil, List.nil_append, accepted, and_assoc] using refused

theorem planMessage_error {message : Message} {strict : Bool} {fault : LayoutFault}
    (refused : planMessage message strict = .error fault) :
    ∃ before signal after, message.signals = before ++ signal :: after ∧
      (∀ other ∈ before, other.Fits message.length) ∧
      (strict = true → before.Pairwise Signal.Apart) ∧
      signal.Misplaced message strict before fault := by
  rcases planMessage_error_iff.mp refused with ⟨before, signal, after, split, fits, apart, failed⟩
  exact ⟨before, signal, after, split, fits, apart,
    place_error (fun other member => (fits other member).1) failed⟩

theorem planMessage_lenient (message : Message) :
    planMessage message false =
      match message.signals.find? fun signal => !decide (signal.Fits message.length) with
      | some signal => .error (signal.excess message)
      | none => .ok (message.signals.map placing) := by
  cases planned : planMessage message false with
  | error fault =>
      rcases planMessage_error planned with ⟨before, signal, after, split, fits, _, misplaced⟩
      cases misplaced with
      | meets other place isStrict => cases isStrict
      | exceeds unfit =>
          have passed : before.find? (fun other => !decide (other.Fits message.length)) = none :=
            List.find?_eq_none.mpr fun other member => by simp [fits other member]
          rw [split, List.find?_append, passed]
          simp [unfit]
  | ok placed =>
      rcases planMessage_ok_iff.mp planned with ⟨fits, _, equal⟩
      have none : message.signals.find?
          (fun signal => !decide (signal.Fits message.length)) = none :=
        List.find?_eq_none.mpr fun signal member => by simp [fits signal member]
      rw [none, equal]

end Frame

end CanCodec
