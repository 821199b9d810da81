import CanCodec.Proofs.Frame.Refusal

/-! # Where signals meet

A strict plan finds every overlap and nothing but overlaps. The one that it reports is the
first: of the first signal in declared order that meets an earlier one, in the first segment
of that signal that holds a bit of an earlier one. -/

namespace CanCodec

namespace Signal

def Meets (signal : Signal) (earlier : List Signal) (place : Place) : Prop :=
  signal.Claims place ∧ ∃ other ∈ earlier, other.Claims place

/-- The place where a signal that fits first meets an earlier one: no segment before that
byte holds a bit of an earlier signal, and no lower bit of that byte does. -/
structure FirstMeeting (message : Message) (earlier : List Signal) (signal other : Signal)
    (place : Place) : Prop where
  member : other ∈ earlier
  shared : other.Claims place ∧ signal.Claims place
  byte : ∃ passed segment rest,
    Frame.planWithin message.name (8 * message.length) signal = .ok (passed ++ segment :: rest) ∧
      segment.byteIndex = place.byte ∧
      ∀ former ∈ passed, ∀ bit, ¬ signal.Meets earlier ⟨former.byteIndex, bit⟩
  bit : ∀ lower < place.bit, ¬ signal.Meets earlier ⟨place.byte, lower⟩

inductive Obstructed (message : Message) (earlier : List Signal) (signal : Signal) :
    LayoutFault → Prop
  | exceeds (unfit : ¬ signal.Fits message.length) :
      Obstructed message earlier signal ⟨message.name, signal.name,
        .exceeds signal.start (signal.start + signal.length) (8 * message.length)⟩
  | overlaps (other : Signal) (place : Place) (fits : signal.Fits message.length)
      (meeting : signal.FirstMeeting message earlier other place) :
      Obstructed message earlier signal
        ⟨message.name, signal.name, .overlaps other.name place.byte⟩

end Signal

namespace Frame

theorem holds_iff_claims {signal : Signal} {segment : Segment} {bit : Nat}
    (positive : 0 < signal.length) (member : segment ∈ segments signal) :
    holds segment.byteIndex bit segment = true ↔ signal.Claims ⟨segment.byteIndex, bit⟩ := by
  rcases mem_segments.mp member with ⟨span, spanMember, rfl⟩
  rw [holds_segment_iff positive spanMember]
  exact and_iff_right rfl

theorem findSome?_range'_eq_some_iff {α : Type} {search : Nat → Option α} {start count : Nat}
    {result : α} :
    (List.range' start count).findSome? search = some result ↔
      ∃ index, (start ≤ index ∧ index < start + count) ∧ search index = some result ∧
        ∀ lower, start ≤ lower → lower < index → search lower = none := by
  rw [List.findSome?_eq_some_iff]
  constructor
  · rintro ⟨passed, index, rest, split, found, free⟩
    rcases List.range'_eq_append_iff.mp split with ⟨length, le, rfl, tail⟩
    rcases List.range'_eq_cons_iff.mp tail.symm with ⟨rfl, positive, _⟩
    refine ⟨_, by omega, found, fun lower above below => free lower ?_⟩
    rw [List.mem_range'_1]
    omega
  · rintro ⟨index, inside, found, free⟩
    refine ⟨List.range' start (index - start), index,
      List.range' (index + 1) (start + count - (index + 1)), ?_, found, fun lower member => ?_⟩
    · refine List.range'_eq_append_iff.mpr ⟨index - start, by omega, rfl,
        (List.range'_eq_cons_iff.mpr ⟨by omega, by omega, ?_⟩).symm⟩
      congr 1 <;> omega
    · rw [List.mem_range'_1] at member
      exact free lower member.1 (by omega)

section

variable {earlier : List Signal} {signal : Signal}

theorem owner?_eq_none_iff_not_meets (positive : ∀ other ∈ earlier, 0 < other.length)
    {byte bit : Nat} (claims : signal.Claims ⟨byte, bit⟩) :
    owner? (earlier.map placing) byte bit = none ↔ ¬ signal.Meets earlier ⟨byte, bit⟩ := by
  rw [owner?_eq_none_iff positive, Signal.Meets]
  simp [claims]

theorem segmentOverlap?_eq_none_iff_not_meets (positive : ∀ other ∈ earlier, 0 < other.length)
    (signalPositive : 0 < signal.length) {segment : Segment}
    (member : segment ∈ segments signal) :
    segmentOverlap? (earlier.map placing) segment = none ↔
      ∀ bit, ¬ signal.Meets earlier ⟨segment.byteIndex, bit⟩ := by
  rw [segmentOverlap?_eq_none_iff]
  refine forall_congr' fun bit => ?_
  rw [holds_iff_claims signalPositive member]
  constructor
  · intro free meets
    exact (owner?_eq_none_iff_not_meets positive meets.1).mp (free meets.1) meets
  · intro free claims
    exact (owner?_eq_none_iff_not_meets positive claims).mpr free

theorem owner?_eq_some_iff (positive : ∀ other ∈ earlier, 0 < other.length)
    (apart : earlier.Pairwise Signal.Apart) {byte bit : Nat} {other : Signal} :
    owner? (earlier.map placing) byte bit = some other ↔
      other ∈ earlier ∧ other.Claims ⟨byte, bit⟩ := by
  refine ⟨owner?_eq_some positive, fun claimed => ?_⟩
  cases owned : owner? (earlier.map placing) byte bit with
  | none => exact absurd claimed.2 ((owner?_eq_none_iff positive).mp owned other claimed.1)
  | some owner =>
      have claims := owner?_eq_some positive owned
      rw [Signal.eq_of_claims apart claims.1 claimed.1 claims.2 claimed.2]

theorem segmentOverlap?_eq_some_iff (positive : ∀ other ∈ earlier, 0 < other.length)
    (apart : earlier.Pairwise Signal.Apart) (signalPositive : 0 < signal.length)
    {segment : Segment} (member : segment ∈ segments signal) {reason : LayoutReason} :
    segmentOverlap? (earlier.map placing) segment = some reason ↔
      ∃ other ∈ earlier, ∃ bit,
        (other.Claims ⟨segment.byteIndex, bit⟩ ∧ signal.Claims ⟨segment.byteIndex, bit⟩) ∧
        (∀ lower < bit, ¬ signal.Meets earlier ⟨segment.byteIndex, lower⟩) ∧
        reason = .overlaps other.name segment.byteIndex := by
  have claims : ∀ bit, (segment.bitOffset ≤ bit ∧ bit < segment.bitOffset + segment.bitCount) ↔
      signal.Claims ⟨segment.byteIndex, bit⟩ := by
    intro bit
    rw [← holds_iff_claims signalPositive member, holds_iff, and_iff_right rfl]
  rw [segmentOverlap?, findSome?_range'_eq_some_iff]
  simp only [Option.map_eq_some_iff, owner?_eq_some_iff positive apart, Option.map_eq_none_iff]
  constructor
  · rintro ⟨bit, inside, ⟨other, ⟨otherMember, otherClaims⟩, rfl⟩, free⟩
    refine ⟨other, otherMember, bit, ⟨otherClaims, (claims bit).mp inside⟩,
      fun lower below meets => ?_, rfl⟩
    have above := ((claims lower).mpr meets.1).1
    exact (owner?_eq_none_iff_not_meets positive meets.1).mp (free lower above below) meets
  · rintro ⟨other, otherMember, bit, ⟨otherClaims, here⟩, free, rfl⟩
    have inside := (claims bit).mpr here
    refine ⟨bit, inside, ⟨other, ⟨otherMember, otherClaims⟩, rfl⟩, fun lower above below => ?_⟩
    have lowerClaims := (claims lower).mp ⟨above, by omega⟩
    exact (owner?_eq_none_iff_not_meets positive lowerClaims).mpr (free lower below)

theorem overlap?_eq_some_iff {message : Message}
    (positive : ∀ other ∈ earlier, 0 < other.length) (apart : earlier.Pairwise Signal.Apart)
    (fits : signal.Fits message.length) {reason : LayoutReason} :
    overlap? (earlier.map placing) (segments signal) = some reason ↔
      ∃ other place, signal.FirstMeeting message earlier other place ∧
        reason = .overlaps other.name place.byte := by
  rw [overlap?, List.findSome?_eq_some_iff]
  constructor
  · rintro ⟨passed, segment, rest, split, found, free⟩
    have listed : ∀ former, former ∈ passed ∨ former = segment → former ∈ segments signal := by
      intro former member
      rw [split]
      rcases member with member | rfl <;> simp [*]
    rcases (segmentOverlap?_eq_some_iff positive apart fits.1 (listed segment (.inr rfl))).mp
      found with ⟨other, member, bit, shared, lowest, rfl⟩
    refine ⟨other, ⟨segment.byteIndex, bit⟩, ⟨member, shared, ?_, lowest⟩, rfl⟩
    exact ⟨passed, segment, rest, planWithin_ok_iff.mpr ⟨fits, split.symm⟩, rfl,
      fun former formerMember => (segmentOverlap?_eq_none_iff_not_meets positive fits.1
        (listed former (.inl formerMember))).mp (free former formerMember)⟩
  · rintro ⟨other, place, meeting, rfl⟩
    rcases meeting.byte with ⟨passed, segment, rest, planned, byte, free⟩
    have split := (planWithin_ok_iff.mp planned).2.symm
    have listed : ∀ former, former ∈ passed ∨ former = segment → former ∈ segments signal := by
      intro former member
      rw [split]
      rcases member with member | rfl <;> simp [*]
    refine ⟨passed, segment, rest, split, ?_, fun former formerMember => ?_⟩
    · rw [segmentOverlap?_eq_some_iff positive apart fits.1 (listed segment (.inr rfl)), byte]
      exact ⟨other, meeting.member, place.bit, meeting.shared, meeting.bit, rfl⟩
    · exact (segmentOverlap?_eq_none_iff_not_meets positive fits.1
        (listed former (.inl formerMember))).mpr (free former formerMember)

/-- A strict plan refuses a signal that is obstructed, and no other. -/
theorem place_error_iff {message : Message} (positive : ∀ other ∈ earlier, 0 < other.length)
    (apart : earlier.Pairwise Signal.Apart) {fault : LayoutFault} :
    place message true (earlier.map placing) signal = .error fault ↔
      signal.Obstructed message earlier fault := by
  by_cases fits : signal.Fits message.length
  · simp only [place_error_iff_of_fits fits, overlap?_eq_some_iff positive apart fits, true_and]
    constructor
    · rintro ⟨_, ⟨other, place, meeting, rfl⟩, rfl⟩
      exact .overlaps other place fits meeting
    · intro obstructed
      cases obstructed with
      | exceeds unfit => exact absurd fits unfit
      | overlaps other place _ meeting => exact ⟨_, ⟨other, place, meeting, rfl⟩, rfl⟩
  · rw [place, planWithin_of_not_fits fits, Except.error.injEq]
    constructor
    · rintro rfl
      exact .exceeds fits
    · intro obstructed
      cases obstructed with
      | exceeds unfit => rfl
      | overlaps other place alsoFits => exact absurd alsoFits fits

end

/-- A strict plan succeeds exactly when every signal fits the frame and no place is claimed by
two signals, and then it is the lenient plan. Otherwise it reports the first signal that does
not fit or meets an earlier one, all signals before it being placed, and of a meeting the
earlier signal and the byte. -/
theorem planMessage_strict_exact (message : Message) :
    ((∃ placed, planMessage message true = .ok placed) ↔
      (∀ signal ∈ message.signals,
        1 ≤ signal.length ∧ signal.start + signal.length ≤ 8 * message.length) ∧
      message.signals.Pairwise Signal.Apart) ∧
    (∀ placed, planMessage message true = .ok placed →
      planMessage message false = .ok placed) ∧
    ∀ fault, planMessage message true = .error fault ↔
      ∃ before signal after, message.signals = before ++ signal :: after ∧
        (∀ other ∈ before, other.Fits message.length) ∧ before.Pairwise Signal.Apart ∧
        signal.Obstructed message before fault := by
  refine ⟨?_, fun placed planned => ?_, fun fault => ?_⟩
  · simp only [planMessage_ok_iff, true_implies, exists_and_left, exists_eq, and_true]
    exact Iff.rfl
  · rcases planMessage_ok_iff.mp planned with ⟨fits, _, equal⟩
    exact planMessage_ok_iff.mpr ⟨fits, by simp, equal⟩
  · rw [planMessage_error_iff]
    refine exists_congr fun before => exists_congr fun signal => exists_congr fun after =>
      and_congr_right fun _ => and_congr_right fun fits => ?_
    simp only [true_implies]
    exact and_congr_right fun apart =>
      place_error_iff (fun other member => (fits other member).1) apart

/-- The third signal meets both others in byte 0; the one that owns the lower bit is named. -/
example :
    planMessage
      { frameId := 1, name := "Mirror", length := 2
        signals :=
          [{ name := "High", start := 0, length := 4, byteOrder := .bigEndian },
            { name := "Low", start := 0, length := 4, byteOrder := .littleEndian },
            { name := "Wide", start := 3, length := 8, byteOrder := .littleEndian }] } true =
      .error ⟨"Mirror", "Wide", .overlaps "Low" 0⟩ := rfl

end Frame

end CanCodec
