import CanCodec.Proofs.Frame.Numbering

/-! # Plans of whole messages

A message can be planned exactly when each of its signals fits the frame and, in a
strict plan, no two of them claim one place. -/

namespace CanCodec

namespace Signal

def Apart (first second : Signal) : Prop :=
  ∀ place, ¬ (first.Claims place ∧ second.Claims place)

theorem Fits.claims_bounds {signal : Signal} {messageLength : Nat} {place : Place}
    (fits : signal.Fits messageLength) (claimed : signal.Claims place) :
    place.byte < messageLength ∧ place.bit < 8 := by
  rcases claimed with ⟨index, within, atPlace⟩
  rw [← atPlace]
  exact ⟨place_byte_lt fits.2 within, place_bit_lt signal index⟩

theorem eq_of_claims {signals : List Signal} (apart : signals.Pairwise Apart)
    {first second : Signal} (firstMember : first ∈ signals) (secondMember : second ∈ signals)
    {place : Place} (firstClaims : first.Claims place) (secondClaims : second.Claims place) :
    first = second := by
  induction signals with
  | nil => cases firstMember
  | cons head rest induction =>
      have parts := List.pairwise_cons.mp apart
      rcases List.mem_cons.mp firstMember with firstEqual | firstMember
      · rcases List.mem_cons.mp secondMember with secondEqual | secondMember
        · exact firstEqual.trans secondEqual.symm
        · rw [firstEqual] at firstClaims
          exact absurd ⟨firstClaims, secondClaims⟩ (parts.1 second secondMember place)
      · rcases List.mem_cons.mp secondMember with secondEqual | secondMember
        · rw [secondEqual] at secondClaims
          exact absurd ⟨secondClaims, firstClaims⟩ (parts.1 first firstMember place)
        · exact induction parts.2 firstMember secondMember

end Signal

def Message.Claims (message : Message) (place : Place) : Prop :=
  ∃ signal ∈ message.signals, signal.Claims place

instance (message : Message) (place : Place) : Decidable (message.Claims place) :=
  inferInstanceAs (Decidable (∃ signal ∈ message.signals, signal.Claims place))

namespace Frame

/-! ## Bits held by segments -/

theorem holds_iff {byte bit : Nat} {segment : Segment} :
    holds byte bit segment = true ↔
      segment.byteIndex = byte ∧ segment.bitOffset ≤ bit ∧
        bit < segment.bitOffset + segment.bitCount := by
  simp [holds, and_assoc]

theorem holds_segment_iff {signal : Signal} {span : Span} {byte bit : Nat}
    (positive : 0 < signal.length) (member : span ∈ spans signal) :
    holds byte bit (segment signal span) = true ↔
      span.byteIndex = byte ∧ signal.Claims ⟨byte, bit⟩ := by
  have bounds := span_bounds positive member
  have ends := span_ends member
  rw [holds_iff]
  simp only [segment]
  refine and_congr_right fun inByte => ?_
  constructor
  · intro inside
    cases order : signal.byteOrder with
    | littleEndian =>
        simp only [order] at inside
        refine ⟨8 * span.byteIndex + bit - signal.start, by omega, ?_⟩
        simp only [Signal.place, order, Place.mk.injEq]
        omega
    | bigEndian =>
        simp only [order] at inside
        refine ⟨signal.start + signal.length - 1 - (8 * span.byteIndex + 7 - bit), by omega, ?_⟩
        simp only [Signal.place, order, Place.mk.injEq]
        omega
  · intro claimed
    rcases claimed with ⟨index, within, atPlace⟩
    cases order : signal.byteOrder with
    | littleEndian =>
        simp only [Signal.place, order, Place.mk.injEq] at atPlace ⊢
        omega
    | bigEndian =>
        simp only [Signal.place, order, Place.mk.injEq] at atPlace ⊢
        omega

theorem any_holds_segments_iff {signal : Signal} {byte bit : Nat}
    (positive : 0 < signal.length) :
    (segments signal).any (holds byte bit) = true ↔ signal.Claims ⟨byte, bit⟩ := by
  rw [List.any_eq_true]
  constructor
  · intro found
    rcases found with ⟨segment, member, held⟩
    rcases mem_segments.mp member with ⟨span, spanMember, equal⟩
    rw [← equal] at held
    exact ((holds_segment_iff positive spanMember).mp held).2
  · intro claimed
    rcases exists_span_of_claims claimed with ⟨span, member, inByte⟩
    exact ⟨segment signal span, mem_segments.mpr ⟨span, member, rfl⟩,
      (holds_segment_iff positive member).mpr ⟨inByte, claimed⟩⟩

/-! ## Meeting an earlier signal -/

def placing (signal : Signal) : Placed := ⟨signal, segments signal⟩

theorem owner?_eq_none_iff {earlier : List Signal} {byte bit : Nat}
    (positive : ∀ other ∈ earlier, 0 < other.length) :
    owner? (earlier.map placing) byte bit = none ↔
      ∀ other ∈ earlier, ¬ other.Claims ⟨byte, bit⟩ := by
  simp only [owner?, Option.map_eq_none_iff, List.find?_eq_none, List.forall_mem_map, placing]
  refine forall₂_congr fun other member => ?_
  rw [any_holds_segments_iff (positive other member)]

theorem segmentOverlap?_eq_none_iff {placed : List Placed} {segment : Segment} :
    segmentOverlap? placed segment = none ↔
      ∀ bit, holds segment.byteIndex bit segment = true →
        owner? placed segment.byteIndex bit = none := by
  simp only [segmentOverlap?, List.findSome?_eq_none_iff, List.mem_range'_1,
    Option.map_eq_none_iff, holds_iff, true_and]

theorem overlap?_eq_none_iff {earlier : List Signal} {signal : Signal}
    (earlierPositive : ∀ other ∈ earlier, 0 < other.length)
    (positive : 0 < signal.length) :
    overlap? (earlier.map placing) (segments signal) = none ↔
      ∀ other ∈ earlier, other.Apart signal := by
  simp only [overlap?, List.findSome?_eq_none_iff, segmentOverlap?_eq_none_iff,
    owner?_eq_none_iff earlierPositive]
  constructor
  · intro free other member place claimed
    rcases place with ⟨byte, bit⟩
    rcases List.any_eq_true.mp ((any_holds_segments_iff positive).mpr claimed.2) with
      ⟨segment, segmentMember, held⟩
    have inByte : segment.byteIndex = byte := (holds_iff.mp held).1
    rw [← inByte] at held claimed
    exact free segment segmentMember bit held other member claimed.1
  · intro apart segment segmentMember bit held other member otherClaims
    have claims : signal.Claims ⟨segment.byteIndex, bit⟩ :=
      (any_holds_segments_iff positive).mp (List.any_eq_true.mpr ⟨segment, segmentMember, held⟩)
    exact apart other member _ ⟨otherClaims, claims⟩

/-! ## Placing signals one after another -/

theorem place_ok_iff {message : Message} {strict : Bool} {earlier : List Signal}
    {signal : Signal} {placed : Placed} (positive : ∀ other ∈ earlier, 0 < other.length) :
    place message strict (earlier.map placing) signal = .ok placed ↔
      signal.Fits message.length ∧
        (strict = true → ∀ other ∈ earlier, other.Apart signal) ∧ placed = placing signal := by
  rw [place]
  cases planned : planWithin message.name (8 * message.length) signal with
  | error fault =>
      have refused : ¬ signal.Fits message.length := by
        intro fits
        rw [planWithin_ok_iff.mpr ⟨fits, rfl⟩] at planned
        cases planned
      simp [refused]
  | ok plan =>
      rcases planWithin_ok_iff.mp planned with ⟨fits, equal⟩
      rw [equal]
      have free : overlap? (earlier.map placing) (segments signal) = none ↔
          ∀ other ∈ earlier, other.Apart signal := overlap?_eq_none_iff positive fits.1
      cases strict with
      | false => simp [fits, placing, eq_comm]
      | true =>
          cases met : overlap? (earlier.map placing) (segments signal) with
          | none =>
              have apart := free.mp met
              simp only [fits, met, placing, if_true, Except.ok.injEq, true_and, forall_const]
              exact ⟨fun same => ⟨apart, same.symm⟩, fun same => same.2.symm⟩
          | some reason =>
              have notApart : ¬ ∀ other ∈ earlier, other.Apart signal := by
                intro apart
                rw [free.mpr apart] at met
                cases met
              simp [met, notApart]

theorem placeAll_ok_iff {message : Message} {strict : Bool} {earlier signals : List Signal}
    {placed : List Placed} (positive : ∀ other ∈ earlier, 0 < other.length) :
    placeAll message strict (earlier.map placing) signals = .ok placed ↔
      (∀ signal ∈ signals, signal.Fits message.length) ∧
        (strict = true → (∀ other ∈ earlier, ∀ signal ∈ signals, other.Apart signal) ∧
          signals.Pairwise Signal.Apart) ∧
        placed = (earlier ++ signals).map placing := by
  -- The signals placed so far are a prefix of the message, so the induction is over the rest.
  induction signals generalizing earlier with
  | nil => simp [placeAll, eq_comm]
  | cons signal rest induction =>
      rw [placeAll]
      cases next : place message strict (earlier.map placing) signal with
      | error fault =>
          have refused : ¬ (signal.Fits message.length ∧
              (strict = true → ∀ other ∈ earlier, other.Apart signal)) := by
            intro accepted
            rw [(place_ok_iff positive).mpr ⟨accepted.1, accepted.2, rfl⟩] at next
            cases next
          simp only [reduceCtorEq, false_iff]
          intro accepted
          refine refused ⟨accepted.1 signal List.mem_cons_self, fun isStrict other member => ?_⟩
          exact (accepted.2.1 isStrict).1 other member signal List.mem_cons_self
      | ok nextPlaced =>
          rcases (place_ok_iff positive).mp next with ⟨fits, apart, equal⟩
          have extended : earlier.map placing ++ [placing signal] =
              (earlier ++ [signal]).map placing := by simp
          have extendedPositive : ∀ other ∈ earlier ++ [signal], 0 < other.length :=
            List.forall_mem_append.mpr ⟨positive, List.forall_mem_singleton.mpr fits.1⟩
          simp only [equal, extended, induction extendedPositive]
          grind

/-- A message is planned exactly when its signals fit the frame and, in a strict plan,
stand apart from one another. -/
theorem planMessage_ok_iff {message : Message} {strict : Bool} {placed : List Placed} :
    planMessage message strict = .ok placed ↔
      (∀ signal ∈ message.signals, signal.Fits message.length) ∧
        (strict = true → message.signals.Pairwise Signal.Apart) ∧
        placed = message.signals.map placing := by
  have noneEarlier : ∀ other ∈ ([] : List Signal), 0 < other.length := by simp
  simpa [planMessage] using placeAll_ok_iff noneEarlier

end Frame

end CanCodec
