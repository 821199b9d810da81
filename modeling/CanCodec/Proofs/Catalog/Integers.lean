import CanCodec.Proofs.Codebook.Partition
import CanCodec.Proofs.Catalog.Reader
import CanCodec.Proofs.Record

/-! # Whole numbers of a catalog

A whole number under the key of a required field is that field, or the catalog is refused.
Two optional fields also drop numbers: a negative cycle time counts as absent, and so does an
initial value that does not fit 64 bits with a sign, even where the signal's bits carry it. -/

namespace CanCodec.Catalog

/-! ## Signals -/

/-- What becomes of the whole numbers under the keys of a signal. The raw value that is sent
for a record without the signal is the initial value, unless that was dropped. -/
structure SignalNumbers (entries : Entries) (signal : Signal) : Prop where
  start : Json.member? "start" entries = some (.whole signal.start)
  length : Json.member? "length" entries = some (.whole signal.length)
  initial : ∀ number, Json.member? "initial" entries = some (.whole number) →
    signal.initial = if -2 ^ 63 ≤ number ∧ number < 2 ^ 63 then some number else none
  sent : ∀ number, Json.member? "initial" entries = some (.whole number) →
    signal.range.contains number = true → ∀ record, record.get? signal.name = none →
      signal.rawOf record = .ok (if number < 2 ^ 63 then number else 0)

theorem SignalTaken.initial_of_whole {prune : Bool} {entries : Entries} {signal : Signal}
    (taken : SignalTaken prune entries signal) {number : Int}
    (written : Json.member? "initial" entries = some (.whole number)) :
    signal.initial = if -2 ^ 63 ≤ number ∧ number < 2 ^ 63 then some number else none := by
  rw [← taken.initial, written, Option.bind_some, Json.integer?]
  rfl

theorem SignalTaken.numbers {prune : Bool} {entries : Entries} {signal : Signal}
    (taken : SignalTaken prune entries signal) : SignalNumbers entries signal where
  start := naturalMember?_eq_some_iff.mp taken.start.1
  length := naturalMember?_eq_some_iff.mp taken.length.1
  initial _ := taken.initial_of_whole
  sent number written carried record unset := by
    have bounds := RawRange.contains_iff.mp carried
    -- No signal's range starts below the integers of 64 bits.
    have above : -2 ^ 63 ≤ number := by
      rcases signal.exists_range_bits with ⟨bits, -, -, low | ⟨low, short⟩⟩
      · omega
      · have power : 2 ^ bits ≤ 2 ^ 63 := Nat.pow_le_pow_right (by decide) (by omega)
        omega
    rw [Signal.rawOf, unset, Signal.initialRaw, taken.initial_of_whole written]
    simp only [above, true_and]
    split
    · rw [Option.getD_some, RawRange.clamp_of_contains carried]
    · rw [Option.getD_none, RawRange.clamp_of_contains signal.range_contains_zero]

/-! ## Messages -/

structure MessageNumbers (entries : Entries) (message : Message) : Prop where
  frameId : Json.member? "frame_id" entries = some (.whole message.frameId)
  length : Json.member? "length" entries = some (.whole message.length)
  cycleTime : ∀ number, Json.member? "cycle_time" entries = some (.whole number) →
    message.cycleTime.map Int.ofNat = if 0 ≤ number then some number else none
  signals : ∃ elements,
    (Json.member? "signals" entries = none ∧ elements = [] ∨
      Json.member? "signals" entries = some (.array elements)) ∧
    List.Forall₂ (fun element signal => ∃ entries, element = .object entries ∧
      SignalNumbers entries signal) elements message.signals

theorem signalElements_ok_iff {message : String} {entries : Entries} {elements : List Json} :
    signalElements message entries = .ok elements ↔
      Json.member? "signals" entries = none ∧ elements = [] ∨
        Json.member? "signals" entries = some (.array elements) := by
  rw [signalElements]
  cases Json.member? "signals" entries with
  | none => simp [eq_comm]
  | some value => simp [require_ok_iff, array?_eq_some_iff]

theorem cycleTime_of_whole {message : String} {entries : Entries} {cycleTime : Option Nat}
    (read : readCycleTime message entries = .ok cycleTime) {number : Int}
    (written : Json.member? "cycle_time" entries = some (.whole number)) :
    cycleTime.map Int.ofNat = if 0 ≤ number then some number else none := by
  rw [readCycleTime, naturalMember?, written, Option.bind_some, Json.natural?] at read
  split at read
  next absent =>
    have negative : ¬ 0 ≤ number := fun natural => by rw [if_pos natural] at absent; cases absent
    rw [if_neg negative, ← Except.ok.inj read]
    rfl
  next value present =>
    split at present
    next natural =>
      rcases map_ok_iff.mp read with ⟨own, fits, rfl⟩
      rw [if_pos natural, ← (require32_ok_iff.mp fits).1, ← Option.some.inj present]
      exact congrArg some (Int.toNat_of_nonneg natural)
    next => cases present

theorem MessageTaken.numbers {prune : Bool} {entries : Entries} {message : Message}
    (taken : MessageTaken prune entries message) : MessageNumbers entries message where
  frameId := naturalMember?_eq_some_iff.mp taken.frameId.1
  length := naturalMember?_eq_some_iff.mp taken.length
  cycleTime _ := cycleTime_of_whole taken.cycleTime
  signals := by
    rcases taken.signals with ⟨elements, listed, signals⟩
    refine ⟨elements, signalElements_ok_iff.mp listed, signals.imp fun element signal => ?_⟩
    rintro ⟨own, held, ownTaken⟩
    exact ⟨own, held, ownTaken.numbers⟩

/-! ## Catalogs -/

/-- In a catalog that is taken, each whole number under the key of a frame id, a length or a
start is the field itself, so a number that the field cannot hold refuses the catalog. A cycle
time is kept unless it is negative, and an initial value unless it is beyond 64 bits with a
sign; a kept one within the signal's range is sent for every record without the signal.

The numbers meant are those that are whole when the catalog arrives here. Text is read into
them before: a literal of 2⁶⁴ or more, or below -2⁶³, is already a real, and such a cycle time
or initial value is dropped. -/
theorem numbers_of_ofObject {prune : Bool} {entries : Entries} {schema : Schema}
    (taken : ofObject prune entries = .ok schema) :
    ∃ elements, Json.member? "messages" entries = some (.array elements) ∧
      List.Forall₂ (fun element message => ∃ entries, element = .object entries ∧
        MessageNumbers entries message) elements schema.messages := by
  rcases ofObject_ok_iff.mp taken with ⟨-, elements, listed, messages⟩
  refine ⟨elements, listed, messages.imp fun element message => ?_⟩
  rintro ⟨own, held, ownTaken⟩
  exact ⟨own, held, ownTaken.numbers⟩

def odometer (initial : Option Int) : Message where
  frameId := 0x31
  name := "Odometer"
  length := 8
  cycleTime := some 100
  signals := [{ name := "Total", start := 0, length := 64, byteOrder := .littleEndian, initial }]

def odometerSchema (initial : Option Int)
    (sound : firstViolation [] [odometer initial] = none := by decide) : Schema where
  version := none
  messages := [odometer initial]
  sound := sound

def odometerEntries (initial : Int) : Entries :=
  [("messages", .array [.object
    [("name", .text "Odometer"), ("frame_id", .whole 0x31), ("length", .whole 8),
      ("cycle_time", .whole 100),
      ("signals", .array [.object
        [("name", .text "Total"), ("start", .whole 0), ("length", .whole 64),
          ("initial", .whole initial)]])]])]

theorem ofObject_odometer (initial : Int) {kept : Option Int}
    (read : (Json.whole initial).integer? = kept)
    (sound : firstViolation [] [odometer kept] = none) :
    ofObject false (odometerEntries initial) = .ok (odometerSchema kept sound) := by
  subst read
  refine ofObject_ok_iff.mpr ⟨rfl, _, rfl, .cons ⟨_, rfl, ?_⟩ .nil⟩
  have idFits : 0x31 < Nat.pow 2 32 := by decide
  have startFits : 0 < Nat.pow 2 32 := by decide
  have lengthFits : 64 < Nat.pow 2 32 := by decide
  exact ⟨rfl, ⟨rfl, idFits⟩, rfl, ⟨_, rfl, .cons ⟨_, rfl, rfl, ⟨rfl, startFits⟩,
    ⟨rfl, lengthFits⟩, rfl, rfl, rfl, rfl, rfl, rfl, rfl, rfl, rfl, rfl⟩ .nil⟩, rfl, rfl, rfl, rfl⟩

theorem numbers_of_ofObject_odometer :
    ofObject false (odometerEntries (2 ^ 63 - 1)) = .ok (odometerSchema (some (2 ^ 63 - 1))) ∧
      ∃ elements, Json.member? "messages" (odometerEntries (2 ^ 63 - 1)) = some (.array elements) ∧
        List.Forall₂ (fun element message => ∃ entries, element = .object entries ∧
          MessageNumbers entries message) elements [odometer (some (2 ^ 63 - 1))] := by
  have taken : ofObject false (odometerEntries (2 ^ 63 - 1)) =
      .ok (odometerSchema (some (2 ^ 63 - 1))) := ofObject_odometer _ rfl (by decide)
  exact ⟨taken, numbers_of_ofObject taken⟩

/-- The largest value of an unsigned signal of 64 bits is dropped as its initial value, and a
record without the signal is sent as zeros. -/
theorem initial_dropped_odometer :
    ofObject false (odometerEntries (2 ^ 64 - 1)) = .ok (odometerSchema none) ∧
      (∀ signal ∈ (odometer none).signals, signal.range.contains (2 ^ 64 - 1) = true) ∧
      (Codec.ofMessage false (odometer none)).encode .empty = .ok (Payload.zeros 8) ∧
      (Codec.ofMessage false (odometer (some (2 ^ 64 - 1)))).encode .empty =
        .ok (List.replicate 8 255) :=
  ⟨ofObject_odometer (2 ^ 64 - 1) rfl (by decide), by decide, by rfl, by rfl⟩

end CanCodec.Catalog
