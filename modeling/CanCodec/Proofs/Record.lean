import CanCodec.Record
import CanCodec.Proofs.Conversion.Steps
import CanCodec.Proofs.Schema
import CanCodec.Proofs.Traversal

/-! # Raw values sent for records

Whatever a record holds, the raw value that is sent lies in its signal's range, as long
as the signal's choices do. There is none where a choice is unknown or a step overflows. -/

namespace CanCodec

namespace Signal

theorem exists_range_bits (signal : Signal) :
    ∃ bits ≤ max 1 (min signal.length 64), signal.range.high = (2 ^ bits : Nat) - 1 ∧
      (signal.range.low = 0 ∨
        signal.range.low = -(2 ^ bits : Nat) ∧ bits < max 1 (min signal.length 64)) := by
  rw [range, RawRange.ofBits]
  cases signal.signed with
  | true =>
      exact ⟨max 1 (min signal.length 64) - 1, by omega, rfl, .inr ⟨rfl, by omega⟩⟩
  | false => exact ⟨max 1 (min signal.length 64), Nat.le_refl _, rfl, .inl rfl⟩

theorem range_contains_zero (signal : Signal) : signal.range.contains 0 = true := by
  rcases exists_range_bits signal with ⟨bits, -, high, low⟩
  have power := Nat.two_pow_pos bits
  exact RawRange.contains_iff.mpr ⟨by omega, by omega⟩

theorem range_contains_limits (signal : Signal) :
    signal.range.contains signal.range.low = true ∧
      signal.range.contains signal.range.high = true := by
  have ordered : signal.range.low ≤ signal.range.high :=
    RawRange.ofBits_low_le_high signal.length signal.signed
  exact ⟨RawRange.contains_iff.mpr ⟨Int.le_refl _, ordered⟩,
    RawRange.contains_iff.mpr ⟨ordered, Int.le_refl _⟩⟩

theorem range_contains_clamp (signal : Signal) (raw : Int) :
    signal.range.contains (signal.range.clamp raw) = true :=
  RawRange.contains_clamp (RawRange.ofBits_low_le_high signal.length signal.signed) raw

theorem range_contains_toRaw {signal : Signal} {physical : Float} {raw : Int}
    (converted : signal.toRaw physical = some raw) : signal.range.contains raw = true := by
  rcases Option.map_eq_some_iff.mp converted with ⟨corrected, _, rfl⟩
  exact range_contains_clamp signal corrected

theorem encodeReal_ok_iff {signal : Signal} {physical : Float} {raw : Int} :
    signal.encodeReal physical = .ok raw ↔ signal.toRaw physical = some raw := by
  rw [encodeReal]
  cases signal.toRaw physical <;> simp

theorem encodeReal_error_iff {signal : Signal} {physical : Float} {failure : Failure Fault} :
    signal.encodeReal physical = .error failure ↔
      signal.Overflows physical ∧ failure = .overflow := by
  rw [encodeReal, ← toRaw_eq_none_iff]
  cases signal.toRaw physical <;> simp [eq_comm]

theorem range_contains_encodeChoice {signal : Signal} {name : String} {raw : Int}
    (choices : signal.ChoicesInRange) (encoded : signal.encodeChoice name = .ok raw) :
    signal.range.contains raw = true := by
  simp only [encodeChoice] at encoded
  cases found : signal.choiceRaw? name with
  | none => simp [found] at encoded
  | some value =>
      simp only [found, Except.ok.injEq] at encoded
      simp only [choiceRaw?, Option.bind_eq_bind, Option.pure_def] at found
      rcases Option.bind_eq_some_iff.mp found with ⟨declared, isDeclared, searched⟩
      rcases Option.bind_eq_some_iff.mp searched with ⟨entry, isEntry, value⟩
      have contained := choices declared isDeclared entry (List.mem_of_find?_eq_some isEntry)
      rw [← encoded, ← Option.some.inj value]
      exact contained

/-! ## Presented values -/

def number? (signal : Signal) : FieldValue → Option Float
  | .integer value => if signal.isUnscaled then none else some (Float.ofInt value)
  | .real value => some value
  | .choice _ => none

theorem encode_of_number? {signal : Signal} {value : FieldValue} {physical : Float}
    (converted : signal.number? value = some physical) :
    signal.encode value = signal.encodeReal physical := by
  cases value with
  | integer whole =>
      rw [number?] at converted
      split at converted
      · cases converted
      next scaled =>
        rw [encode, if_neg scaled, Option.some.inj converted]
  | real number => rw [encode, Option.some.inj converted]
  | choice name => cases converted

theorem encode_cases (signal : Signal) (value : FieldValue) :
    (∃ whole, value = .integer whole ∧ signal.isUnscaled = true ∧
        signal.encode value = .ok (signal.range.clamp whole)) ∨
      (∃ physical, signal.number? value = some physical ∧
        signal.encode value = signal.encodeReal physical) ∨
      ∃ name, value = .choice name ∧
        signal.encode value = (signal.encodeChoice name).mapError .fault := by
  cases value with
  | integer whole =>
      cases unscaled : signal.isUnscaled with
      | true => exact .inl ⟨whole, rfl, rfl, if_pos unscaled⟩
      | false =>
          have converted : signal.number? (.integer whole) = some (Float.ofInt whole) :=
            if_neg (ne_true_of_eq_false unscaled)
          exact .inr (.inl ⟨_, converted, encode_of_number? converted⟩)
  | real physical => exact .inr (.inl ⟨physical, rfl, rfl⟩)
  | choice name => exact .inr (.inr ⟨name, rfl, rfl⟩)

theorem encode_overflow_iff {signal : Signal} {value : FieldValue} :
    signal.encode value = .error .overflow ↔
      ∃ physical, signal.number? value = some physical ∧ signal.Overflows physical := by
  rcases signal.encode_cases value with ⟨whole, rfl, unscaled, encoded⟩ |
    ⟨physical, converted, encoded⟩ | ⟨name, rfl, encoded⟩
  · simp [encoded, number?, unscaled]
  · simp [encoded, converted, encodeReal_error_iff]
  · simp [encoded, mapError_error_iff, number?]

theorem range_contains_encode_or_choice {signal : Signal} {value : FieldValue} {raw : Int}
    (encoded : signal.encode value = .ok raw) : signal.range.contains raw = true ∨
      ∃ name, value = .choice name ∧ signal.encodeChoice name = .ok raw := by
  rcases signal.encode_cases value with ⟨whole, _, _, computed⟩ | ⟨physical, _, computed⟩ |
    ⟨name, given, computed⟩
  · rw [computed] at encoded
    rw [← Except.ok.inj encoded]
    exact .inl (range_contains_clamp signal whole)
  · rw [computed, encodeReal_ok_iff] at encoded
    exact .inl (range_contains_toRaw encoded)
  · rw [computed, mapError_ok_iff] at encoded
    exact .inr ⟨name, given, encoded⟩

theorem range_contains_encode {signal : Signal} {value : FieldValue} {raw : Int}
    (choices : signal.ChoicesInRange) (encoded : signal.encode value = .ok raw) :
    signal.range.contains raw = true := by
  rcases range_contains_encode_or_choice encoded with contained | ⟨name, _, encodedChoice⟩
  · exact contained
  · exact range_contains_encodeChoice choices encodedChoice

/-! ## Entries of a record -/

def OverflowsOn (signal : Signal) (record : Record) : Prop :=
  ∃ value, record.get? signal.name = some value ∧
    ∃ physical, signal.number? value = some physical ∧ signal.Overflows physical

theorem rawOf_overflow_iff {signal : Signal} {record : Record} :
    signal.rawOf record = .error .overflow ↔ signal.OverflowsOn record := by
  rw [rawOf, OverflowsOn]
  cases record.get? signal.name with
  | none => simp
  | some value => simp [encode_overflow_iff]

theorem range_contains_rawOf {signal : Signal} {record : Record} {raw : Int}
    (choices : signal.ChoicesInRange) (computed : signal.rawOf record = .ok raw) :
    signal.range.contains raw = true := by
  simp only [rawOf] at computed
  cases entry : record.get? signal.name with
  | some value =>
      rw [entry] at computed
      exact range_contains_encode choices computed
  | none =>
      rw [entry] at computed
      rw [← Except.ok.inj computed]
      exact range_contains_clamp signal _

/-! ## Overflows -/

/-- A charge of which even the least declared value is past the candidates. -/
def charge : Signal :=
  { name := "Charge", start := 0, length := 8, byteOrder := .littleEndian
    bounds := ⟨some 1e39, none⟩ }

def drain : Signal :=
  { name := "Drain", start := 8, length := 8, byteOrder := .littleEndian, signed := true
    bounds := ⟨none, some (-1e39)⟩ }

def filling : Signal :=
  { name := "Filling", start := 16, length := 8, byteOrder := .littleEndian
    linear := ⟨0.5, 0⟩, bounds := ⟨some 0, some 100⟩ }

def battery : Message where
  frameId := 0x41
  name := "Battery"
  length := 3
  signals := [charge, drain, filling]

def batterySchema : Schema where
  version := none
  messages := [battery]
  sound := by decide

end Signal

end CanCodec
