import Mathlib.Algebra.BigOperators.Group.List.Basic
import Mathlib.Algebra.GroupWithZero.Nat
import Mathlib.Data.List.Nodup
import Mathlib.Data.List.Perm.Subperm
import CanCodec.Proofs.Frame.Overlap

/-! # Room in a frame

Signals that stand apart have together at most as many bits as their frame. -/

namespace CanCodec

namespace Place

def number (place : Place) : Nat := 8 * place.byte + place.bit

theorem number_inj {first second : Place} (firstInByte : first.bit < 8)
    (secondInByte : second.bit < 8) (same : first.number = second.number) : first = second := by
  rcases first with ⟨byte, bit⟩
  rcases second with ⟨otherByte, otherBit⟩
  simp only [number] at same firstInByte secondInByte
  rw [Place.mk.injEq]
  omega

end Place

namespace Signal

def places (signal : Signal) : List Place := (List.range signal.length).map signal.place

theorem mem_places {signal : Signal} {place : Place} :
    place ∈ signal.places ↔ signal.Claims place := by
  simp [places, Claims]

theorem nodup_places (signal : Signal) : signal.places.Nodup := by
  refine List.Nodup.map_on ?_ List.nodup_range
  intro first firstMember second secondMember same
  exact place_injective (List.mem_range.mp firstMember) (List.mem_range.mp secondMember) same

theorem nodup_flatMap_places {signals : List Signal} (apart : signals.Pairwise Apart) :
    (signals.flatMap places).Nodup := by
  rw [List.nodup_flatMap]
  refine ⟨fun signal _ => signal.nodup_places, apart.imp fun {first second} apart => ?_⟩
  intro place inFirst inSecond
  exact apart place ⟨mem_places.mp inFirst, mem_places.mp inSecond⟩

def numbers (signals : List Signal) : List Nat := (signals.flatMap places).map Place.number

theorem length_numbers (signals : List Signal) :
    (numbers signals).length = (signals.map Signal.length).sum := by
  simp [numbers, places, List.length_flatMap]

section

variable {signals : List Signal} {messageLength : Nat}

theorem mem_numbers {number : Nat} :
    number ∈ numbers signals ↔
      ∃ place, (∃ signal ∈ signals, signal.Claims place) ∧ place.number = number := by
  simp only [numbers, List.mem_map, List.mem_flatMap, mem_places]

theorem place_bounds (fits : ∀ signal ∈ signals, signal.Fits messageLength) {place : Place}
    (claimed : ∃ signal ∈ signals, signal.Claims place) :
    place.byte < messageLength ∧ place.bit < 8 := by
  rcases claimed with ⟨signal, member, claims⟩
  exact (fits signal member).claims_bounds claims

theorem nodup_numbers (fits : ∀ signal ∈ signals, signal.Fits messageLength)
    (apart : signals.Pairwise Apart) : (numbers signals).Nodup := by
  have inByte : ∀ place ∈ signals.flatMap places, place.bit < 8 := by
    intro place member
    rcases List.mem_flatMap.mp member with ⟨signal, signalMember, claimed⟩
    exact (place_bounds fits ⟨signal, signalMember, mem_places.mp claimed⟩).2
  exact (nodup_flatMap_places apart).map_on fun first firstMember second secondMember same =>
    Place.number_inj (inByte first firstMember) (inByte second secondMember) same

theorem numbers_subset (fits : ∀ signal ∈ signals, signal.Fits messageLength) :
    numbers signals ⊆ List.range (8 * messageLength) := by
  intro number member
  rcases mem_numbers.mp member with ⟨place, claimed, rfl⟩
  have bounds := place_bounds fits claimed
  rw [List.mem_range, Place.number]
  omega

theorem sum_length_le (fits : ∀ signal ∈ signals, signal.Fits messageLength)
    (apart : signals.Pairwise Apart) :
    (signals.map Signal.length).sum ≤ 8 * messageLength := by
  have le := (List.subperm_of_subset (nodup_numbers fits apart) (numbers_subset fits)).length_le
  rwa [length_numbers, List.length_range] at le

theorem sum_length_eq_iff (fits : ∀ signal ∈ signals, signal.Fits messageLength)
    (apart : signals.Pairwise Apart) :
    (signals.map Signal.length).sum = 8 * messageLength ↔
      ∀ place : Place, place.byte < messageLength → place.bit < 8 →
        ∃ signal ∈ signals, signal.Claims place := by
  have inFrame := List.subperm_of_subset (nodup_numbers fits apart) (numbers_subset fits)
  constructor
  · intro full place byte bit
    have perm := inFrame.perm_of_length_le
      (Nat.le_of_eq (by rw [length_numbers, List.length_range, full]))
    have number : place.number ∈ List.range (8 * messageLength) := by
      rw [List.mem_range, Place.number]
      omega
    rcases mem_numbers.mp (perm.mem_iff.mpr number) with ⟨other, claimed, same⟩
    rwa [Place.number_inj (place_bounds fits claimed).2 bit same] at claimed
  · intro claimed
    have covered : List.range (8 * messageLength) ⊆ numbers signals := by
      intro number member
      rw [List.mem_range] at member
      refine mem_numbers.mpr ⟨⟨number / 8, number % 8⟩, claimed _ ?_ ?_, ?_⟩
      · dsimp only
        omega
      · exact Nat.mod_lt number (by decide)
      · exact Nat.div_add_mod number 8
    have le := (List.subperm_of_subset List.nodup_range covered).length_le
    rw [length_numbers, List.length_range] at le
    exact Nat.le_antisymm (sum_length_le fits apart) le

theorem length_le_of_apart (fits : ∀ signal ∈ signals, signal.Fits messageLength)
    (apart : signals.Pairwise Apart) : signals.length ≤ 8 * messageLength := by
  have each : ∀ length ∈ signals.map Signal.length, 1 ≤ length := by
    intro length member
    rcases List.mem_map.mp member with ⟨signal, signalMember, rfl⟩
    exact (fits signal signalMember).1
  have le := List.length_le_sum_of_one_le _ each
  rw [List.length_map] at le
  exact Nat.le_trans le (sum_length_le fits apart)

end

end Signal

end CanCodec
