import Mathlib.Algebra.Order.Floor.Semifield
import Mathlib.Data.Rat.Floor
import Mathlib.Tactic.Linarith
import Mathlib.Tactic.Positivity
import CanCodec.Proofs.Double.Significand

/-! # Fractions of 53 significant bits

A product or a quotient of doubles need not be a whole count. It is rounded like one: to the
nearest multiple of the power of two that leaves 53 bits, a half to the even multiple. -/

namespace CanCodec.Double

def nearestEven (value : ℚ) : ℕ :=
  if value < ⌊value⌋₊ + 1 / 2 then ⌊value⌋₊
  else if ⌊value⌋₊ + 1 / 2 < value then ⌊value⌋₊ + 1
  else ⌊value⌋₊ + ⌊value⌋₊ % 2

/-- How many bits of a number lie above the fraction and below its 53 leading ones. -/
def excessOf (value : ℚ) : ℕ := excess ⌊value⌋₊

def significantOf (value : ℚ) : ℕ := nearestEven (value / 2 ^ excessOf value) * 2 ^ excessOf value

/-! ## Rounding to a whole number -/

theorem floor_le_nearestEven (value : ℚ) : ⌊value⌋₊ ≤ nearestEven value := by
  unfold nearestEven
  split_ifs <;> omega

theorem nearestEven_le (value : ℚ) : nearestEven value ≤ ⌊value⌋₊ + 1 := by
  unfold nearestEven
  split_ifs <;> omega

theorem nearestEven_natCast (natural : ℕ) : nearestEven natural = natural := by
  rw [nearestEven, Nat.floor_natCast, if_pos (by linarith)]

theorem nearestEven_mono {first second : ℚ} (le : first ≤ second) :
    nearestEven first ≤ nearestEven second := by
  rcases Nat.eq_or_lt_of_le (Nat.floor_mono le) with same | less
  · unfold nearestEven
    rw [same]
    split_ifs <;> first | omega | linarith
  · calc
      nearestEven first ≤ ⌊first⌋₊ + 1 := nearestEven_le first
      _ ≤ ⌊second⌋₊ := less
      _ ≤ nearestEven second := floor_le_nearestEven second

theorem nearestEven_div_two_pow (natural bits : ℕ) :
    nearestEven (natural / 2 ^ bits) = halfEven natural bits := by
  have power : (0 : ℚ) < 2 ^ bits := by positivity
  have floor : ⌊(natural : ℚ) / 2 ^ bits⌋₊ = natural / 2 ^ bits := by
    have quotient := Nat.floor_div_eq_div (K := ℚ) natural (2 ^ bits)
    rwa [Nat.cast_pow, Nat.cast_ofNat] at quotient
  have parts : (natural : ℚ) = (natural / 2 ^ bits : ℕ) * 2 ^ bits + (natural % 2 ^ bits : ℕ) := by
    exact_mod_cast (Nat.div_add_mod' natural (2 ^ bits)).symm
  have split : (natural : ℚ) / 2 ^ bits =
      (natural / 2 ^ bits : ℕ) + (natural % 2 ^ bits : ℕ) / 2 ^ bits := by
    rw [div_eq_iff power.ne', add_mul, div_mul_cancel₀ _ power.ne']
    exact parts
  have less : ((natural % 2 ^ bits : ℕ) : ℚ) / 2 ^ bits < 1 / 2 ↔
      2 * (natural % 2 ^ bits) < 2 ^ bits := by
    rw [div_lt_div_iff₀ power two_pos, one_mul, mul_comm]
    exact_mod_cast Iff.rfl
  have more : 1 / 2 < ((natural % 2 ^ bits : ℕ) : ℚ) / 2 ^ bits ↔
      2 ^ bits < 2 * (natural % 2 ^ bits) := by
    rw [div_lt_div_iff₀ two_pos power, one_mul, mul_comm]
    exact_mod_cast Iff.rfl
  unfold nearestEven halfEven
  rw [floor, split]
  simp only [add_lt_add_iff_left, less, more]

/-! ## Rounding to 53 bits -/

theorem excessOf_eq {value : ℚ} {bits : ℕ} (least : 2 ^ (52 + bits) ≤ value)
    (below : value < 2 ^ (53 + bits)) : excessOf value = bits := by
  apply excess_eq
  · apply Nat.le_floor
    exact_mod_cast least
  · rw [Nat.floor_lt' (by positivity)]
    exact_mod_cast below

theorem excessOf_eq_zero {value : ℚ} (small : value < 2 ^ 53) : excessOf value = 0 := by
  apply excess_eq_zero
  rw [Nat.floor_lt' (by decide)]
  exact_mod_cast small

theorem lt_two_pow_excessOf (value : ℚ) : value < 2 ^ (53 + excessOf value) := by
  have floor := lt_two_pow_excess ⌊value⌋₊
  rw [Nat.floor_lt' (by positivity), Nat.add_comm] at floor
  exact_mod_cast floor

theorem nearestEven_excessOf_le (value : ℚ) :
    nearestEven (value / 2 ^ excessOf value) ≤ 2 ^ 53 := by
  have quotient : value / 2 ^ excessOf value ≤ (2 ^ 53 : ℕ) := by
    rw [div_le_iff₀ (by positivity), Nat.cast_pow, Nat.cast_ofNat, ← pow_add]
    exact (lt_two_pow_excessOf value).le
  exact (nearestEven_mono quotient).trans (nearestEven_natCast _).le

theorem two_pow_excessOf_le {value : ℚ} (dropped : 0 < excessOf value) :
    2 ^ (52 + excessOf value) ≤ value := by
  have floor := two_pow_excess_le dropped
  rw [Nat.le_floor_iff' (by positivity), Nat.add_comm] at floor
  exact_mod_cast floor

theorem le_nearestEven_excessOf {value : ℚ} (dropped : 0 < excessOf value) :
    2 ^ 52 ≤ nearestEven (value / 2 ^ excessOf value) := by
  have quotient : (2 ^ 52 : ℕ) ≤ value / 2 ^ excessOf value := by
    rw [le_div_iff₀ (by positivity), Nat.cast_pow, Nat.cast_ofNat, ← pow_add]
    exact two_pow_excessOf_le dropped
  exact (nearestEven_natCast _).ge.trans (nearestEven_mono quotient)

theorem significantOf_natCast (natural : ℕ) : significantOf natural = significant natural := by
  rw [significantOf, excessOf, Nat.floor_natCast, nearestEven_div_two_pow]
  rfl

theorem significantOf_mono {first second : ℚ} (le : first ≤ second) :
    significantOf first ≤ significantOf second := by
  have excesses : excessOf first ≤ excessOf second := excess_mono (Nat.floor_mono le)
  unfold significantOf
  rcases Nat.eq_or_lt_of_le excesses with same | less
  · rw [same]
    exact Nat.mul_le_mul_right _ (nearestEven_mono (by gcongr))
  · have power : 2 ^ (53 + excessOf first) ≤ 2 ^ (52 + excessOf second) :=
      Nat.pow_le_pow_right (by decide) (by omega)
    calc
      nearestEven (first / 2 ^ excessOf first) * 2 ^ excessOf first
        ≤ 2 ^ 53 * 2 ^ excessOf first := Nat.mul_le_mul_right _ (nearestEven_excessOf_le first)
      _ ≤ 2 ^ 52 * 2 ^ excessOf second := by rwa [← Nat.pow_add, ← Nat.pow_add]
      _ ≤ nearestEven (second / 2 ^ excessOf second) * 2 ^ excessOf second :=
        Nat.mul_le_mul_right _ (le_nearestEven_excessOf (by omega))

theorem significant_mono {first second : ℕ} (le : first ≤ second) :
    significant first ≤ significant second := by
  rw [← significantOf_natCast, ← significantOf_natCast]
  exact significantOf_mono (by exact_mod_cast le)

theorem significant_pos {natural : ℕ} (positive : 0 < natural) : 0 < significant natural :=
  calc
    0 < 1 * 2 ^ 0 := by decide
    _ = significant (1 * 2 ^ 0) := (significant_mul_two_pow (by decide) 0).symm
    _ ≤ significant natural := significant_mono positive

theorem significantOf_of_nonpos {value : ℚ} (nonpos : value ≤ 0) : significantOf value = 0 := by
  have zero : significantOf 0 = 0 := by
    have natural := significantOf_natCast 0
    rwa [Nat.cast_zero] at natural
  have le := significantOf_mono nonpos
  omega

end CanCodec.Double
