import Mathlib.Tactic.Ring
import Mathlib.Data.Nat.Log

/-! # Natural numbers of 53 significant bits

Every finite double is a whole multiple of the least positive one, so rounding to a double
keeps the 53 leading bits of a natural number. -/

namespace CanCodec.Double

/-- `natural / 2 ^ bits` as the nearest natural number; a half goes to the even one. -/
def halfEven (natural bits : Nat) : Nat :=
  let quotient := natural / 2 ^ bits
  let rest := natural % 2 ^ bits
  if 2 * rest < 2 ^ bits then quotient
  else if 2 ^ bits < 2 * rest then quotient + 1
  else quotient + quotient % 2

def excess (natural : Nat) : Nat := natural.log2 - 52

def significant (natural : Nat) : Nat :=
  halfEven natural (excess natural) * 2 ^ excess natural

/-! ## Rounding to whole multiples of a power of two -/

theorem halfEven_zero_bits (natural : Nat) : halfEven natural 0 = natural := by
  simp [halfEven, Nat.mod_one]

theorem halfEven_mul_two_pow (natural bits shift : Nat) :
    halfEven (natural * 2 ^ shift) (bits + shift) = halfEven natural bits := by
  have positive : 0 < 2 ^ shift := Nat.two_pow_pos shift
  have quotient : natural * 2 ^ shift / 2 ^ (bits + shift) = natural / 2 ^ bits := by
    rw [Nat.pow_add, Nat.mul_div_mul_right _ _ positive]
  have rest : 2 * (natural * 2 ^ shift % 2 ^ (bits + shift)) =
      2 * (natural % 2 ^ bits) * 2 ^ shift := by
    rw [Nat.pow_add, Nat.mul_mod_mul_right, Nat.mul_assoc]
  unfold halfEven
  dsimp only
  rw [quotient, rest, Nat.pow_add]
  simp only [Nat.mul_lt_mul_right positive]

theorem halfEven_of_multiple (natural bits : Nat) :
    halfEven (natural * 2 ^ bits) bits = natural := by
  have scaled := halfEven_mul_two_pow natural 0 bits
  rwa [Nat.zero_add, halfEven_zero_bits] at scaled

/-! ## Rounding to 53 bits -/

theorem excess_mono {first second : Nat} (le : first ≤ second) : excess first ≤ excess second := by
  have logs : first.log2 ≤ second.log2 := by
    rw [Nat.log2_eq_log_two, Nat.log2_eq_log_two]
    exact Nat.log_mono_right le
  unfold excess
  omega

theorem lt_two_pow_excess (natural : Nat) : natural < 2 ^ (excess natural + 53) :=
  Nat.lt_of_lt_of_le Nat.lt_log2_self (Nat.pow_le_pow_right (by decide) (by unfold excess; omega))

theorem two_pow_excess_le {natural : Nat} (dropped : 0 < excess natural) :
    2 ^ (excess natural + 52) ≤ natural := by
  have exponent : excess natural + 52 = natural.log2 := by
    unfold excess at *
    omega
  rw [exponent]
  apply Nat.log2_self_le
  rintro rfl
  simp [excess] at dropped

theorem excess_eq {natural bits : Nat} (least : 2 ^ (52 + bits) ≤ natural)
    (below : natural < 2 ^ (53 + bits)) : excess natural = bits := by
  have positive := Nat.two_pow_pos (52 + bits)
  have log : natural.log2 = 52 + bits := by
    rw [Nat.log2_eq_iff (by omega)]
    exact ⟨least, by rwa [show 52 + bits + 1 = 53 + bits by omega]⟩
  rw [excess, log, Nat.add_sub_cancel_left]

theorem excess_eq_zero {natural : Nat} (small : natural < 2 ^ 53) : excess natural = 0 := by
  by_contra dropped
  have large := two_pow_excess_le (Nat.pos_of_ne_zero dropped)
  have power : 2 ^ 53 ≤ 2 ^ (excess natural + 52) := Nat.pow_le_pow_right (by decide) (by omega)
  omega

theorem significant_of_excess_le {natural mantissa bits : Nat} (le : excess natural ≤ bits)
    (equal : natural = mantissa * 2 ^ bits) : significant natural = natural := by
  have split : natural = mantissa * 2 ^ (bits - excess natural) * 2 ^ excess natural := by
    rw [Nat.mul_assoc, ← Nat.pow_add, Nat.sub_add_cancel le, ← equal]
  have rounded : halfEven natural (excess natural) = mantissa * 2 ^ (bits - excess natural) := by
    conv_lhs => arg 1; rw [split]
    exact halfEven_of_multiple _ _
  rw [significant, rounded, ← split]

theorem excess_mul_two_pow_le {mantissa : Nat} (narrow : mantissa < 2 ^ 53) (bits : Nat) :
    excess (mantissa * 2 ^ bits) ≤ bits := by
  by_contra dropped
  have large : 2 ^ (excess (mantissa * 2 ^ bits) + 52) ≤ mantissa * 2 ^ bits :=
    two_pow_excess_le (by omega)
  have power : 2 ^ (53 + bits) ≤ 2 ^ (excess (mantissa * 2 ^ bits) + 52) :=
    Nat.pow_le_pow_right (by decide) (by omega)
  have below : mantissa * 2 ^ bits < 2 ^ 53 * 2 ^ bits :=
    Nat.mul_lt_mul_of_pos_right narrow (Nat.two_pow_pos bits)
  rw [Nat.pow_add] at power
  omega

theorem significant_mul_two_pow {mantissa : Nat} (narrow : mantissa < 2 ^ 53) (bits : Nat) :
    significant (mantissa * 2 ^ bits) = mantissa * 2 ^ bits :=
  significant_of_excess_le (excess_mul_two_pow_le narrow bits) rfl

theorem two_pow_dvd_significant (natural bits : Nat) :
    2 ^ bits ∣ significant (natural * 2 ^ bits) := by
  by_cases kept : excess (natural * 2 ^ bits) ≤ bits
  · rw [significant_of_excess_le kept rfl]
    exact Nat.dvd_mul_left _ _
  · rw [significant]
    exact Nat.dvd_mul_left_of_dvd (Nat.pow_dvd_pow 2 (by omega)) _

theorem significant_pred_two_pow {bits : Nat} (wide : 53 < bits) (shift : Nat) :
    significant ((2 ^ bits - 1) * 2 ^ shift) = 2 ^ bits * 2 ^ shift := by
  obtain ⟨extra, rfl⟩ : ∃ extra, bits = 53 + (extra + 1) := ⟨bits - 54, by omega⟩
  have power : 2 ^ (53 + (extra + 1)) = 2 ^ 53 * 2 ^ (extra + 1) := Nat.pow_add ..
  have two : 2 ≤ 2 ^ (extra + 1) := Nat.le_self_pow (by omega) 2
  have dropped : excess ((2 ^ (53 + (extra + 1)) - 1) * 2 ^ shift) = extra + 1 + shift := by
    have lower : 2 ^ (52 + (extra + 1 + shift)) = 2 ^ 52 * 2 ^ (extra + 1) * 2 ^ shift := by ring
    have upper : 2 ^ (53 + (extra + 1 + shift)) = 2 ^ 53 * 2 ^ (extra + 1) * 2 ^ shift := by ring
    apply excess_eq
    · rw [lower]
      exact Nat.mul_le_mul_right _ (by omega)
    · rw [upper]
      exact Nat.mul_lt_mul_of_pos_right (by omega) (Nat.two_pow_pos shift)
  have rounded : halfEven (2 ^ (53 + (extra + 1)) - 1) (extra + 1) = 2 ^ 53 := by
    have quotient : (2 ^ (53 + (extra + 1)) - 1) / 2 ^ (extra + 1) = 2 ^ 53 - 1 := by
      apply Nat.div_eq_of_lt_le <;> omega
    have rest := Nat.div_add_mod (2 ^ (53 + (extra + 1)) - 1) (2 ^ (extra + 1))
    rw [quotient] at rest
    unfold halfEven
    dsimp only
    rw [quotient]
    split_ifs <;> omega
  rw [significant, dropped, halfEven_mul_two_pow, rounded, Nat.pow_add, power, Nat.mul_assoc]

end CanCodec.Double
