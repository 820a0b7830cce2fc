import Mathlib.Algebra.Order.Ring.Nat
import Mathlib.Tactic.Common

/-!
Masks on natural numbers: clearing the low bits of a word, and setting flags in
the low bits of an aligned address.
-/

namespace Lib.Bits

theorem testBit_highMask {w k i : ℕ} (hk : k ≤ w) :
    (2 ^ w - 2 ^ k).testBit i = (decide (k ≤ i) && decide (i < w)) := by
  have he : 2 ^ w - 2 ^ k = 2 ^ k * (2 ^ (w - k) - 1) := by
    rw [Nat.mul_sub, ← pow_add, Nat.add_sub_cancel' hk, Nat.mul_one]
  rw [he, Nat.testBit_two_pow_mul, Nat.testBit_two_pow_sub_one]
  by_cases hi : k ≤ i
  · have : i - k < w - k ↔ i < w := by omega
    simp [hi, this]
  · simp [hi]

theorem and_highMask {w k x : ℕ} (hk : k ≤ w) (hx : x < 2 ^ w) :
    x &&& (2 ^ w - 2 ^ k) = x / 2 ^ k * 2 ^ k := by
  apply Nat.eq_of_testBit_eq
  intro i
  rw [Nat.testBit_and, testBit_highMask hk, Nat.mul_comm, Nat.testBit_two_pow_mul,
    Nat.testBit_div_two_pow]
  by_cases hi : k ≤ i
  · by_cases hw : i < w
    · simp [hi, hw, Nat.sub_add_cancel hi]
    · have hbit : x.testBit i = false :=
        Nat.testBit_lt_two_pow (hx.trans_le (Nat.pow_le_pow_right (by decide) (by omega)))
      simp [hi, hw, Nat.sub_add_cancel hi, hbit]
  · simp [hi]

theorem or_low {k a b : ℕ} (ha : a % 2 ^ k = 0) (hb : b < 2 ^ k) : a ||| b = a + b := by
  obtain ⟨c, rfl⟩ := Nat.dvd_of_mod_eq_zero ha
  exact (Nat.two_pow_add_eq_or_of_lt hb c).symm

end Lib.Bits
