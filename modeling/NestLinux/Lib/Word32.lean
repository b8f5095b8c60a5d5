import Mathlib.Algebra.Order.Ring.Nat

/-!
# Sums and differences of 32-bit words

A 32-bit unsigned word is a natural number below `2 ^ 32`. Its sums and differences
wrap, and a proof about a program that never lets them wrap first turns them into the
plain ones.
-/

namespace NestLinux.Lib

/-- `a + b` on 32-bit words. -/
def add32 (a b : ℕ) : ℕ := (a + b) % 2 ^ 32

/-- `a - b` on 32-bit words. -/
def sub32 (a b : ℕ) : ℕ := (a + 2 ^ 32 - b) % 2 ^ 32

theorem add32_of_lt {a b : ℕ} (h : a + b < 2 ^ 32) : add32 a b = a + b := Nat.mod_eq_of_lt h

theorem sub32_of_le {a b : ℕ} (h : b ≤ a) (hlt : a - b < 2 ^ 32) : sub32 a b = a - b := by
  have hab : a + 2 ^ 32 - b = a - b + 2 ^ 32 := by omega
  rw [sub32, hab, Nat.add_mod_right, Nat.mod_eq_of_lt hlt]

theorem add32_lt (a b : ℕ) : add32 a b < 2 ^ 32 := Nat.mod_lt _ (Nat.two_pow_pos 32)

theorem sub32_lt (a b : ℕ) : sub32 a b < 2 ^ 32 := Nat.mod_lt _ (Nat.two_pow_pos 32)

end NestLinux.Lib
