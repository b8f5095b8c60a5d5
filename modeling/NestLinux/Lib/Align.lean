import NestLinux.Lib.Word32
import Mathlib.Data.Nat.Bitwise

/-!
# Alignment of 32-bit words

A word is rounded to a multiple of a power of two by clearing its low bits. Rounding down
gives the largest multiple that is not above it; rounding up first adds the low bits, and
gives the smallest multiple that is not below it, unless the sum wraps.
-/

namespace NestLinux.Lib

/-- `x & ~(a - 1)` on 32-bit words. -/
def alignDown32 (x a : ℕ) : ℕ := x &&& (sub32 (2 ^ 32 - 1) (sub32 a 1))

/-- `(x + (a - 1)) & ~(a - 1)` on 32-bit words. -/
def alignUp32 (x a : ℕ) : ℕ := alignDown32 (add32 x (sub32 a 1)) a

variable {k x b : ℕ}

/-- The mask that clears the low `k` bits. -/
theorem mask_eq (hk : k < 32) :
    sub32 (2 ^ 32 - 1) (sub32 (2 ^ k) 1) = 2 ^ k * (2 ^ (32 - k) - 1) := by
  have hp : 0 < 2 ^ k := Nat.two_pow_pos k
  have hlt : 2 ^ k < 2 ^ 32 := Nat.pow_lt_pow_right (by omega) hk
  have hmul : 2 ^ k * 2 ^ (32 - k) = 2 ^ 32 := by rw [← Nat.pow_add, Nat.add_sub_cancel' hk.le]
  rw [sub32_of_le (a := 2 ^ k) hp (by omega), sub32_of_le (by omega) (by omega), Nat.mul_sub]
  omega

theorem alignDown32_eq (hk : k < 32) (hx : x < 2 ^ 32) :
    alignDown32 x (2 ^ k) = x / 2 ^ k * 2 ^ k := by
  rw [alignDown32, mask_eq hk]
  apply Nat.eq_of_testBit_eq
  intro i
  rw [Nat.testBit_and, Nat.testBit_two_pow_mul, Nat.mul_comm (x / 2 ^ k), Nat.testBit_two_pow_mul,
    Nat.testBit_div_two_pow]
  by_cases hik : k ≤ i
  · by_cases hi32 : i < 32
    · have hin : i - k < 32 - k := by omega
      simp [hik, hin]
    have hb : x.testBit i = false :=
      Nat.testBit_eq_false_of_lt (lt_of_lt_of_le hx (Nat.pow_le_pow_right (by omega) (by omega)))
    simp [hik, hb]
  · simp [hik]

theorem dvd_alignUp32 (hk : k < 32) : 2 ^ k ∣ alignUp32 x (2 ^ k) := by
  rw [alignUp32, alignDown32_eq hk (add32_lt _ _)]
  exact Nat.dvd_mul_left _ _

theorem alignUp32_lt (hk : k < 32) : alignUp32 x (2 ^ k) < 2 ^ 32 := by
  rw [alignUp32, alignDown32_eq hk (add32_lt _ _)]
  exact lt_of_le_of_lt (Nat.div_mul_le_self _ _) (add32_lt _ _)

theorem alignUp32_of_lt (hk : k < 32) (hx : x + (2 ^ k - 1) < 2 ^ 32) :
    alignUp32 x (2 ^ k) = (x + (2 ^ k - 1)) / 2 ^ k * 2 ^ k := by
  rw [alignUp32, sub32_of_le (Nat.two_pow_pos k) (by omega), add32_of_lt hx, alignDown32_eq hk hx]

/-! ## Multiples -/

variable {a : ℕ}

/-- The largest multiple that is not above a number. -/
theorem le_alignDown_iff (hb : a ∣ b) (ha : 0 < a) : b ≤ x / a * a ↔ b ≤ x := by
  obtain ⟨c, rfl⟩ := hb
  rw [Nat.mul_comm a c, Nat.mul_le_mul_right_iff ha, Nat.le_div_iff_mul_le ha]

/-- The smallest multiple that is not below a number. -/
theorem alignUp_le_iff (hb : a ∣ b) (ha : 0 < a) : (x + (a - 1)) / a * a ≤ b ↔ x ≤ b := by
  obtain ⟨c, rfl⟩ := hb
  rw [Nat.mul_comm a c, Nat.mul_le_mul_right_iff ha, Nat.div_le_iff_le_mul ha]
  omega

end NestLinux.Lib
