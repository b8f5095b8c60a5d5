import Mathlib.Data.Nat.Bitwise
import Mathlib.Tactic.Ring

/-!
# Digits of an index

A table of tables is walked by the digits of an index, the highest one first. What a table
of some height holds depends on the digits below that height only, that is, on the index
modulo a power of the base; and the indices that share the digits from that height up are
one block of consecutive numbers.
-/

namespace NestLinux.Lib

/-- The digit of `i` above `h` others, in base `B`. -/
def digit (B h i : ℕ) : ℕ := i / B ^ h % B

variable {B h i j : ℕ}

theorem digit_lt (hB : 0 < B) (h i : ℕ) : digit B h i < B := Nat.mod_lt _ hB

theorem mod_pow_succ (B h i : ℕ) : i % B ^ (h + 1) = digit B h i * B ^ h + i % B ^ h := by
  rw [Nat.mod_pow_succ, digit]
  ring

/-- Two indices agree on their low digits when they agree on the highest of them and on the
others. -/
theorem mod_pow_succ_eq_iff (hB : 0 < B) :
    i % B ^ (h + 1) = j % B ^ (h + 1) ↔ digit B h i = digit B h j ∧ i % B ^ h = j % B ^ h := by
  have hp : 0 < B ^ h := Nat.pow_pos hB
  have hi := Nat.mod_lt i hp
  have hj := Nat.mod_lt j hp
  rw [mod_pow_succ, mod_pow_succ]
  constructor
  · intro heq
    have hd : digit B h i = digit B h j := by
      have h1 : (digit B h i * B ^ h + i % B ^ h) / B ^ h = digit B h i := by
        rw [add_comm, Nat.add_mul_div_right _ _ hp, Nat.div_eq_of_lt hi, zero_add]
      have h2 : (digit B h j * B ^ h + j % B ^ h) / B ^ h = digit B h j := by
        rw [add_comm, Nat.add_mul_div_right _ _ hp, Nat.div_eq_of_lt hj, zero_add]
      rw [← h1, ← h2, heq]
    rw [hd] at heq
    exact ⟨hd, add_left_cancel heq⟩
  · intro heq
    rw [heq.1, heq.2]

/-! ## Blocks -/

/-- The first index after the block of `i`. -/
def nextBlock (B h i : ℕ) : ℕ := i - i % B ^ h + B ^ h

theorem nextBlock_eq (B h i : ℕ) : nextBlock B h i = (i / B ^ h + 1) * B ^ h := by
  have hd := Nat.div_add_mod i (B ^ h)
  have hsub : i - i % B ^ h = i / B ^ h * B ^ h := by
    rw [mul_comm]
    omega
  rw [nextBlock, hsub, add_mul, one_mul]

theorem lt_nextBlock (hB : 0 < B) (h i : ℕ) : i < nextBlock B h i := by
  have hlt := Nat.mod_lt i (Nat.pow_pos hB : 0 < B ^ h)
  rw [nextBlock]
  omega

theorem nextBlock_le_of_dvd {n : ℕ} (hB : 0 < B) (hd : B ^ h ∣ n) (hi : i < n) :
    nextBlock B h i ≤ n := by
  obtain ⟨k, rfl⟩ := hd
  rw [nextBlock_eq, mul_comm]
  exact Nat.mul_le_mul_left _ ((Nat.div_lt_iff_lt_mul (Nat.pow_pos hB)).2 (by rwa [mul_comm]))

/-- An index of the block has the same digits above it. -/
theorem div_eq_of_lt_nextBlock (hB : 0 < B) (hij : i ≤ j) (hj : j < nextBlock B h i) :
    j / B ^ h = i / B ^ h := by
  have hp : 0 < B ^ h := Nat.pow_pos hB
  rw [nextBlock_eq] at hj
  have hup := (Nat.div_lt_iff_lt_mul hp).2 hj
  have hl := Nat.div_le_div_right hij (c := B ^ h)
  omega

theorem nextBlock_mod : nextBlock B h i % B ^ h = 0 := by
  rw [nextBlock_eq, Nat.mul_mod_left]

theorem nextBlock_div (hB : 0 < B) (h i : ℕ) : nextBlock B h i / B ^ h = i / B ^ h + 1 := by
  rw [nextBlock_eq, Nat.mul_div_cancel _ (Nat.pow_pos hB)]

/-- A block of blocks: the next block is in the same one unless it was the last. -/
theorem nextBlock_succ_digit (hB : 0 < B) (hlt : digit B h i + 1 < B) :
    digit B h (nextBlock B h i) = digit B h i + 1 ∧
      nextBlock B h i / B ^ (h + 1) = i / B ^ (h + 1) := by
  have hd := nextBlock_div hB h i
  have hdm := Nat.div_add_mod (i / B ^ h) B
  rw [digit] at hlt
  have hsm : i / B ^ h + 1 = B * (i / B ^ h / B) + (i / B ^ h % B + 1) := by omega
  constructor
  · rw [digit, digit, hd, hsm, Nat.mul_add_mod, Nat.mod_eq_of_lt hlt]
  rw [pow_succ, ← Nat.div_div_eq_div_mul, ← Nat.div_div_eq_div_mul, hd, hsm, Nat.mul_add_div hB,
    Nat.div_eq_of_lt hlt, add_zero]

theorem nextBlock_le_succ (hB : 0 < B) (h i : ℕ) : nextBlock B h i ≤ nextBlock B (h + 1) i := by
  rw [nextBlock_eq, nextBlock_eq, pow_succ, ← Nat.div_div_eq_div_mul]
  have hlt := Nat.lt_div_mul_add (a := i / B ^ h) hB
  calc (i / B ^ h + 1) * B ^ h ≤ (i / B ^ h / B * B + B) * B ^ h := Nat.mul_le_mul_right _ hlt
    _ = (i / B ^ h / B + 1) * (B ^ h * B) := by ring

theorem div_pow_eq (B h i : ℕ) : i / B ^ h = i / B ^ (h + 1) * B + digit B h i := by
  rw [digit, pow_succ, ← Nat.div_div_eq_div_mul, Nat.div_add_mod']

theorem digit_le_digit (hij : i ≤ j) (hb : j / B ^ (h + 1) = i / B ^ (h + 1)) :
    digit B h i ≤ digit B h j := by
  have hd := Nat.div_le_div_right hij (c := B ^ h)
  rw [div_pow_eq B h i, div_pow_eq B h j, hb] at hd
  omega

/-- What agrees above some digits agrees above more of them. -/
theorem div_pow_eq_of_le {k : ℕ} (hk : h ≤ k) (heq : j / B ^ h = i / B ^ h) :
    j / B ^ k = i / B ^ k := by
  rw [← Nat.add_sub_of_le hk, pow_add, ← Nat.div_div_eq_div_mul, heq, Nat.div_div_eq_div_mul]

/-- The first index of the block that has `m` for the digit above `h` others. -/
def setDigit (B h i m : ℕ) : ℕ := (i / B ^ (h + 1) * B + m) * B ^ h

section SetDigit

variable {m : ℕ}

theorem setDigit_div (hB : 0 < B) : setDigit B h i m / B ^ h = i / B ^ (h + 1) * B + m :=
  Nat.mul_div_cancel _ (Nat.pow_pos hB)

theorem setDigit_div_succ (hm : m < B) : setDigit B h i m / B ^ (h + 1) = i / B ^ (h + 1) := by
  have hB : 0 < B := by omega
  rw [pow_succ, ← Nat.div_div_eq_div_mul, setDigit_div hB, pow_succ, mul_comm, Nat.mul_add_div hB,
    Nat.div_eq_of_lt hm, add_zero]

theorem digit_setDigit (hm : m < B) : digit B h (setDigit B h i m) = m := by
  rw [digit, setDigit_div (by omega), mul_comm, Nat.mul_add_mod, Nat.mod_eq_of_lt hm]

theorem lt_setDigit (hB : 0 < B) (hm : digit B h i < m) : i < setDigit B h i m := by
  have hp : 0 < B ^ h := Nat.pow_pos hB
  rw [setDigit, ← Nat.div_lt_iff_lt_mul hp, div_pow_eq B h i]
  omega

/-- Digits above do not matter. -/
theorem setDigit_mul_add {n : ℕ} (hB : 0 < B) (hn : h < n) (c : ℕ) :
    digit B h (c * B ^ n + i) = digit B h i ∧
      setDigit B h (c * B ^ n + i) m = c * B ^ n + setDigit B h i m := by
  obtain ⟨k, hk⟩ := pow_dvd_pow B hn
  have hp : B ^ (h + 1) = B ^ h * B := pow_succ B h
  have hdiv : (c * B ^ n + i) / B ^ (h + 1) = c * k + i / B ^ (h + 1) := by
    rw [hk, mul_left_comm, Nat.mul_add_div (Nat.pow_pos hB)]
  constructor
  · rw [digit, hk, hp, mul_assoc, mul_left_comm, Nat.mul_add_div (Nat.pow_pos hB), mul_left_comm,
      Nat.mul_add_mod, digit]
  · rw [setDigit, hdiv, setDigit, hk, hp]
    ring

/-- The indices before it have smaller digits. -/
theorem digit_lt_of_lt_setDigit (hB : 0 < B) (hm : m < B) (hij : i ≤ j)
    (hj : j < setDigit B h i m) : j / B ^ (h + 1) = i / B ^ (h + 1) ∧ digit B h j < m := by
  have hp : 0 < B ^ h := Nat.pow_pos hB
  rw [setDigit, ← Nat.div_lt_iff_lt_mul hp, div_pow_eq B h j] at hj
  have hle := Nat.div_le_div_right hij (c := B ^ (h + 1))
  have hup : j / B ^ (h + 1) * B < (i / B ^ (h + 1) + 1) * B := by
    rw [add_mul]
    omega
  have hlt := lt_of_mul_lt_mul_right hup
  have heq : j / B ^ (h + 1) = i / B ^ (h + 1) := by omega
  rw [heq] at hj
  exact ⟨heq, by omega⟩

end SetDigit

/-! ## Digits of some bits each -/

section Bits

variable (w : ℕ)

theorem one_shiftLeft_mul (h : ℕ) : 1 <<< (w * h) = (2 ^ w) ^ h := by
  rw [Nat.one_shiftLeft, pow_mul]

theorem shiftRight_mul (h i : ℕ) : i >>> (w * h) = i / (2 ^ w) ^ h := by
  rw [Nat.shiftRight_eq_div_pow, pow_mul]

/-- With the bits of a block set, the next index is the first after it. -/
theorem or_add_one_eq_nextBlock (h i : ℕ) :
    (i ||| (1 <<< (w * h) - 1)) + 1 = nextBlock (2 ^ w) h i := by
  have hp : 0 < 2 ^ (w * h) := Nat.two_pow_pos _
  have hor : i ||| (2 ^ (w * h) - 1) = 2 ^ (w * h) * (i / 2 ^ (w * h)) + (2 ^ (w * h) - 1) := by
    apply Nat.eq_of_testBit_eq
    intro k
    rw [Nat.testBit_two_pow_mul_add _ (by omega), Nat.testBit_div_two_pow]
    by_cases hk : k < w * h
    · simp [hk]
    · simp [hk, Nat.sub_add_cancel (by omega : w * h ≤ k)]
  rw [Nat.one_shiftLeft, nextBlock_eq, ← pow_mul, add_mul, mul_comm (i / _)]
  omega

/-- A digit is taken out and another one put in. -/
theorem xor_digit_eq_setDigit {m : ℕ} (h i : ℕ) (hm : m < 2 ^ w) :
    ((i >>> (w * h)) ^^^ digit (2 ^ w) h i ^^^ m) <<< (w * h) = setDigit (2 ^ w) h i m := by
  rw [shiftRight_mul, digit, setDigit, Nat.shiftLeft_eq, pow_mul, pow_succ,
    ← Nat.div_div_eq_div_mul]
  congr 1
  rw [mul_comm]
  apply Nat.eq_of_testBit_eq
  intro k
  rw [Nat.testBit_two_pow_mul_add _ hm, Nat.testBit_xor, Nat.testBit_xor, Nat.testBit_div_two_pow]
  by_cases hk : k < w
  · simp [hk]
  have hmk : m.testBit k = false :=
    Nat.testBit_lt_two_pow (lt_of_lt_of_le hm (Nat.pow_le_pow_right (by decide) (by omega)))
  simp [hk, hmk, Nat.sub_add_cancel (by omega : w ≤ k)]

end Bits

end NestLinux.Lib
