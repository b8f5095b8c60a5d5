import Mathlib.Tactic.Ring

/-!
# A buffer of bytes

A buffer has a size, and a field of it is some bytes from an offset on, read and written as
a number with its lowest byte first. An access that is not inside of the buffer has no
result.
-/

namespace NestLinux.Lib

/-- Some bytes in memory. Those from `size` on are not part of the buffer. -/
structure Buffer where
  size : ℕ
  byte : ℕ → UInt8

namespace Buffer

variable {b b' : Buffer} {a k c l v : ℕ}

/-- The number in the `k` bytes from `a` on. -/
def get (b : Buffer) (a : ℕ) : ℕ → ℕ
  | 0 => 0
  | k + 1 => (b.byte a).toNat + 256 * b.get (a + 1) k

/-- The buffer with a number in the `k` bytes from `a` on. -/
def put (b : Buffer) (a k v : ℕ) : Buffer where
  size := b.size
  byte i := if a ≤ i ∧ i < a + k then UInt8.ofNat (v / 256 ^ (i - a)) else b.byte i

def load (b : Buffer) (a k : ℕ) : Option ℕ := if a + k ≤ b.size then some (b.get a k) else none

def store (b : Buffer) (a k v : ℕ) : Option Buffer :=
  if a + k ≤ b.size then some (b.put a k v) else none

@[simp] theorem put_size : (b.put a k v).size = b.size := rfl

theorem load_eq (h : a + k ≤ b.size) : b.load a k = some (b.get a k) := if_pos h

theorem store_eq (h : a + k ≤ b.size) : b.store a k v = some (b.put a k v) := if_pos h

theorem load_eq_none (h : b.size < a + k) : b.load a k = none := if_neg (Nat.not_le.2 h)

theorem put_byte_of_not_mem {i : ℕ} (h : ¬ (a ≤ i ∧ i < a + k)) :
    (b.put a k v).byte i = b.byte i := if_neg h

theorem get_lt (b : Buffer) (a k : ℕ) : b.get a k < 256 ^ k := by
  induction k generalizing a with
  | zero => exact Nat.one_pos
  | succ k ih =>
    have hby : (b.byte a).toNat < 256 := (b.byte a).toNat_lt
    have hrs := ih (a + 1)
    rw [get]
    omega

theorem get_congr (h : ∀ i, a ≤ i → i < a + k → b.byte i = b'.byte i) : b.get a k = b'.get a k := by
  induction k generalizing a with
  | zero => rfl
  | succ k ih =>
    rw [get, get, h a (le_refl a) (by omega)]
    rw [ih fun i h1 h2 => h i (by omega) (by omega)]

theorem get_put_of_disjoint (h : c + l ≤ a ∨ a + k ≤ c) : (b.put a k v).get c l = b.get c l := by
  refine get_congr ?_
  intro i h1 h2
  exact put_byte_of_not_mem (by omega)

/-- The number that was written, without the bytes below `j`. -/
theorem get_put_drop (b : Buffer) (a k v j : ℕ) (hj : j ≤ k) :
    (b.put a k v).get (a + j) (k - j) = v / 256 ^ j % 256 ^ (k - j) := by
  generalize hd : k - j = d
  induction d generalizing j with
  | zero => rw [get, Nat.pow_zero, Nat.mod_one]
  | succ d ih =>
    have hrs : (b.put a k v).get (a + j + 1) d = v / 256 ^ (j + 1) % 256 ^ d :=
      ih (j + 1) (by omega) (by omega)
    have hby : ((b.put a k v).byte (a + j)).toNat = v / 256 ^ j % 256 := by
      rw [put]
      simp only
      rw [if_pos (by omega), Nat.add_sub_cancel_left]
      rfl
    rw [get, hrs, hby, Nat.pow_succ, ← Nat.div_div_eq_div_mul, Nat.pow_succ, Nat.mul_comm (256 ^ d),
      Nat.mod_mul]

theorem get_put (hv : v < 256 ^ k) : (b.put a k v).get a k = v := by
  have hdp := get_put_drop b a k v 0 (Nat.zero_le k)
  rw [Nat.sub_zero, Nat.pow_zero, Nat.div_one, Nat.mod_eq_of_lt hv] at hdp
  exact hdp

theorem get_put_zero (h1 : a ≤ c) (h2 : c + l ≤ a + k) : (b.put a k 0).get c l = 0 := by
  induction l generalizing c with
  | zero => rfl
  | succ l ih =>
    have hby : (b.put a k 0).byte c = 0 := by
      rw [put]
      simp only
      rw [if_pos (by omega), Nat.zero_div]
      rfl
    rw [get, hby, ih (by omega) (by omega)]
    rfl

end Buffer

end NestLinux.Lib
