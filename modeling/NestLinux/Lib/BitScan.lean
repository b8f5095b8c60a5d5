import Mathlib.Data.List.Basic

/-!
# Scans of a bitmap

A bitmap is a function to `Bool`, of which the first `size` bits count. The kernel's
`find_next_zero_bit` looks for a bit that is clear, from some offset on.
-/

namespace NestLinux.Lib

/-- The first clear bit from `offset` on, or `size` if there is none. -/
def nextZero (bits : ℕ → Bool) (size offset : ℕ) : ℕ :=
  ((List.range' offset (size - offset)).find? fun i => !bits i).getD size

def allOnes (bits : ℕ → Bool) (size : ℕ) : Bool := (List.range size).all bits

variable {bits : ℕ → Bool} {size offset i : ℕ}

theorem allOnes_iff : allOnes bits size = true ↔ ∀ i < size, bits i = true := by
  simp [allOnes]

/-- The scan ends behind the bitmap, or at a clear bit from the offset on. -/
theorem nextZero_cases (bits : ℕ → Bool) (size offset : ℕ) : nextZero bits size offset = size ∨
      (nextZero bits size offset < size ∧ offset ≤ nextZero bits size offset ∧
        bits (nextZero bits size offset) = false) := by
  rw [nextZero]
  cases hfi : (List.range' offset (size - offset)).find? fun i => !bits i with
  | none => exact .inl rfl
  | some m =>
    have hm := List.mem_range'_1.1 (List.mem_of_find?_eq_some hfi)
    have hb := List.find?_some hfi
    refine .inr ⟨by simp only [Option.getD_some]; omega, hm.1, ?_⟩
    simpa using hb

theorem getBit_of_lt_nextZero (hl : offset ≤ i) (hi : i < nextZero bits size offset)
    (hsz : i < size) : bits i = true := by
  rw [nextZero] at hi
  cases hfi : (List.range' offset (size - offset)).find? fun i => !bits i with
  | none => simpa using List.find?_range'_eq_none.1 hfi i hl (by omega)
  | some m =>
    rw [hfi] at hi
    simpa using (List.find?_range'_eq_some.1 hfi).2.2 i hl hi

end NestLinux.Lib
