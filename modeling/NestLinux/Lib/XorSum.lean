import NestLinux.Lib.Loops

/-!
# Exclusive-or sums

`xorSum n f` is the exclusive or of `f 0`, …, `f (n-1)`: what a loop that accumulates
parities computes. It is additive in `f`, so the effect of changing the input is the
sum over the change alone.
-/

namespace NestLinux.Lib

/-- `for (i = 0; i < n; i++) a ^= f i`. -/
def xorSum (n : ℕ) (f : ℕ → ℕ) : ℕ := forRange n (fun i a => a ^^^ f i) 0

@[simp] theorem xorSum_zero (f : ℕ → ℕ) : xorSum 0 f = 0 := rfl

theorem xorSum_succ (n : ℕ) (f : ℕ → ℕ) : xorSum (n + 1) f = xorSum n f ^^^ f n := rfl

theorem xorSum_add (m n : ℕ) (f : ℕ → ℕ) :
    xorSum (m + n) f = xorSum m f ^^^ xorSum n fun i => f (m + i) := by
  induction n with
  | zero => rw [Nat.add_zero, xorSum_zero, Nat.xor_zero]
  | succ n ih => rw [Nat.add_succ, xorSum_succ, xorSum_succ, ih, Nat.xor_assoc]

theorem xorSum_xor (n : ℕ) (f g : ℕ → ℕ) :
    xorSum n (fun i => f i ^^^ g i) = xorSum n f ^^^ xorSum n g := by
  induction n with
  | zero => simp
  | succ n ih =>
    rw [xorSum_succ, xorSum_succ, xorSum_succ, ih]
    ac_rfl

theorem xorSum_eq_zero {n : ℕ} {f : ℕ → ℕ} (h : ∀ i < n, f i = 0) : xorSum n f = 0 := by
  induction n with
  | zero => rfl
  | succ n ih =>
    rw [xorSum_succ, ih fun i hi => h i (Nat.lt_succ_of_lt hi), h n (Nat.lt_succ_self n)]
    rfl

theorem xorSum_single {n k : ℕ} {f : ℕ → ℕ} (hk : k < n) (h : ∀ i, i ≠ k → f i = 0) :
    xorSum n f = f k := by
  induction n with
  | zero => omega
  | succ n ih =>
    rw [xorSum_succ]
    by_cases hn : k = n
    · subst hn
      rw [xorSum_eq_zero fun i hi => h i (Nat.ne_of_lt hi), Nat.zero_xor]
    · rw [ih (by omega), h n (Ne.symm hn), Nat.xor_zero]

end NestLinux.Lib
