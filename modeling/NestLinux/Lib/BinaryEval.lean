import Mathlib.Algebra.CharP.Two
import Mathlib.Algebra.Polynomial.Degree.Lemmas
import Mathlib.Data.Nat.Bitwise
import Mathlib.Data.Nat.Size

/-!
# Binary numerals as polynomials over a ring of characteristic two

A hardware or driver routine that computes in `GF(2)[x]` keeps a polynomial as the
bits of a machine word. `binEval a n` is the value of that polynomial at `a`: the
sum of the powers of `a` at the set bits of `n`. In characteristic two the exclusive
or of words is the sum of polynomials and a left shift is multiplication by the
indeterminate, so every bit-serial loop can be read as ring arithmetic.
-/

namespace NestLinux.Lib

open Polynomial Finset

variable {R : Type*} [CommRing R]

variable (a : R)

/-- The bits of `n`, read as the coefficients of a polynomial, evaluated at `a`. -/
def binEval (n : ℕ) : R :=
  ∑ i ∈ range n.size, if n.testBit i then a ^ i else 0

/-- Any range that covers the bits of `n` may be summed over. -/
theorem binEval_eq_sum_range {n w : ℕ} (h : n < 2 ^ w) :
    binEval a n = ∑ i ∈ range w, if n.testBit i then a ^ i else 0 := by
  have hw : n.size ≤ w := Nat.size_le.2 h
  refine sum_subset (range_subset_range.2 hw) ?_
  intro i _ hi
  have hlt : n < 2 ^ i := lt_of_lt_of_le (Nat.lt_size_self n)
    (Nat.pow_le_pow_right (by norm_num) (by simpa using hi))
  simp [Nat.testBit_lt_two_pow hlt]

@[simp] theorem binEval_zero : binEval a 0 = 0 := by simp [binEval]

@[simp] theorem binEval_one : binEval a 1 = 1 := by simp [binEval]

theorem binEval_two_pow (k : ℕ) : binEval a (2 ^ k) = a ^ k := by
  rw [binEval_eq_sum_range a (Nat.pow_lt_pow_right (by norm_num) (Nat.lt_succ_self k)),
    sum_range_succ, Nat.testBit_two_pow_self, if_pos rfl, sum_eq_zero, zero_add]
  intro i hi
  rw [Nat.testBit_two_pow_of_ne (mem_range.1 hi).ne', if_neg (by simp)]

/-- Doubling the word multiplies the polynomial by the indeterminate. -/
theorem binEval_two_mul (n : ℕ) : binEval a (2 * n) = a * binEval a n := by
  have hn : n < 2 ^ n.size := Nat.lt_size_self n
  have h2 : 2 * n < 2 ^ (n.size + 1) := by rw [pow_succ]; omega
  rw [binEval_eq_sum_range a h2, binEval_eq_sum_range a hn, sum_range_succ', mul_sum]
  rw [if_neg (by simp), add_zero]
  refine sum_congr rfl fun i _ => ?_
  rw [Nat.testBit_succ, Nat.mul_div_cancel_left n (by norm_num)]
  split <;> ring

/-- The low `w` bits and the high bits of a word are separate summands. -/
theorem binEval_split (n w : ℕ) :
    binEval a n = binEval a (n % 2 ^ w) + a ^ w * binEval a (n / 2 ^ w) := by
  have hn : n < 2 ^ (w + n.size) :=
    lt_of_lt_of_le (Nat.lt_size_self n) (Nat.pow_le_pow_right (by norm_num) (by omega))
  have hl : n % 2 ^ w < 2 ^ w := Nat.mod_lt _ (by positivity)
  have hhi : n / 2 ^ w < 2 ^ n.size :=
    lt_of_le_of_lt (Nat.div_le_self _ _) (Nat.lt_size_self n)
  rw [binEval_eq_sum_range a hn, binEval_eq_sum_range a hl, binEval_eq_sum_range a hhi,
    sum_range_add, mul_sum]
  congr 1
  · refine sum_congr rfl fun i hi => ?_
    simp [mem_range.1 hi]
  refine sum_congr rfl fun i _ => ?_
  rw [Nat.testBit_div_two_pow, add_comm i w]
  split
  · rw [pow_add]
  · rw [mul_zero]

/-- A ring homomorphism carries the evaluation along. -/
theorem map_binEval {S : Type*} [CommRing S] (f : R →+* S) (a : R) (n : ℕ) :
    f (binEval a n) = binEval (f a) n := by
  simp only [binEval, map_sum]
  refine sum_congr rfl fun i _ => ?_
  split <;> simp

/-! ## Characteristic two -/

section CharTwo

variable [CharP R 2]

/-- Exclusive or of words is addition of polynomials. -/
theorem binEval_xor (m n : ℕ) : binEval a (m ^^^ n) = binEval a m + binEval a n := by
  obtain ⟨w, hm, hn⟩ : ∃ w, m < 2 ^ w ∧ n < 2 ^ w := by
    refine ⟨max m.size n.size, ?_, ?_⟩
    · exact Nat.size_le.1 (le_max_left _ _)
    · exact Nat.size_le.1 (le_max_right _ _)
  rw [binEval_eq_sum_range a (Nat.xor_lt_two_pow hm hn), binEval_eq_sum_range a hm,
    binEval_eq_sum_range a hn, ← sum_add_distrib]
  refine sum_congr rfl fun i _ => ?_
  rw [Nat.testBit_xor]
  cases m.testBit i <;> cases n.testBit i <;> simp [CharTwo.add_self_eq_zero]

end CharTwo

/-! ## The indeterminate -/

/-- Evaluated at the indeterminate, the coefficients are the bits. -/
theorem coeff_binEval_X (n i : ℕ) :
    (binEval (X : R[X]) n).coeff i = if n.testBit i then 1 else 0 := by
  obtain ⟨w, hn, hi⟩ : ∃ w, n < 2 ^ w ∧ i < w := by
    refine ⟨n.size + i + 1, ?_, by omega⟩
    exact lt_of_lt_of_le (Nat.lt_size_self n) (Nat.pow_le_pow_right (by norm_num) (by omega))
  rw [binEval_eq_sum_range _ hn, finsetSum_coeff, sum_eq_single i]
  · split <;> simp
  · intro j _ hj
    split <;> simp [hj.symm]
  intro h
  exact absurd (mem_range.2 hi) h

theorem degree_binEval_X_lt {n w : ℕ} (h : n < 2 ^ w) : (binEval (X : R[X]) n).degree < w := by
  rw [degree_lt_iff_coeff_zero]
  intro i hi
  have hlt : n < 2 ^ i := lt_of_lt_of_le h (Nat.pow_le_pow_right (by norm_num) hi)
  rw [coeff_binEval_X, Nat.testBit_lt_two_pow hlt, if_neg (by simp)]

/-- Distinct words are distinct polynomials. -/
theorem binEval_X_injective [Nontrivial R] : Function.Injective (binEval (X : R[X])) := by
  intro m n h
  refine Nat.eq_of_testBit_eq fun i => ?_
  have hc : (binEval (X : R[X]) m).coeff i = (binEval (X : R[X]) n).coeff i := by rw [h]
  rw [coeff_binEval_X, coeff_binEval_X] at hc
  cases hm : m.testBit i <;> cases hn : n.testBit i <;> simp_all

end NestLinux.Lib
