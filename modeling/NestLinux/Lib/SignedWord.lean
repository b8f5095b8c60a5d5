import Mathlib.Algebra.Order.Ring.Int
import Mathlib.Data.BitVec

/-!
# Sums in signed words

A counter of `w` bits holds a sum of integers modulo `2 ^ w`. The signed reading of a word
gives the sum back where it lies in the signed range.
-/

namespace NestLinux.Lib

variable {w : ℕ} {m n : Int}

/-- The integer lies in the range of signed words of `w` bits. -/
def InWord (w : ℕ) (n : Int) : Prop := -2 ^ w ≤ 2 * n ∧ 2 * n < 2 ^ w

instance (w : ℕ) (n : Int) : Decidable (InWord w n) := inferInstanceAs (Decidable (_ ∧ _))

theorem toInt_ofInt_of_inWord (h : InWord w n) : (BitVec.ofInt w n).toInt = n := by
  have hcs : ((2 ^ w : ℕ) : Int) = 2 ^ w := by norm_cast
  rw [BitVec.toInt_ofInt]
  refine Int.bmod_eq_of_le_mul_two ?_ ?_
  · have := h.1
    omega
  have := h.2
  omega

/-- Integers in the range with one word are equal. -/
theorem eq_of_ofInt_eq (hm : InWord w m) (hn : InWord w n)
    (h : BitVec.ofInt w m = BitVec.ofInt w n) :
    m = n := by
  rw [← toInt_ofInt_of_inWord hm, ← toInt_ofInt_of_inWord hn, h]

/-- The word of a sum of signed words is their sum. -/
theorem ofInt_sum_toInt (l : List (BitVec w)) :
    BitVec.ofInt w (l.map BitVec.toInt).sum = l.sum := by
  induction l with
  | nil => simp
  | cons x l ih => rw [List.map_cons, List.sum_cons, BitVec.ofInt_add, ih, BitVec.ofInt_toInt,
      List.sum_cons]

end NestLinux.Lib
