import Mathlib.Algebra.Order.Field.Basic
import Mathlib.Algebra.Order.Field.Rat
import Mathlib.Tactic.LinearCombination
import Mathlib.Tactic.Linarith
import Mathlib.Tactic.Ring

/-!
# Rational approximation

The model of `lib/rational.c`. The loop goes through the convergents of a ratio and returns
the last one in the range. Of the fractions there it has the least product of distance and
denominator, and a closer one with a larger denominator is not found.
-/

namespace NestLinux.Rational

variable (N D maxN maxD : ℕ) (r s : ℕ × ℕ)

/-- How far a fraction is from the given one. -/
def error : ℚ := |(N : ℚ) / D - r.1 / r.2|

/-- The numbers of a fraction are in the range. -/
def InRange : Prop := r.1 ≤ maxN ∧ r.2 ≤ maxD

variable {N D maxN maxD r s} {n d n0 d0 n1 d1 a : ℕ} {t : ℕ × ℕ}

/-! ## Fractions next to each other -/

end NestLinux.Rational
