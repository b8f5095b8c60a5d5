import Mathlib.FieldTheory.Separable
import Mathlib.RingTheory.PowerSeries.Derivative

/-!
# Newton's identities for binary locator polynomials

Over a field of characteristic two, let `S` be the generating series of a sequence of
syndromes. A polynomial `f` satisfies Newton's identities for `S` up to an index when
`newton S f = S f + z f'` vanishes up to that index. This is the key equation of a
binary decoder: the locator of the error set satisfies it everywhere, and the
Berlekamp–Massey iteration builds polynomials that satisfy it further and further.

The series of a binary word satisfies `S (2j) = S (j) ^ 2`, which as a differential
equation reads `z S' = S + S ^ 2`. From it `newton_even` shows that the coefficient of
`newton S f` at an even index is determined by the ones before it, so only odd indices
have to be examined.
-/

namespace NestLinux.Lib

open PowerSeries Finset

variable {K : Type*} [Field K] {A : Finset K} {a : K} {k : ℕ} {f g : Polynomial K}

/-- The defect of Newton's identities of `f` for the syndrome series `S`. -/
noncomputable def newton (S f : K⟦X⟧) : K⟦X⟧ := S * f + X * d⁄dX K f

theorem newton_add (S f g : K⟦X⟧) : newton S (f + g) = newton S f + newton S g := by
  simp only [newton, map_add]
  ring

theorem newton_C_mul (S f : K⟦X⟧) (c : K) : newton S (C c * f) = C c * newton S f := by
  simp only [newton, Derivation.leibniz, derivative_C]
  ring

theorem newton_mul (S f g : K⟦X⟧) : newton S (f * g) = newton S f * g + f * (X * d⁄dX K g) := by
  simp only [newton, Derivation.leibniz]
  ring

theorem coeff_newton (S f : K⟦X⟧) (n : ℕ) :
    coeff n (newton S f) = coeff n (S * f) + n * coeff n f := by
  rw [newton, map_add]
  cases n with
  | zero => simp
  | succ n =>
    rw [coeff_succ_X_mul, coeff_derivative]
    push_cast
    ring

/-! ## The locator of a finite set -/

/-- The locator polynomial: its roots are the inverses of the elements of `A`. -/
noncomputable def locator (A : Finset K) : Polynomial K :=
  ∏ a ∈ A, (1 + Polynomial.C a * Polynomial.X)

/-- The power sums of the elements of `A`, as a series without constant term. -/
noncomputable def powerSums (A : Finset K) : K⟦X⟧ :=
  mk fun j => if j = 0 then 0 else ∑ a ∈ A, a ^ j

theorem coeff_powerSums {j : ℕ} (hj : j ≠ 0) : coeff j (powerSums A) = ∑ a ∈ A, a ^ j := by
  rw [powerSums, coeff_mk, if_neg hj]

theorem coeff_zero_powerSums : coeff 0 (powerSums A) = 0 := by
  rw [powerSums, coeff_mk, if_pos rfl]

theorem powerSums_insert [DecidableEq K] (ha : a ∉ A) :
    powerSums (insert a A) = powerSums {a} + powerSums A := by
  ext j
  rw [map_add]
  rcases eq_or_ne j 0 with rfl | hj
  · rw [coeff_zero_powerSums, coeff_zero_powerSums, coeff_zero_powerSums, add_zero]
  rw [coeff_powerSums hj, coeff_powerSums hj, coeff_powerSums hj, sum_insert ha, sum_singleton]

theorem locator_insert [DecidableEq K] (ha : a ∉ A) :
    locator (insert a A) = (1 + Polynomial.C a * Polynomial.X) * locator A := by
  rw [locator, prod_insert ha, locator]

theorem locator_coeff_zero (A : Finset K) : (locator A).coeff 0 = 1 := by
  rw [locator, Polynomial.coeff_zero_prod]
  exact prod_eq_one fun a _ => by simp

private theorem factor_natDegree (ha : a ≠ 0) :
    (1 + Polynomial.C a * Polynomial.X : Polynomial K).natDegree = 1 := by
  rw [add_comm]
  exact Polynomial.natDegree_linear ha

theorem locator_natDegree (h0 : (0 : K) ∉ A) : (locator A).natDegree = A.card := by
  have hne : ∀ a ∈ A, a ≠ 0 := fun a ha h => h0 (h ▸ ha)
  rw [locator, Polynomial.natDegree_prod]
  · rw [sum_congr rfl fun a ha => factor_natDegree (hne a ha)]
    simp
  intro a ha h
  have := factor_natDegree (hne a ha)
  rw [h] at this
  simp at this

theorem locator_separable (h0 : (0 : K) ∉ A) : (locator A).Separable := by
  have hne : ∀ a ∈ A, a ≠ 0 := fun a ha h => h0 (h ▸ ha)
  refine Polynomial.separable_prod' ?_ ?_
  · intro a ha b hb hab
    -- `b (1 + a z) - a (1 + b z)` is the constant `b - a`
    refine ⟨Polynomial.C (b * (b - a)⁻¹), Polynomial.C (-a * (b - a)⁻¹), ?_⟩
    have hba : b - a ≠ 0 := sub_ne_zero.2 hab.symm
    have ho : b * (b - a)⁻¹ + -a * (b - a)⁻¹ = 1 := by
      rw [← add_mul, ← sub_eq_add_neg, mul_inv_cancel₀ hba]
    calc _ = Polynomial.C (b * (b - a)⁻¹ + -a * (b - a)⁻¹)
          + Polynomial.C (b * (b - a)⁻¹ * a + -a * (b - a)⁻¹ * b) * Polynomial.X := by
            simp only [map_add, map_mul]
            ring
      _ = 1 := by
            have hlin : b * (b - a)⁻¹ * a + -a * (b - a)⁻¹ * b = 0 := by ring
            rw [ho, hlin]
            simp
  · intro a ha
    refine ⟨0, Polynomial.C a⁻¹, ?_⟩
    have hder : Polynomial.derivative (1 + Polynomial.C a * Polynomial.X) = Polynomial.C a := by
      simp
    rw [hder, zero_mul, zero_add, ← map_mul, inv_mul_cancel₀ (hne a ha), map_one]

theorem eval_locator_eq_zero (x : K) : (locator A).eval x = 0 ↔ ∃ a ∈ A, 1 + a * x = 0 := by
  rw [locator, Polynomial.eval_prod, prod_eq_zero_iff]
  simp

section CharTwo

variable [CharP K 2]

private theorem two_eq_zero_series : (2 : K⟦X⟧) = 0 := by
  have h : (2 : K) = 0 := CharTwo.two_eq_zero
  calc (2 : K⟦X⟧) = C 2 := by rw [map_ofNat]
    _ = 0 := by rw [h, map_zero]

private theorem add_self_series (f : K⟦X⟧) : f + f = 0 := by
  rw [← two_mul, two_eq_zero_series, zero_mul]

/-- The second derivative vanishes in characteristic two. -/
theorem derivative_derivative (f : K⟦X⟧) : d⁄dX K (d⁄dX K f) = 0 := by
  ext n
  rw [coeff_derivative, coeff_derivative, map_zero]
  have h : (((n + 1) * (n + 2) : ℕ) : K) = 0 := by
    rw [CharP.cast_eq_zero_iff K 2]
    exact (Nat.even_mul_succ_self (n + 1)).two_dvd
  push_cast at h ⊢
  linear_combination (coeff (n + 1 + 1) f) * h

/-- Multiplication by the square of the indeterminate commutes with `newton`. -/
theorem newton_X_sq_mul (S f : K⟦X⟧) : newton S (X ^ 2 * f) = X ^ 2 * newton S f := by
  have h : d⁄dX K (X ^ 2 : K⟦X⟧) = 0 := by
    rw [derivative_pow]
    push_cast
    rw [two_eq_zero_series]
    ring
  rw [mul_comm, newton_mul, h]
  ring

/-- The differential form of `S (2j) = S (j) ^ 2`. -/
def IsFrobenius (S : K⟦X⟧) : Prop := X * d⁄dX K S = S + S ^ 2

/-- The coefficients of a square in characteristic two. -/
theorem coeff_sq (f : K⟦X⟧) (n : ℕ) :
    coeff n (f ^ 2) = if Even n then coeff (n / 2) f ^ 2 else 0 := by
  have htr : coeff n (f ^ 2) = ((trunc (n + 1) f) ^ 2).coeff n := by
    rw [sq, sq, coeff_mul_eq_coeff_trunc_mul_trunc f f (Nat.lt_succ_self n)]
    rw [← Polynomial.coe_mul, Polynomial.coeff_coe]
  have hexp := (Polynomial.map_frobenius_expand (p := 2) (f := trunc (n + 1) f)).symm
  rw [htr, hexp, Polynomial.coeff_map, Polynomial.coeff_expand (by norm_num)]
  by_cases hn : Even n
  · rw [if_pos hn.two_dvd, if_pos hn, frobenius_def, coeff_trunc, if_pos (by omega)]
  · rw [if_neg (fun h => hn (even_iff_two_dvd.2 h)), if_neg hn, map_zero]

theorem isFrobenius_of_coeff {S : K⟦X⟧}
    (h : ∀ j, coeff (2 * j) S = coeff j S ^ 2) : IsFrobenius S := by
  ext n
  rw [map_add, coeff_sq]
  have hX : coeff n (X * d⁄dX K S) = n * coeff n S := by
    have := coeff_newton 0 S n
    simpa [newton] using this
  rw [hX]
  by_cases hn : Even n
  · obtain ⟨j, rfl⟩ := hn
    rw [← two_mul, if_pos (by simp), Nat.mul_div_cancel_left j (by norm_num), ← h j,
      CharTwo.add_self_eq_zero]
    push_cast
    rw [CharTwo.two_eq_zero]
    ring
  · rw [if_neg hn]
    obtain ⟨j, rfl⟩ := Nat.not_even_iff_odd.1 hn
    push_cast
    rw [CharTwo.two_eq_zero]
    ring

/-- The even part of the defect is the defect times the syndromes. -/
theorem newton_even {S : K⟦X⟧} (hS : IsFrobenius S) (f : K⟦X⟧) :
    newton S f + X * d⁄dX K (newton S f) = S * newton S f := by
  have hd : d⁄dX K (newton S f) = d⁄dX K S * f + S * d⁄dX K f + d⁄dX K f := by
    simp only [newton, map_add, Derivation.leibniz, derivative_X, derivative_derivative]
    ring
  have hS' : X * d⁄dX K S = S + S ^ 2 := hS
  have h2 := add_self_series (S * f + X * d⁄dX K f)
  rw [hd, newton]
  linear_combination f * hS' + h2

/-- If the defect vanishes up to an odd index, it vanishes at the next one too. -/
theorem coeff_newton_succ_of_odd {S : K⟦X⟧} (hS : IsFrobenius S) (hS0 : coeff 0 S = 0) {f : K⟦X⟧}
    (h : ∀ j ≤ 2 * k + 1, coeff j (newton S f) = 0) : coeff (2 * k + 2) (newton S f) = 0 := by
  have heq := congrArg (coeff (2 * k + 2)) (newton_even hS f)
  have hX : coeff (2 * k + 2) (X * d⁄dX K (newton S f)) = 0 := by
    have := coeff_newton 0 (newton S f) (2 * k + 2)
    rw [newton, zero_mul, map_zero, zero_add] at this
    rw [this]
    push_cast
    rw [(CharTwo.two_eq_zero : (2 : K) = 0)]
    ring
  have hz : coeff (2 * k + 2) (S * newton S f) = 0 := by
    rw [coeff_mul]
    refine sum_eq_zero fun p hp => ?_
    have hsm := Finset.HasAntidiagonal.mem_antidiagonal.1 hp
    rcases Nat.eq_zero_or_pos p.1 with h1 | h1
    · rw [h1, hS0, zero_mul]
    · rw [h p.2 (by omega), mul_zero]
  rwa [map_add, hX, add_zero, hz] at heq

/-! ## Two solutions of the key equation -/

/-- The defects of two series combine to the derivative of their product. -/
theorem newton_cross (S f g : K⟦X⟧) : f * newton S g + g * newton S f = X * d⁄dX K (f * g) := by
  have h2 := add_self_series (S * f * g)
  simp only [newton, Derivation.leibniz]
  linear_combination h2

/-- A solution up to `2 * k + 1` and a polynomial that first fails there have large
degree together: Massey's bound on the length of a shift register. -/
theorem le_natDegree_add {S : K⟦X⟧} (hf0 : f.coeff 0 = 1)
    (hf : ∀ j ≤ 2 * k + 1, coeff j (newton S f) = 0) (hg : ∀ j ≤ 2 * k, coeff j (newton S g) = 0)
    (hd : coeff (2 * k + 1) (newton S g) ≠ 0) : 2 * k + 1 ≤ f.natDegree + g.natDegree := by
  have hcrs := congrArg (coeff (2 * k + 1)) (newton_cross S f g)
  have hlf : coeff (2 * k + 1) ((f : K⟦X⟧) * newton S g) = coeff (2 * k + 1) (newton S g) := by
    rw [coeff_mul, sum_eq_single (0, 2 * k + 1)]
    · rw [Polynomial.coeff_coe, hf0, one_mul]
    · rintro ⟨i, j⟩ hp hne
      have hsm := Finset.HasAntidiagonal.mem_antidiagonal.1 hp
      have hj : j ≤ 2 * k := by
        rcases Nat.eq_zero_or_pos i with rfl | hi
        · exact absurd (by simp at hsm; rw [hsm]) hne
        · simp at hsm; omega
      rw [hg j hj, mul_zero]
    · intro hp
      exact absurd (Finset.HasAntidiagonal.mem_antidiagonal.2 (by simp)) hp
  have hrt : coeff (2 * k + 1) ((g : K⟦X⟧) * newton S f) = 0 := by
    rw [coeff_mul]
    refine sum_eq_zero fun p hp => ?_
    have hsm := Finset.HasAntidiagonal.mem_antidiagonal.1 hp
    rw [hf p.2 (by omega), mul_zero]
  have hpr : coeff (2 * k + 1) (X * d⁄dX K ((f : K⟦X⟧) * g)) = (f * g).coeff (2 * k + 1) := by
    rw [← Polynomial.coe_mul, derivative_coe, coeff_succ_X_mul, Polynomial.coeff_coe,
      Polynomial.coeff_derivative]
    push_cast
    rw [(CharTwo.two_eq_zero : (2 : K) = 0)]
    ring
  rw [map_add, hlf, hrt, add_zero, hpr] at hcrs
  have hne : (f * g).coeff (2 * k + 1) ≠ 0 := by rw [← hcrs]; exact hd
  exact le_trans (Polynomial.le_natDegree_of_ne_zero hne) Polynomial.natDegree_mul_le

/-- Two solutions whose degrees stay below the index they are solutions up to: the
separable one divides the other. -/
theorem dvd_of_newton {S : K⟦X⟧} {t : ℕ} (hsep : f.Separable)
    (hf : ∀ j ≤ 2 * t, coeff j (newton S f) = 0) (hg : ∀ j ≤ 2 * t, coeff j (newton S g) = 0)
    (hdeg : f.natDegree + g.natDegree ≤ 2 * t) : f ∣ g := by
  have hder : Polynomial.derivative (f * g) = 0 := by
    ext n
    rw [Polynomial.coeff_zero]
    have hcf : (Polynomial.derivative (f * g)).coeff n
        = coeff (n + 1) (X * d⁄dX K ((f : K⟦X⟧) * g)) := by
      rw [← Polynomial.coe_mul, derivative_coe, coeff_succ_X_mul, Polynomial.coeff_coe]
    by_cases hn : n + 1 ≤ 2 * t
    · rw [hcf, ← newton_cross S, map_add, coeff_mul, coeff_mul]
      rw [sum_eq_zero, sum_eq_zero, add_zero]
      · intro p hp
        have hsm := Finset.HasAntidiagonal.mem_antidiagonal.1 hp
        rw [hf p.2 (by omega), mul_zero]
      intro p hp
      have hsm := Finset.HasAntidiagonal.mem_antidiagonal.1 hp
      rw [hg p.2 (by omega), mul_zero]
    · rw [Polynomial.coeff_derivative, Polynomial.coeff_eq_zero_of_natDegree_lt, zero_mul]
      exact lt_of_le_of_lt (le_trans Polynomial.natDegree_mul_le hdeg) (by omega)
  have hd : f ∣ Polynomial.derivative f * g := by
    rw [Polynomial.derivative_mul] at hder
    exact (dvd_add_left (dvd_mul_right f _)).1 (hder ▸ dvd_zero f)
  exact (IsCoprime.dvd_of_dvd_mul_left hsep hd)

/-! ## Newton's identities -/

private theorem powerSums_singleton_mul (a : K) : powerSums {a} * (1 + C a * X) = C a * X := by
  ext n
  rw [mul_add, mul_one, map_add, ← mul_assoc, mul_comm (powerSums {a}) (C a), mul_assoc,
    coeff_C_mul, coeff_C_mul]
  rcases n with - | n
  · rw [coeff_zero_powerSums]
    simp
  rw [coeff_succ_mul_X, coeff_powerSums (Nat.succ_ne_zero n), sum_singleton]
  rcases n with - | n
  · rw [coeff_zero_powerSums]
    simp
  rw [coeff_powerSums (Nat.succ_ne_zero n), sum_singleton, coeff_X, if_neg (by omega), mul_zero,
    pow_succ' a (n + 1), CharTwo.add_self_eq_zero]

/-- **Newton's identities**: the locator of a set has no defect for its power sums. -/
theorem newton_locator : newton (powerSums A) (locator A) = 0 := by
  classical
  induction A using Finset.induction_on with
  | empty =>
    have hS : powerSums (∅ : Finset K) = 0 := by
      ext n
      simp [powerSums]
    have ho : ((locator (∅ : Finset K) : Polynomial K) : K⟦X⟧) = 1 := by simp [locator]
    rw [newton, hS, ho]
    simp
  | insert a A ha ih =>
    have hfac : ((locator (insert a A) : Polynomial K) : K⟦X⟧)
        = (1 + C a * X) * (locator A : K⟦X⟧) := by
      rw [locator_insert ha]
      simp
    have h1 := powerSums_singleton_mul a
    have h2 := add_self_series (C a * (X : K⟦X⟧))
    have hd : d⁄dX K (1 + C a * X : K⟦X⟧) = C a := by simp
    simp only [newton] at ih ⊢
    rw [hfac, powerSums_insert ha, Derivation.leibniz, hd]
    linear_combination (1 + C a * X) * ih + (locator A : K⟦X⟧) * h1 + (locator A : K⟦X⟧) * h2

end CharTwo

end NestLinux.Lib
