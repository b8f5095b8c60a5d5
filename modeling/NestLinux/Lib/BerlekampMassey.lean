import NestLinux.Lib.KeyEquation

/-!
# The binary Berlekamp–Massey iteration

The textbook iteration over a field of characteristic two, two syndromes a step. It
keeps a polynomial `sigma` that satisfies Newton's identities so far, a correction
polynomial `D` whose defect sits exactly at the next odd index, and the length `L` of
the shift register. When the discrepancy is nonzero, `sigma` is corrected by `D`; the
correction polynomial is replaced only when the length grows.

`bm_sigma_eq` is the correctness of the iteration: after `t` steps on the syndromes
of at most `t` locators the polynomial is their locator polynomial.
-/

namespace NestLinux.Lib

open PowerSeries

variable {K : Type*} [Field K]

/-- The registers of the iteration. -/
structure BmPoly (K : Type*) [Field K] where
  sigma : Polynomial K
  D : Polynomial K
  L : ℕ

/-- The discrepancy of step `k`. -/
noncomputable def bmDisc (S : K⟦X⟧) (k : ℕ) (s : BmPoly K) : K :=
  coeff (2 * k + 1) (S * (s.sigma : K⟦X⟧))

open Classical in
/-- One step. The length grows exactly when the discrepancy is nonzero and
`2 * L < 2 * k + 1`. -/
noncomputable def bmNext (S : K⟦X⟧) (k : ℕ) (s : BmPoly K) : BmPoly K :=
  if bmDisc S k s = 0 then
    ⟨s.sigma, Polynomial.X ^ 2 * s.D, s.L⟩
  else if 2 * s.L < 2 * k + 1 then
    ⟨s.sigma + Polynomial.C (bmDisc S k s) * s.D,
      Polynomial.X ^ 2 * (Polynomial.C (bmDisc S k s)⁻¹ * s.sigma), 2 * k + 1 - s.L⟩
  else
    ⟨s.sigma + Polynomial.C (bmDisc S k s) * s.D, Polynomial.X ^ 2 * s.D, s.L⟩

/-- The state before step `k`. -/
noncomputable def bm (S : K⟦X⟧) : ℕ → BmPoly K
  | 0 => ⟨1, Polynomial.X, 0⟩
  | k + 1 => bmNext S k (bm S k)

theorem bmNext_cases (S : K⟦X⟧) (k : ℕ) (s : BmPoly K) :
    (bmDisc S k s = 0 ∧ bmNext S k s = ⟨s.sigma, Polynomial.X ^ 2 * s.D, s.L⟩) ∨
    (bmDisc S k s ≠ 0 ∧ 2 * s.L < 2 * k + 1 ∧
      bmNext S k s = ⟨s.sigma + Polynomial.C (bmDisc S k s) * s.D,
        Polynomial.X ^ 2 * (Polynomial.C (bmDisc S k s)⁻¹ * s.sigma), 2 * k + 1 - s.L⟩) ∨
    (bmDisc S k s ≠ 0 ∧ ¬ 2 * s.L < 2 * k + 1 ∧
      bmNext S k s = ⟨s.sigma + Polynomial.C (bmDisc S k s) * s.D, Polynomial.X ^ 2 * s.D,
        s.L⟩) := by
  by_cases hd : bmDisc S k s = 0
  · exact .inl ⟨hd, by rw [bmNext, if_pos hd]⟩
  by_cases hL : 2 * s.L < 2 * k + 1
  · exact .inr (.inl ⟨hd, hL, by rw [bmNext, if_neg hd, if_pos hL]⟩)
  · exact .inr (.inr ⟨hd, hL, by rw [bmNext, if_neg hd, if_neg hL]⟩)

/-- The invariant before step `k`. -/
structure BmInv (S : K⟦X⟧) (k : ℕ) (s : BmPoly K) : Prop where
  sigma_zero : s.sigma.coeff 0 = 1
  D_zero : s.D.coeff 0 = 0
  newton_sigma : ∀ j ≤ 2 * k, coeff j (newton S s.sigma) = 0
  newton_D : ∀ j ≤ 2 * k, coeff j (newton S s.D) = 0
  newton_D_eq : coeff (2 * k + 1) (newton S s.D) = 1
  sigma_deg : s.sigma.natDegree ≤ s.L
  D_deg : s.D.natDegree + s.L ≤ 2 * k + 1
  L_le : s.L ≤ 2 * k

namespace BmInv

variable {S : K⟦X⟧} {k : ℕ} {s : BmPoly K}

/-- The discrepancy is the defect at the next odd index. -/
theorem disc_eq (h : BmInv S k s) : bmDisc S k s = coeff (2 * k + 1) (newton S s.sigma) := by
  have hdeg : s.sigma.coeff (2 * k + 1) = 0 :=
    Polynomial.coeff_eq_zero_of_natDegree_lt (by have := h.sigma_deg; have := h.L_le; omega)
  rw [coeff_newton, Polynomial.coeff_coe, hdeg, mul_zero, add_zero, bmDisc]

/-- The corrected polynomial has at most the degree of either summand. -/
theorem corrected_natDegree (h : BmInv S k s) (c : K) :
    (s.sigma + Polynomial.C c * s.D).natDegree ≤ max s.L (2 * k + 1 - s.L) := by
  refine le_trans (Polynomial.natDegree_add_le _ _) (max_le_max h.sigma_deg ?_)
  exact le_trans (Polynomial.natDegree_C_mul_le _ _) (by have := h.D_deg; omega)

private theorem coeff_newton_X_sq_mul [CharP K 2] (f : Polynomial K) (j : ℕ) :
    coeff j (newton S ((Polynomial.X ^ 2 * f : Polynomial K) : K⟦X⟧))
      = if 2 ≤ j then coeff (j - 2) (newton S f) else 0 := by
  have hcoe : ((Polynomial.X ^ 2 * f : Polynomial K) : K⟦X⟧) = X ^ 2 * (f : K⟦X⟧) := by simp
  rw [hcoe, newton_X_sq_mul, coeff_X_pow_mul']

section CharTwo

variable [CharP K 2] (hS : IsFrobenius S) (hS0 : coeff 0 S = 0)
include hS hS0

/-- Correcting by the discrepancy removes the defect at the next two indices. -/
theorem newton_corrected (h : BmInv S k s) : ∀ j ≤ 2 * (k + 1),
      coeff j (newton S ((s.sigma + Polynomial.C (bmDisc S k s) * s.D : Polynomial K) : K⟦X⟧))
        = 0 := by
  have hcoe : ((s.sigma + Polynomial.C (bmDisc S k s) * s.D : Polynomial K) : K⟦X⟧)
      = s.sigma + C (bmDisc S k s) * (s.D : K⟦X⟧) := by simp
  rw [hcoe]
  have hodd : ∀ j ≤ 2 * k + 1,
      coeff j (newton S (s.sigma + C (bmDisc S k s) * (s.D : K⟦X⟧))) = 0 := by
    intro j hj
    rw [newton_add, newton_C_mul, map_add, coeff_C_mul]
    rcases Nat.lt_or_ge (2 * k) j with hlt | hle
    · obtain rfl : j = 2 * k + 1 := by omega
      rw [h.newton_D_eq, mul_one, ← h.disc_eq, CharTwo.add_self_eq_zero]
    · rw [h.newton_sigma j hle, h.newton_D j hle, mul_zero, add_zero]
  intro j hj
  rcases Nat.lt_or_ge (2 * k + 1) j with hlt | hle
  · obtain rfl : j = 2 * k + 2 := by omega
    exact coeff_newton_succ_of_odd hS hS0 hodd
  · exact hodd j hle

theorem next (h : BmInv S k s) : BmInv S (k + 1) (bmNext S k s) := by
  have hDdeg := h.D_deg
  have hXD : (Polynomial.X ^ 2 * s.D).natDegree ≤ s.D.natDegree + 2 := by
    refine le_trans Polynomial.natDegree_mul_le ?_
    rw [Polynomial.natDegree_X_pow, Nat.add_comm]
  have hD : ∀ j ≤ 2 * (k + 1),
      coeff j (newton S ((Polynomial.X ^ 2 * s.D : Polynomial K) : K⟦X⟧)) = 0 := by
    intro j hj
    rw [coeff_newton_X_sq_mul]
    split
    · exact h.newton_D _ (by omega)
    · rfl
  have hD_eq :
      coeff (2 * (k + 1) + 1) (newton S ((Polynomial.X ^ 2 * s.D : Polynomial K) : K⟦X⟧)) = 1 := by
    rw [coeff_newton_X_sq_mul, ← h.newton_D_eq]
    congr 2
  have hz : (s.sigma + Polynomial.C (bmDisc S k s) * s.D).coeff 0 = 1 := by
    simp [h.sigma_zero, h.D_zero]
  obtain ⟨hd, heq⟩ | ⟨hd, hl, heq⟩ | ⟨hd, hl, heq⟩ := bmNext_cases S k s
  · rw [heq]
    refine ⟨h.sigma_zero, by simp, ?_, hD, hD_eq, h.sigma_deg, by simp only; omega,
      by simp only; omega⟩
    have hn := h.newton_corrected hS hS0
    rw [hd, map_zero, zero_mul, add_zero] at hn
    exact hn
  · rw [heq]
    refine ⟨hz, by simp, h.newton_corrected hS hS0, ?_, ?_, ?_, ?_, by simp only; omega⟩
    · intro j hj
      rw [coeff_newton_X_sq_mul, Polynomial.coe_mul, Polynomial.coe_C, newton_C_mul, coeff_C_mul]
      split
      · rw [h.newton_sigma _ (by omega), mul_zero]
      · rfl
    · rw [coeff_newton_X_sq_mul, if_pos (by omega), Polynomial.coe_mul, Polynomial.coe_C,
        newton_C_mul, coeff_C_mul]
      have hidx : 2 * (k + 1) + 1 - 2 = 2 * k + 1 := by omega
      rw [hidx, ← h.disc_eq, inv_mul_cancel₀ hd]
    · refine le_trans (h.corrected_natDegree _) ?_
      simp only
      omega
    have hdeg : (Polynomial.X ^ 2 * (Polynomial.C (bmDisc S k s)⁻¹ * s.sigma)).natDegree
        ≤ s.L + 2 := by
      refine le_trans Polynomial.natDegree_mul_le ?_
      rw [Polynomial.natDegree_X_pow, Nat.add_comm]
      exact Nat.add_le_add_right
        (le_trans (Polynomial.natDegree_C_mul_le _ _) h.sigma_deg) 2
    simp only
    omega
  · rw [heq]
    refine ⟨hz, by simp, h.newton_corrected hS hS0, hD, hD_eq, ?_, by simp only; omega,
      by simp only; omega⟩
    refine le_trans (h.corrected_natDegree _) ?_
    simp only
    omega

end CharTwo

end BmInv

section CharTwo

variable [CharP K 2] {S : K⟦X⟧}

omit [CharP K 2] in
theorem bmInv_zero (hS0 : coeff 0 S = 0) : BmInv S 0 (bm S 0) := by
  refine ⟨by simp [bm], by simp [bm], ?_, ?_, ?_, by simp [bm], by simp [bm], by simp [bm]⟩
  · intro j hj
    obtain rfl : j = 0 := by omega
    simpa [bm, newton] using hS0
  · intro j hj
    obtain rfl : j = 0 := by omega
    simp [bm, newton]
  rw [coeff_newton]
  have hS0' : constantCoeff S = 0 := by simpa using hS0
  simp [bm, hS0']

/-- Every state of the iteration has the invariant. -/
theorem bm_inv (hS : IsFrobenius S) (hS0 : coeff 0 S = 0) (k : ℕ) : BmInv S k (bm S k) := by
  induction k with
  | zero => exact bmInv_zero hS0
  | succ k ih => exact ih.next hS hS0

section Locator

variable (hS : IsFrobenius S) (hS0 : coeff 0 S = 0) {f : Polynomial K} {t : ℕ}
  (hf0 : f.coeff 0 = 1) (hf : ∀ j ≤ 2 * t, coeff j (newton S f) = 0)
include hS hS0 hf0 hf

/-- The length never exceeds the degree of a solution of the key equation. -/
theorem bm_L_le {k : ℕ} (hk : k ≤ t) : (bm S k).L ≤ f.natDegree := by
  induction k with
  | zero => exact Nat.zero_le _
  | succ k ih =>
    have hiv := bm_inv hS hS0 k
    have hpv := ih (by omega)
    rw [bm]
    obtain ⟨-, heq⟩ | ⟨hd, -, heq⟩ | ⟨-, -, heq⟩ := bmNext_cases S k (bm S k)
    · rw [heq]; exact hpv
    · rw [heq]
      have hbd := le_natDegree_add (k := k) hf0 (fun j hj => hf j (by omega))
        hiv.newton_sigma (by rw [← hiv.disc_eq]; exact hd)
      have := hiv.sigma_deg
      simp only
      omega
    · rw [heq]; exact hpv

theorem bm_sigma_eq (hsep : f.Separable) (hdeg : f.natDegree ≤ t) : (bm S t).sigma = f := by
  have hiv := bm_inv hS hS0 t
  have hL : (bm S t).L ≤ f.natDegree := bm_L_le hS hS0 hf0 hf le_rfl
  have hsg := hiv.sigma_deg
  obtain ⟨c, hc⟩ := dvd_of_newton hsep hf hiv.newton_sigma (by omega)
  have hne : (bm S t).sigma ≠ 0 := by
    intro h
    have := hiv.sigma_zero
    rw [h] at this
    simp at this
  have hcne : c ≠ 0 := by rintro rfl; exact hne (by rw [hc, mul_zero])
  have hfne : f ≠ 0 := by rintro rfl; simp at hf0
  have hcd : c.natDegree = 0 := by
    have := Polynomial.natDegree_mul hfne hcne
    rw [← hc] at this
    omega
  obtain ⟨a, rfl⟩ : ∃ a, c = Polynomial.C a := ⟨_, Polynomial.eq_C_of_natDegree_eq_zero hcd⟩
  have ha : a = 1 := by
    have hcf := hiv.sigma_zero
    rw [hc, mul_comm, Polynomial.coeff_C_mul, hf0, mul_one] at hcf
    exact hcf
  rw [hc, ha, map_one, mul_one]

theorem bm_L_eq (hsep : f.Separable) (hdeg : f.natDegree ≤ t) : (bm S t).L = f.natDegree := by
  have hiv := bm_inv hS hS0 t
  have hsg := hiv.sigma_deg
  rw [bm_sigma_eq hS hS0 hf0 hf hsep hdeg] at hsg
  exact le_antisymm (bm_L_le hS hS0 hf0 hf le_rfl) hsg

end Locator

end CharTwo

end NestLinux.Lib
