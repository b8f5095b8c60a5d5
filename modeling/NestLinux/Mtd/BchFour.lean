import NestLinux.Mtd.BchCorrect

/-!
# Correction of data errors

Which sets of data errors `decode_bch` corrects. Every clean run is correct, for four
and for eight errors. With four errors the condition is exact: what goes wrong is a set
of four errors whose syndromes are `S1 = 0` and `S5 ≠ 0`. There the length jumps to
three at once, the next correction does not grow it and leaves its own result in `D`,
and the last correction then multiplies the polynomial by a quadratic instead of adding
the missing term.
-/

namespace NestLinux.Mtd.Bch

open Lib Polynomial List

/-! ## The runs that are not clean -/

section Textbook

variable {K : Type*} [Field K] {S : PowerSeries K}

private theorem bmDisc_zero : bmDisc S 0 (bm S 0) = PowerSeries.coeff 1 S := by
  simp [bmDisc, bm]

private theorem bm_one_L_le : (bm S 1).L ≤ 1 := by
  rw [bm]
  obtain ⟨-, heq⟩ | ⟨-, -, heq⟩ | ⟨-, -, heq⟩ := bmNext_cases S 0 (bm S 0)
  · rw [heq]; simp [bm]
  · rw [heq]; simp
  · rw [heq]; simp [bm]

/-- Only a first syndrome of zero leaves room for a jump to length three. -/
private theorem coeff_one_of_length (h : 3 ≤ (bm S 2).L) :
    PowerSeries.coeff 1 S = 0 ∧ bmDisc S 1 (bm S 1) ≠ 0 := by
  rw [bm] at h
  have hL1 : PowerSeries.coeff 1 S ≠ 0 → (bm S 1).L = 1 := by
    intro hne
    rw [bm]
    obtain ⟨hd, -⟩ | ⟨-, -, heq⟩ | ⟨-, hl, -⟩ := bmNext_cases S 0 (bm S 0)
    · exact absurd (bmDisc_zero.symm.trans hd) hne
    · rw [heq]; simp [bm]
    · exact absurd (by simp [bm]) hl
  have hle := bm_one_L_le (S := S)
  obtain ⟨hd, heq⟩ | ⟨hd, hl, heq⟩ | ⟨hd, hl, heq⟩ := bmNext_cases S 1 (bm S 1)
  · rw [heq] at h
    simp only at h
    omega
  · rw [heq] at h
    simp only at h
    refine ⟨?_, hd⟩
    by_contra hne
    have := hL1 hne
    omega
  · rw [heq] at h
    omega

/-! The states of a run with `S1 = S2 = 0`. -/

section

variable (h1 : PowerSeries.coeff 1 S = 0)
include h1

private theorem bm_one : bm S 1 = ⟨1, X ^ 2 * X, 0⟩ := by
  obtain ⟨-, heq⟩ | ⟨hd, -⟩ | ⟨hd, -⟩ := bmNext_cases S 0 (bm S 0)
  · exact heq
  · exact absurd (bmDisc_zero.trans h1) hd
  · exact absurd (bmDisc_zero.trans h1) hd

private theorem bmDisc_one : bmDisc S 1 (bm S 1) = PowerSeries.coeff 3 S := by
  rw [bm_one h1]
  simp [bmDisc]

private theorem bm_two (h3 : PowerSeries.coeff 3 S ≠ 0) :
    bm S 2 = ⟨1 + C (PowerSeries.coeff 3 S) * (X ^ 2 * X),
      X ^ 2 * (C (PowerSeries.coeff 3 S)⁻¹ * 1), 3⟩ := by
  have hdi := bmDisc_one h1
  rw [bm]
  obtain ⟨hd, -⟩ | ⟨-, -, heq⟩ | ⟨-, hl, -⟩ := bmNext_cases S 1 (bm S 1)
  · exact absurd (hdi.symm.trans hd) h3
  · rw [heq, hdi]
    simp [bm_one h1]
  rw [bm_one h1] at hl
  exact absurd (by simp) hl

private theorem bmDisc_two_of_eq_zero (h3 : PowerSeries.coeff 3 S = 0) :
    (bm S 2).L = 0 ∧ bmDisc S 2 (bm S 2) = PowerSeries.coeff 5 S := by
  have hdi := bmDisc_one h1
  have heq : bm S 2 = ⟨1, X ^ 2 * (X ^ 2 * X), 0⟩ := by
    rw [bm]
    obtain ⟨-, heq⟩ | ⟨hd, -⟩ | ⟨hd, -⟩ := bmNext_cases S 1 (bm S 1)
    · rw [heq, bm_one h1]
    · exact absurd (hdi.trans h3) hd
    · exact absurd (hdi.trans h3) hd
  rw [heq]
  simp [bmDisc]

variable (h2 : PowerSeries.coeff 2 S = 0) (h3 : PowerSeries.coeff 3 S ≠ 0)
include h2 h3

private theorem bmDisc_two : bmDisc S 2 (bm S 2) = PowerSeries.coeff 5 S := by
  have hcoe : (((bm S 2).sigma : Polynomial K) : PowerSeries K)
      = 1 + PowerSeries.C (PowerSeries.coeff 3 S) * PowerSeries.X ^ 3 := by
    rw [bm_two h1 h3]
    simp [pow_succ]
  rw [bmDisc, hcoe, mul_add, map_add, mul_left_comm, PowerSeries.coeff_C_mul,
    PowerSeries.coeff_mul_X_pow', h2]
  simp

variable (h5 : PowerSeries.coeff 5 S ≠ 0)
include h5

private theorem bm_three : bm S 3 = ⟨(bm S 2).sigma + C (PowerSeries.coeff 5 S) * (bm S 2).D,
    X ^ 2 * (bm S 2).D, 3⟩ := by
  have hdi := bmDisc_two h1 h2 h3
  have hL : (bm S 2).L = 3 := by rw [bm_two h1 h3]
  rw [bm]
  obtain ⟨hd, -⟩ | ⟨-, hl, -⟩ | ⟨-, -, heq⟩ := bmNext_cases S 2 (bm S 2)
  · exact absurd (hdi.symm.trans hd) h5
  · omega
  · rw [heq, hdi, hL]

private theorem bm_four :
    (bmDisc S 3 (bm S 3) = 0 → (bm S 4).L = 3) ∧ (bmDisc S 3 (bm S 3) ≠ 0 → (bm S 4).L = 4) ∧
      (bm S 4).sigma = (bm S 3).sigma + C (bmDisc S 3 (bm S 3)) * (X ^ 2 * (bm S 2).D) := by
  have hthr := bm_three h1 h2 h3 h5
  have hL : (bm S 3).L = 3 := by rw [hthr]
  have hD : (bm S 3).D = X ^ 2 * (bm S 2).D := by rw [hthr]
  rw [show bm S 4 = bmNext S 3 (bm S 3) from rfl]
  obtain ⟨hd, heq⟩ | ⟨hd, hl, heq⟩ | ⟨hd, hl, heq⟩ := bmNext_cases S 3 (bm S 3)
  · rw [heq, hL, hd]
    exact ⟨fun _ => rfl, fun h => absurd rfl h, by simp⟩
  · rw [heq, hL, hD]
    exact ⟨fun h => absurd h hd, fun _ => rfl, rfl⟩
  · omega

end

private theorem clean_two : Clean S 2 := by
  intro k m hkm hm _ hkp
  obtain rfl : k = 0 := by omega
  exact absurd hkp (by simp [bm])

/-! The source's run with `S1 = S2 = 0` and `S5 ≠ 0`. -/

section

variable [CharP K 2] (hS : IsFrobenius S) (hS0 : PowerSeries.coeff 0 S = 0)
  (h1 : PowerSeries.coeff 1 S = 0)
include hS hS0 h1

private theorem elp_four : (elp S 4).sigma = (bm S 2).sigma ∧ (elp S 4).L = (bm S 2).L ∧
    (elp S 4).D = (bm S 2).D := by
  obtain ⟨hsg, hL, hD⟩ := elp_eq_bm hS hS0 clean_two (k := 2) le_rfl
  refine ⟨hsg, hL, ?_⟩
  rcases hD with hD | ⟨j, hj, -, hkp⟩
  · exact hD
  have h0 : (bm S 0).L = 0 := rfl
  have hL1 : (bm S 1).L = 0 := by rw [bm_one h1]
  rcases (by omega : j = 0 ∨ j = 1) with rfl | rfl <;> omega

variable (h2 : PowerSeries.coeff 2 S = 0) (h3 : PowerSeries.coeff 3 S ≠ 0)
  (h5 : PowerSeries.coeff 5 S ≠ 0)
include h2 h3 h5

/-- The fifth turn corrects without growing and leaves its result in `D`. -/
private theorem elp_five :
    elp S 5 = ⟨(bm S 3).sigma, X * (C (PowerSeries.coeff 5 S)⁻¹ * (bm S 3).sigma), 3⟩ := by
  obtain ⟨hsg, hL, hD⟩ := elp_four hS hS0 h1
  have hL2 : (bm S 2).L = 3 := by rw [bm_two h1 h3]
  have hdi : elpDisc S 4 (elp S 4) = PowerSeries.coeff 5 S :=
    (elpDisc_even hS hS0 (k := 2) hsg hL).trans (bmDisc_two h1 h2 h3)
  rw [show elp S 5 = elpNext S 4 (elp S 4) from rfl,
    elpNext_of_keep (by rw [hdi]; exact h5) (by omega), hdi, hsg, hD, hL, hL2,
    bm_three h1 h2 h3 h5]

private theorem elp_six : elp S 6
    = ⟨(bm S 3).sigma, X * (X * (C (PowerSeries.coeff 5 S)⁻¹ * (bm S 3).sigma)), 3⟩ := by
  have hfv := elp_five hS hS0 h1 h2 h3 h5
  have hL3 : (bm S 3).L = 3 := by rw [bm_three h1 h2 h3 h5]
  have hdi : elpDisc S 5 (elp S 5) = 0 :=
    elpDisc_odd hS hS0 (k := 2) (by rw [hfv]) (by rw [hfv, hL3])
  rw [show elp S 6 = elpNext S 5 (elp S 5) from rfl, elpNext_of_eq_zero hdi, hfv]

variable (hd3 : bmDisc S 3 (bm S 3) ≠ 0)
include hd3

/-- The seventh turn corrects with what the fifth has left. -/
private theorem elp_seven : elp S 7 = ⟨(bm S 3).sigma + C (bmDisc S 3 (bm S 3)) *
      (X * (X * (C (PowerSeries.coeff 5 S)⁻¹ * (bm S 3).sigma))),
    X * (C (bmDisc S 3 (bm S 3))⁻¹ * (bm S 3).sigma), 4⟩ := by
  have hsix := elp_six hS hS0 h1 h2 h3 h5
  have hL3 : (bm S 3).L = 3 := by rw [bm_three h1 h2 h3 h5]
  have hdi : elpDisc S 6 (elp S 6) = bmDisc S 3 (bm S 3) :=
    elpDisc_even hS hS0 (k := 3) (by rw [hsix]) (by rw [hsix, hL3])
  rw [show elp S 7 = elpNext S 6 (elp S 6) from rfl,
    elpNext_of_grow (by rw [hdi]; exact hd3) (by rw [hsix]; norm_num), hdi]
  simp [hsix]

private theorem elp_lengths : ∀ n < 8, (elp S n).L ≤ 4 := by
  intro n hn
  have hL2 : (bm S 2).L = 3 := by rw [bm_two h1 h3]
  have hL1 : (bm S 1).L = 0 := by rw [bm_one h1]
  have hfr := (elp_four hS hS0 h1).2.1
  have htwo : (elp S 2).L = (bm S 1).L :=
    (elp_eq_bm hS hS0 clean_two (k := 1) (by norm_num)).2.1
  have ho : (elp S 1).L = (bm S 1).L := (elp_clean_run hS hS0 clean_two (k := 0) (by norm_num)).1
  have hthr : (elp S 3).L = (bm S 2).L :=
    (elp_clean_run hS hS0 clean_two (k := 1) (by norm_num)).1
  have hfv := elp_five hS hS0 h1 h2 h3 h5
  have hsix := elp_six hS hS0 h1 h2 h3 h5
  have hsv := elp_seven hS hS0 h1 h2 h3 h5 hd3
  interval_cases n
  · simp [elp]
  · omega
  · omega
  · omega
  · omega
  · rw [hfv]; norm_num
  · rw [hsix]; norm_num
  · rw [hsv]

end

section Locator

variable [CharP K 2] (hS : IsFrobenius S) (hS0 : PowerSeries.coeff 0 S = 0)
  {f : K[X]} (hf0 : f.coeff 0 = 1) (hf : ∀ j ≤ 2 * 4, PowerSeries.coeff j (newton S f) = 0)
include hS hS0 hf0 hf

private theorem coeff_three_ne_zero (hdeg : f.natDegree ≤ 4) (h1 : PowerSeries.coeff 1 S = 0)
    (h5 : PowerSeries.coeff 5 S ≠ 0) : PowerSeries.coeff 3 S ≠ 0 := by
  intro h3
  obtain ⟨hL2, hd2⟩ := bmDisc_two_of_eq_zero h1 h3
  have hle := bm_L_le hS hS0 hf0 hf (k := 3) (by norm_num)
  rw [bm] at hle
  obtain ⟨hd, -⟩ | ⟨-, -, heq⟩ | ⟨-, hl, -⟩ := bmNext_cases S 2 (bm S 2)
  · exact h5 (hd2.symm.trans hd)
  · rw [heq] at hle
    simp only at hle
    omega
  · omega

variable (h12 : PowerSeries.coeff 2 S = PowerSeries.coeff 1 S ^ 2)
include h12

/-- **The runs of four steps that are not clean.** -/
theorem not_clean_four_iff (hsep : f.Separable) (hdeg : f.natDegree ≤ 4) : ¬ Clean S 4 ↔
      f.natDegree = 4 ∧ PowerSeries.coeff 1 S = 0 ∧ PowerSeries.coeff 5 S ≠ 0 := by
  have hl4 : (bm S 4).L = f.natDegree := bm_L_eq hS hS0 hf0 hf hsep hdeg
  constructor
  · intro h
    simp only [Clean, not_forall] at h
    obtain ⟨k, m, hkm, hm, hk, hkp, hdm⟩ := h
    have hk2 : k = 2 := by
      have h0 : (bm S 0).L = 0 := rfl
      have h1 := bm_one_L_le (S := S)
      rcases (by omega : k = 0 ∨ k = 1 ∨ k = 2) with rfl | rfl | rfl
      · omega
      · omega
      · rfl
    subst hk2
    obtain rfl : m = 3 := by omega
    obtain ⟨h1, hd1⟩ := coeff_one_of_length (S := S) (by omega)
    have h2 : PowerSeries.coeff 2 S = 0 := by rw [h12, h1, zero_pow two_ne_zero]
    have h3 : PowerSeries.coeff 3 S ≠ 0 := by rw [← bmDisc_one h1]; exact hd1
    have h5 : PowerSeries.coeff 5 S ≠ 0 := by rw [← bmDisc_two h1 h2 h3]; exact hk
    have hfr := (bm_four h1 h2 h3 h5).2.1 hdm
    exact ⟨by omega, h1, h5⟩
  · rintro ⟨hcd, h1, h5⟩ hcln
    have h2 : PowerSeries.coeff 2 S = 0 := by rw [h12, h1, zero_pow two_ne_zero]
    have h3 := coeff_three_ne_zero hS hS0 hf0 hf hdeg h1 h5
    have hd2 := bmDisc_two h1 h2 h3
    have hL2 : (bm S 2).L = 3 := by rw [bm_two h1 h3]
    have hd3 := hcln 2 3 (by norm_num) (by norm_num) (by rw [hd2]; exact h5) (by omega)
    have hfr := (bm_four h1 h2 h3 h5).1 hd3
    omega

/-- On a run that is not clean the source ends with length four and a polynomial that
shares no root with the locator polynomial, times a quadratic. -/
theorem elp_eight_of_not_clean (hsep : f.Separable) (hdeg : f.natDegree = 4)
    (h1 : PowerSeries.coeff 1 S = 0) (h5 : PowerSeries.coeff 5 S ≠ 0) :
    (∀ n < 8, (elp S n).L ≤ 4) ∧ (elp S 8).L = 4 ∧
      ∃ g h : K[X], (elp S 8).sigma = g * h ∧ g.coeff 0 = 1 ∧ h.coeff 0 = 1 ∧
        g.natDegree ≤ 3 ∧ h.natDegree ≤ 2 ∧ ∀ x, f.eval x = 0 → g.eval x ≠ 0 := by
  have h2 : PowerSeries.coeff 2 S = 0 := by rw [h12, h1, zero_pow two_ne_zero]
  have h3 : PowerSeries.coeff 3 S ≠ 0 := coeff_three_ne_zero hS hS0 hf0 hf hdeg.le h1 h5
  have hL3 : (bm S 3).L = 3 := by rw [bm_three h1 h2 h3 h5]
  obtain ⟨hfr0, -, hfr⟩ := bm_four h1 h2 h3 h5
  have hl4 : (bm S 4).L = 4 := (bm_L_eq hS hS0 hf0 hf hsep hdeg.le).trans hdeg
  have hs4 : (bm S 4).sigma = f := bm_sigma_eq hS hS0 hf0 hf hsep hdeg.le
  have hd3 : bmDisc S 3 (bm S 3) ≠ 0 := fun h => by
    have := hfr0 h
    omega
  have h7eq := elp_seven hS hS0 h1 h2 h3 h5 hd3
  have hL8 : (elp S 8).L = 4 := by
    rw [show elp S 8 = elpNext S 7 (elp S 7) from rfl, elpNext_L (by rw [h7eq]; norm_num), h7eq]
  have hs8 := elpNext_sigma S 7 (elp S 7)
  rw [h7eq] at hs8
  have hiv := bm_inv hS hS0 3
  refine ⟨elp_lengths hS hS0 h1 h2 h3 h5 hd3, hL8, (bm S 3).sigma,
    1 + C (bmDisc S 3 (bm S 3)) * (X * (X * C (PowerSeries.coeff 5 S)⁻¹))
      + C (elpDisc S 7 (elp S 7)) * (X * C (bmDisc S 3 (bm S 3))⁻¹), ?_, hiv.sigma_zero, by simp,
    hiv.sigma_deg.trans hL3.le, by compute_degree!, ?_⟩
  · rw [show elp S 8 = elpNext S 7 (elp S 7) from rfl, h7eq, hs8]
    ring
  intro x hx hg
  have hx0 : x = 0 := by
    rw [← hs4, hfr, bm_two h1 h3] at hx
    simp only [eval_add, hg] at hx
    simpa [hd3, h3] using hx
  rw [hx0, ← coeff_zero_eq_eval_zero, hiv.sigma_zero] at hg
  exact one_ne_zero hg

end Locator

end Textbook

/-! ## Which errors are corrected -/

/-- The decoder reports the errors `E`: their number, and each of their bits once. -/
def Corrects (select48 : ℕ) (E : Finset ℕ) (ecc : List UInt8) (errLoc : List ℕ) : Prop :=
  (decodeBch select48 ecc errLoc).1 = E.card ∧
    ((decodeBch select48 ecc errLoc).2.take E.card).Nodup ∧
    ∀ x, x ∈ (decodeBch select48 ecc errLoc).2.take E.card ↔
      ∃ p ∈ E, x = dataLocation select48 p

theorem InData.lt_nn {sel p : ℕ} (h : InData sel p) : p < nn := by
  have hbt := eccBits_cases sel
  have hk : kkShorten = 4096 := rfl
  have hnn : nn = 8191 := rfl
  have := h.2
  omega

section Four

variable {E : Finset ℕ} (hE : ∀ p ∈ E, p < nn)
include hE

private theorem coeff_two_errSeries :
    PowerSeries.coeff 2 (errSeries E) = PowerSeries.coeff 1 (errSeries E) ^ 2 := by
  rw [coeff_errSeries hE two_ne_zero, coeff_errSeries hE one_ne_zero, CharTwo.sum_sq]
  apply Finset.sum_congr rfl
  intro p _
  ring

/-- Four errors with `S1 = 0` and `S5 ≠ 0`. -/
theorem not_clean_errors_iff (hcd : E.card ≤ 4) : ¬ Clean (errSeries E) 4 ↔
      E.card = 4 ∧ ∑ p ∈ E, alpha ^ p = 0 ∧ ∑ p ∈ E, alpha ^ (5 * p) ≠ 0 := by
  have h := not_clean_four_iff (errSeries_isFrobenius E) (errSeries_zero E)
    (locator_coeff_zero (locators E)) (fun j _ => newton_errSeries E j) (coeff_two_errSeries hE)
    (locator_separable (zero_notMem_locators E))
    (by rw [locator_errors_natDegree hE]; exact hcd)
  rw [h, locator_errors_natDegree hE, coeff_errSeries hE one_ne_zero,
    coeff_errSeries hE (by norm_num)]
  simp

/-- On a run that is not clean the search cannot find all the errors. -/
theorem not_corrects_of_not_clean (hda : ∀ p ∈ E, InData 0 p) (hcd : E.card = 4)
    (h1 : ∑ p ∈ E, alpha ^ p = 0) (h5 : ∑ p ∈ E, alpha ^ (5 * p) ≠ 0) {ecc : List UInt8}
    (hsn : HasSyndromes 0 E ecc) {errLoc : List ℕ} (hl : 4 ≤ errLoc.length) :
    ¬ Corrects 0 E ecc errLoc := by
  rintro ⟨hc, -, hm⟩
  have hc1 : PowerSeries.coeff 1 (errSeries E) = 0 := by
    rw [coeff_errSeries hE one_ne_zero]
    simpa using h1
  have hc5 : PowerSeries.coeff 5 (errSeries E) ≠ 0 := by
    rw [coeff_errSeries hE (by norm_num)]
    exact h5
  obtain ⟨hbd, hL, g, h, hgh, hg0, hh0, hgood, hhd, hcop⟩ :=
    elp_eight_of_not_clean (errSeries_isFrobenius E) (errSeries_zero E)
      (locator_coeff_zero (locators E)) (fun j _ => newton_errSeries E j) (coeff_two_errSeries hE)
      (locator_separable (zero_notMem_locators E))
      ((locator_errors_natDegree hE).trans hcd) hc1 hc5
  obtain ⟨hLL, hlt, hev⟩ := berlekamp_spec (by norm_num) (isSynd_of_hasSyndromes hE hsn) hbd
    (fun h => absurd h (by norm_num))
  have hdec : decodeBch 0 ecc errLoc
      = chien 0 4 (berlekamp 0 (syndrome 0 ecc (replicate 16 0))).2 errLoc := by
    have hLL4 : (berlekamp 0 (syndrome 0 ecc (replicate 16 0))).1 = 4 := hLL.trans hL
    simp only [decodeBch, hLL4]
    exact if_pos (by decide)
  generalize (berlekamp 0 (syndrome 0 ecc (replicate 16 0))).2 = err at hlt hev hdec
  have hev' : ∀ x, elpEval err x = g.eval x * h.eval x := by
    intro x
    have hdeg : (elp (errSeries E) 8).sigma.natDegree ≤ 8 := by
      rw [hgh]
      exact le_trans natDegree_mul_le (by omega)
    rw [← eval_mul, ← hgh]
    exact hev (by rw [show 2 * synT 0 = 8 from rfl, hgh, mul_coeff_zero, hg0, hh0, one_mul]) hdeg x
  rw [hdec] at hc hm
  obtain ⟨-, hs, -, hsl, hht, hrec⟩ :=
    chien_sound 0 hlt hl (by rw [hc]; omega)
  rw [hrec, hcd, ← hsl, recorded_take] at hm
  -- every error is a hit, so a root of the quadratic
  have hro : ∀ p ∈ E, h.eval (alpha ^ p)⁻¹ = 0 := by
    intro p hp
    obtain ⟨q, hq, hloc⟩ := mem_map.1 ((hm _).2 ⟨p, hp, rfl⟩)
    rw [← errLocation_eq_dataLocation 0 (hda p hp)] at hloc
    obtain ⟨hqlt, hhit, -⟩ := hht q hq
    obtain rfl := errLocation_injOn 0 hqlt (hE p hp) hloc
    rw [hev'] at hhit
    exact (mul_eq_zero.1 hhit).resolve_left (hcop _ ((eval_locator_errors hE hqlt).2 hp))
  have hne : h ≠ 0 := by
    rintro rfl
    simp at hh0
  have hsub : (E.image fun p => (alpha ^ p)⁻¹).val ⊆ h.roots := by
    intro x hx
    rw [Finset.mem_val, Finset.mem_image] at hx
    obtain ⟨p, hp, rfl⟩ := hx
    exact (mem_roots hne).2 (hro p hp)
  have hle := card_le_degree_of_subset_roots hsub
  rw [Finset.card_image_of_injOn
    fun p hp q hq hpq => alpha_pow_inj (hE p hp) (hE q hq) (inv_injective hpq)] at hle
  omega

end Four

/-- **Correction of data errors.** On every clean run the decoder reports exactly the
errors. With four correctable errors, these are all the cases in which it does: it
misses exactly the sets of four errors with `S1 = 0` and `S5 ≠ 0`. -/
theorem decodeBch_corrects {select48 : ℕ} (hsel : select48 ≤ 1) (E : Finset ℕ)
    (hcard : E.card ≤ synT select48) (hdata : ∀ p ∈ E, InData select48 p) (ecc : List UInt8)
    (hsyn : HasSyndromes select48 E ecc) (errLoc : List ℕ) (hlen : synT select48 ≤ errLoc.length) :
    (Clean (errSeries E) (synT select48) → Corrects select48 E ecc errLoc) ∧
      (select48 = 0 → (Corrects select48 E ecc errLoc ↔
        ¬ (E.card = 4 ∧ ∑ p ∈ E, alpha ^ p = 0 ∧ ∑ p ∈ E, alpha ^ (5 * p) ≠ 0))) := by
  have hE : ∀ p ∈ E, p < nn := fun p hp => (hdata p hp).lt_nn
  have hclean : Clean (errSeries E) (synT select48) → Corrects select48 E ecc errLoc := by
    intro hclean
    obtain ⟨hs, hnodup, hcount, hmem, heq⟩ := decodeBch_of_clean hE hcard hclean hsel hsyn
      (fun p hp => by have := (hdata p hp).1; omega) hlen
    rw [Corrects, heq, ← hcount, recorded_take]
    refine ⟨rfl, ?_, ?_⟩
    · refine hnodup.map_on fun p hp q hq h => ?_
      exact errLocation_injOn select48 (hE p ((hmem p).1 hp)) (hE q ((hmem q).1 hq)) h
    intro x
    rw [mem_map]
    constructor
    · rintro ⟨p, hp, rfl⟩
      exact ⟨p, (hmem p).1 hp, errLocation_eq_dataLocation select48 (hdata p ((hmem p).1 hp))⟩
    rintro ⟨p, hp, rfl⟩
    exact ⟨p, (hmem p).2 hp, errLocation_eq_dataLocation select48 (hdata p hp)⟩
  refine ⟨hclean, ?_⟩
  rintro rfl
  constructor
  · rintro hcorr ⟨h4, h1, h5⟩
    exact not_corrects_of_not_clean hE hdata h4 h1 h5 hsyn hlen hcorr
  intro hnot
  refine hclean ?_
  by_contra h
  exact hnot ((not_clean_errors_iff hE hcard).1 h)

/-! ## Fixed buffers

The syndromes of a fixed set of exponents are computed on words. -/

/-- The word of `alpha^n`, by squaring, most significant bit of `n` first. -/
def powWord (n : ℕ) : ℕ :=
  forRange 13 (fun i w =>
    if n / 2 ^ (12 - i) % 2 = 1 then alphaStep (mpyModGf w w) else mpyModGf w w) 1

theorem val_powWord {n : ℕ} (hn : n < 2 ^ 13) : val (powWord n) = alpha ^ n := by
  have key : powWord n < 2 ^ 13 ∧ val (powWord n) = alpha ^ (n / 2 ^ (13 - 13)) := by
    refine forRange_induction (fun i w => w < 2 ^ 13 ∧ val w = alpha ^ (n / 2 ^ (13 - i))) ?_ ?_
    · have hz : n / 2 ^ (13 - 0) = 0 := by omega
      exact ⟨by norm_num, by rw [hz, val_one, pow_zero]⟩
    rintro i w hi ⟨hlt, hv⟩
    have hsq := mpyModGf_lt hlt hlt
    have hd : n / 2 ^ (13 - i) = n / 2 ^ (12 - i) / 2 := by
      rw [show 13 - i = 12 - i + 1 by omega, pow_succ, Nat.div_div_eq_div_mul]
    rw [show 13 - (i + 1) = 12 - i by omega]
    split
    · next hb =>
        refine ⟨alphaStep_lt _, ?_⟩
        rw [val_alphaStep hsq, val_mpyModGf hlt hlt, hv, ← pow_add, ← pow_succ']
        congr 1
        omega
    next hb =>
      refine ⟨hsq, ?_⟩
      rw [val_mpyModGf hlt hlt, hv, ← pow_add]
      congr 1
      omega
  rw [key.2]
  simp

/-- The word of the power sum `j` of the exponents `l`. -/
def powSumWord (l : List ℕ) (j : ℕ) : ℕ := l.foldr (fun p a => powWord (j * p) ^^^ a) 0

theorem val_powSumWord {l : List ℕ} (hl : l.Nodup) {j : ℕ} (hj : ∀ p ∈ l, j * p < 2 ^ 13) :
    val (powSumWord l j) = ∑ p ∈ l.toFinset, alpha ^ (j * p) := by
  induction l with
  | nil => simp [powSumWord]
  | cons p l ih =>
    obtain ⟨hp, hl⟩ := nodup_cons.1 hl
    rw [toFinset_cons, Finset.sum_insert (by simpa using hp),
      ← ih hl (fun q hq => hj q (mem_cons_of_mem p hq)), ← val_powWord (hj p mem_cons_self),
      ← val_xor]
    rfl

theorem hasSyndromes_of_words {sel : ℕ} {l : List ℕ} (hl : l.Nodup)
    (hlt : ∀ k < synT sel, ∀ p ∈ l, (2 * k + 1) * p < 2 ^ 13) {ecc : List UInt8}
    (h : ∀ k < synT sel,
      (syndrome sel ecc (replicate 16 0)).getD (2 * k) 0 = powSumWord l (2 * k + 1)) :
    HasSyndromes sel l.toFinset ecc := by
  intro k hk
  rw [← val_powSumWord hl (hlt k hk), ← h k hk]
  exact ((syndrome_spec sel ecc).2 (2 * k) (by omega)).symm

/-- The data bit at exponent 104 alone. -/
theorem decodeBch_corrects_one :
    HasSyndromes 0 [104].toFinset [5, 196, 103, 16, 219, 84, 67] ∧
      Corrects 0 [104].toFinset [5, 196, 103, 16, 219, 84, 67] (replicate 8 0) := by
  have hsyn : HasSyndromes 0 [104].toFinset [5, 196, 103, 16, 219, 84, 67] :=
    hasSyndromes_of_words (by decide) (by decide) (by decide +kernel)
  refine ⟨hsyn, ((decodeBch_corrects (by norm_num) [104].toFinset (by decide) (by decide) _ hsyn _
    (by decide)).2 rfl).2 ?_⟩
  rintro ⟨h, -⟩
  cases h

/-- Four data errors that are not corrected. -/
theorem decodeBch_not_corrects :
    HasSyndromes 0 [104, 105, 107, 594].toFinset [10, 101, 56, 32, 78, 203, 173] ∧
      (∀ p ∈ [104, 105, 107, 594].toFinset, InData 0 p) ∧
      ¬ Corrects 0 [104, 105, 107, 594].toFinset [10, 101, 56, 32, 78, 203, 173]
        (replicate 8 0) := by
  have hsyn : HasSyndromes 0 [104, 105, 107, 594].toFinset [10, 101, 56, 32, 78, 203, 173] :=
    hasSyndromes_of_words (by decide) (by decide) (by decide +kernel)
  have hdata : ∀ p ∈ [104, 105, 107, 594].toFinset, InData 0 p := by decide
  have h1 : ∑ p ∈ [104, 105, 107, 594].toFinset, alpha ^ (1 * p) = 0 := by
    rw [← val_powSumWord (by decide) (by decide),
      show powSumWord [104, 105, 107, 594] 1 = 0 by decide +kernel,
      val_zero]
  have h5 : ∑ p ∈ [104, 105, 107, 594].toFinset, alpha ^ (5 * p) ≠ 0 := by
    rw [← val_powSumWord (by decide) (by decide), ne_eq, val_eq_zero (by decide +kernel)]
    decide +kernel
  simp only [one_mul] at h1
  exact ⟨hsyn, hdata, not_corrects_of_not_clean (fun p hp => (hdata p hp).lt_nn) hdata (by decide)
    h1 h5 hsyn (by decide)⟩

end NestLinux.Mtd.Bch
