import NestLinux.Lib.BerlekampMassey
import NestLinux.Mtd.BchInversion

/-!
# `berlekamp` at the level of polynomials

The arrays `gammas` and `D` of `berlekamp` hold two polynomials over the field, and a
turn of its `while` loop is a step on them. `elpNext` is that step as the source makes
it, one syndrome at a time: where the length does not grow the textbook leaves `D`
alone, but the source has no `continue` there and divides the polynomial it has just
corrected into `D`. `Holds` relates the registers to the polynomials, and
`Holds.bmStep` and `bmLoop_holds` say that the loop computes `elp`.

A run in which no such step is followed by another nonzero discrepancy is *clean*
(`Clean`). The polynomial left in `D` is then never used again, and the source
computes what the textbook iteration `bm` computes (`elp_eq_bm`).
-/

namespace NestLinux.Mtd.Bch

open Lib Polynomial Finset

variable {f : ℕ → ℕ} {l : List ℕ} {j d invd k t : ℕ} {s' : BmState}

/-! ## The source's iteration -/

section Iteration

variable {K : Type*} [Field K]

/-- Step 0: the discrepancy, summed up to the current length only. -/
noncomputable def elpDisc (S : PowerSeries K) (n : ℕ) (p : BmPoly K) : K :=
  ∑ i ∈ range (p.L + 1), p.sigma.coeff i * PowerSeries.coeff (n + 1 - i) S

open Classical in
noncomputable def elpNext (S : PowerSeries K) (n : ℕ) (p : BmPoly K) : BmPoly K :=
  let d := elpDisc S n p
  let sigma := p.sigma + Polynomial.C d * p.D
  if d = 0 then
    ⟨p.sigma, Polynomial.X * p.D, p.L⟩
  else if 2 * p.L < n + 1 then
    ⟨sigma, Polynomial.X * (Polynomial.C d⁻¹ * p.sigma), n + 1 - p.L⟩
  else
    ⟨sigma, Polynomial.X * (Polynomial.C d⁻¹ * sigma), p.L⟩

/-- The polynomials before turn `n`. -/
noncomputable def elp (S : PowerSeries K) : ℕ → BmPoly K
  | 0 => ⟨1, Polynomial.X, 0⟩
  | n + 1 => elpNext S n (elp S n)

variable {S : PowerSeries K} {n : ℕ} {p : BmPoly K}

theorem elpNext_of_eq_zero (hd : elpDisc S n p = 0) :
    elpNext S n p = ⟨p.sigma, Polynomial.X * p.D, p.L⟩ := by
  simp [elpNext, hd]

theorem elpNext_of_grow (hd : elpDisc S n p ≠ 0) (hL : 2 * p.L < n + 1) :
    elpNext S n p = ⟨p.sigma + Polynomial.C (elpDisc S n p) * p.D,
      Polynomial.X * (Polynomial.C (elpDisc S n p)⁻¹ * p.sigma), n + 1 - p.L⟩ := by
  simp [elpNext, hd, hL]

theorem elpNext_of_keep (hd : elpDisc S n p ≠ 0) (hL : ¬ 2 * p.L < n + 1) :
    elpNext S n p = ⟨p.sigma + Polynomial.C (elpDisc S n p) * p.D,
      Polynomial.X * (Polynomial.C (elpDisc S n p)⁻¹ *
        (p.sigma + Polynomial.C (elpDisc S n p) * p.D)), p.L⟩ := by
  simp [elpNext, hd, hL]

/-- The correction is the same in all three cases. -/
theorem elpNext_sigma (S : PowerSeries K) (n : ℕ) (p : BmPoly K) :
    (elpNext S n p).sigma = p.sigma + Polynomial.C (elpDisc S n p) * p.D := by
  by_cases hd : elpDisc S n p = 0
  · rw [elpNext_of_eq_zero hd, hd]
    simp
  by_cases hL : 2 * p.L < n + 1
  · rw [elpNext_of_grow hd hL]
  · rw [elpNext_of_keep hd hL]

theorem elpNext_L (hL : ¬ 2 * p.L < n + 1) : (elpNext S n p).L = p.L := by
  by_cases hd : elpDisc S n p = 0
  · rw [elpNext_of_eq_zero hd]
  · rw [elpNext_of_keep hd hL]

/-- The discrepancy is a coefficient of the product as long as the polynomial has no
more terms than the length says. -/
theorem elpDisc_eq (hdeg : p.sigma.natDegree ≤ p.L)
    (hL : p.L ≤ n) : elpDisc S n p = PowerSeries.coeff (n + 1) (S * (p.sigma : PowerSeries K)) := by
  rw [mul_comm, PowerSeries.coeff_mul, Finset.Nat.sum_antidiagonal_eq_sum_range_succ_mk]
  refine sum_subset ?_ ?_ |>.trans (sum_congr rfl ?_)
  · intro i hi
    rw [mem_range] at hi ⊢
    omega
  · intro i _ hi
    rw [mem_range] at hi
    rw [coeff_eq_zero_of_natDegree_lt (by omega), zero_mul]
  · intro i _
    rw [coeff_coe]

/-- Degrees and length stay within what the loop of steps 2 and 3 covers. -/
theorem elp_bounds (S : PowerSeries K) (n : ℕ) :
    (elp S n).sigma.natDegree ≤ n ∧ (elp S n).D.natDegree ≤ n + 1 ∧ (elp S n).L ≤ n := by
  induction n with
  | zero => simp [elp]
  | succ n ih =>
    obtain ⟨hsg, hD, hL⟩ := ih
    have hX : ∀ f : Polynomial K, (Polynomial.X * f).natDegree ≤ f.natDegree + 1 := fun f => by
      refine le_trans natDegree_mul_le ?_
      rw [natDegree_X, add_comm]
    have hcr : ∀ c : K, ((elp S n).sigma + Polynomial.C c * (elp S n).D).natDegree ≤ n + 1 := by
      intro c
      refine le_trans (natDegree_add_le _ _) (max_le (by omega) ?_)
      exact le_trans (natDegree_C_mul_le _ _) hD
    rw [elp]
    by_cases hd : elpDisc S n (elp S n) = 0
    · rw [elpNext_of_eq_zero hd]
      exact ⟨by simp only; omega, le_trans (hX _) (by omega), by simp only; omega⟩
    by_cases hgr : 2 * (elp S n).L < n + 1
    · rw [elpNext_of_grow hd hgr]
      refine ⟨hcr _, le_trans (hX _) ?_, by simp only; omega⟩
      have := natDegree_C_mul_le (elpDisc S n (elp S n))⁻¹ (elp S n).sigma
      omega
    · rw [elpNext_of_keep hd hgr]
      refine ⟨hcr _, le_trans (hX _) ?_, by simp only; omega⟩
      exact Nat.succ_le_succ (le_trans (natDegree_C_mul_le _ _) (hcr _))

end Iteration

/-! ## The registers hold the polynomials -/

/-- The registers before turn `n`. Cells above 15 do not exist, so `D` is represented
up to there only. -/
structure Holds (n : ℕ) (p : BmPoly GF) (s : BmState) : Prop where
  iteration : s.iteration = n
  LL : s.LL = p.L
  gammas_length : s.gammas.length = 16
  D_length : s.D.length = 16
  gammas_lt : ∀ i, s.gammas.getD i 0 < 2 ^ 13
  D_lt : ∀ i, s.D.getD i 0 < 2 ^ 13
  sigma : ∀ i < 16, p.sigma.coeff i = val (s.gammas.getD i 0)
  D : ∀ i < 16, p.D.coeff i = val (s.D.getD i 0)

theorem bmInit_holds : Holds 0 (elp S 0) bmInit := by
  refine ⟨rfl, rfl, rfl, rfl, getD_induction (P := (· < 2 ^ 13)) (by decide) (by norm_num),
    getD_induction (P := (· < 2 ^ 13)) (by decide) (by norm_num), ?_, ?_⟩
  · intro i hi
    rw [show bmInit.gammas = (List.replicate 16 0).set 0 1 from rfl, getD_set]
    rcases eq_zero_or_pos i with rfl | hp
    · simp [elp]
    rw [if_neg (by omega), List.getD_replicate 0 hi]
    exact coeff_one.trans (if_neg (by omega))
  intro i hi
  rw [show bmInit.D = (List.replicate 16 0).set 1 1 from rfl, getD_set]
  by_cases h1 : i = 1
  · subst h1; simp [elp]
  rw [if_neg (by omega), List.getD_replicate 0 hi]
  exact coeff_X_of_ne_one h1

/-- The syndrome array: cell `j` is the power sum `j + 1`. -/
structure IsSynd (S : PowerSeries GF) (m : ℕ) (synd : List ℕ) : Prop where
  lt : ∀ j, synd.getD j 0 < 2 ^ 13
  val_eq : ∀ j < m, val (synd.getD j 0) = PowerSeries.coeff (j + 1) S

private theorem xor_loop (hf : ∀ i, f i < 2 ^ 13) (m : ℕ) :
    forRange m (fun i d => d ^^^ f i) 0 < 2 ^ 13 ∧
      val (forRange m (fun i d => d ^^^ f i) 0) = ∑ i ∈ range m, val (f i) := by
  induction m with
  | zero => simp
  | succ m ih =>
    rw [forRange_succ, sum_range_succ, val_xor, ih.2]
    exact ⟨Nat.xor_lt_two_pow ih.1 (hf m), rfl⟩

variable {s : BmState} {synd : List ℕ}

namespace Holds

variable {n m : ℕ} {S : PowerSeries GF} {p : BmPoly GF}

theorem discrepancy_lt (h : Holds n p s) (hsy : IsSynd S m synd) : discrepancy synd s < 2 ^ 13 :=
  (xor_loop (fun _ => mpyModGf_lt (h.gammas_lt _) (hsy.lt _)) _).1

theorem val_discrepancy (h : Holds n p s) (hsy : IsSynd S m synd) (hn : n < m) (hn16 : n < 16)
    (hL : p.L ≤ n) : val (discrepancy synd s) = elpDisc S n p := by
  rw [discrepancy, (xor_loop (fun _ => mpyModGf_lt (h.gammas_lt _) (hsy.lt _)) _).2, h.LL]
  refine sum_congr rfl fun i hi => ?_
  rw [mem_range] at hi
  rw [val_mpyModGf (h.gammas_lt _) (hsy.lt _), h.sigma i (by omega), h.iteration,
    hsy.val_eq _ (by omega), show n - i + 1 = n + 1 - i by omega]

end Holds

/-! ## Steps 2 and 3 -/

/-- What cell `i` of `D` becomes. The last turn of the loop leaves it alone when the
length does not grow. -/
def nextD (d invd : ℕ) (s : BmState) (i : ℕ) : ℕ :=
  if 2 * s.LL < s.iteration + 1 then mpyModGf (s.gammas.getD i 0) invd
  else if i = s.iteration + 1 then s.D.getD i 0
  else mpyModGf (s.gammas.getD i 0 ^^^ mpyModGf d (s.D.getD i 0)) invd

/-- The registers after `j` turns of the loop of steps 2 and 3. -/
structure Updated (d invd : ℕ) (s : BmState) (j : ℕ) (s' : BmState) : Prop where
  iteration : s'.iteration = s.iteration
  LL : s'.LL = if 2 * s.LL < s.iteration + 1 ∧ j = s.iteration + 2 then s.iteration + 1 - s.LL
    else s.LL
  gammas_length : s'.gammas.length = s.gammas.length
  D_length : s'.D.length = s.D.length
  gammas : ∀ i < 16, s'.gammas.getD i 0
    = if i < j then s.gammas.getD i 0 ^^^ mpyModGf d (s.D.getD i 0) else s.gammas.getD i 0
  D : ∀ i < 16, s'.D.getD i 0 = if i < j then nextD d invd s i else s.D.getD i 0

private theorem updated_cell {g : ℕ → ℕ} (hj : j < l.length)
    (hl : ∀ i < 16, l.getD i 0 = if i < j then f i else g i) :
    ∀ i < 16, (l.set j (f j)).getD i 0 = if i < j + 1 then f i else g i := by
  intro i hi
  rw [getD_set]
  by_cases hij : j = i
  · subst hij
    rw [if_pos ⟨rfl, hj⟩, if_pos (Nat.lt_succ_self _)]
  rw [if_neg (fun hc => hij hc.1), hl i hi]
  exact if_congr (by omega) rfl rfl

private theorem Updated.step (h : Updated d invd s j s') (hj : j < s.iteration + 2)
    (hn : s.iteration < 15) (hg : s.gammas.length = 16) (hD : s.D.length = 16)
    (hLL : s.LL ≤ s.iteration) : Updated d invd s (j + 1) (updateStep d invd j s') := by
  have hLL' : s'.LL = s.LL := by rw [h.LL, if_neg (by omega)]
  have hgj : s'.gammas.getD j 0 = s.gammas.getD j 0 := by
    rw [h.gammas j (by omega), if_neg (lt_irrefl j)]
  have hDj : s'.D.getD j 0 = s.D.getD j 0 := by rw [h.D j (by omega), if_neg (lt_irrefl j)]
  have hgl := h.gammas_length
  have hDl := h.D_length
  have hgs := updated_cell (by omega) h.gammas
  have hDs := updated_cell (by omega) h.D
  simp only [updateStep, hLL', h.iteration, hgj, hDj]
  by_cases hgr : 2 * s.LL < s.iteration + 1
  · rw [if_pos hgr]
    refine ⟨rfl, ?_, by simp [hgl], by simp [hDl], hgs, ?_⟩
    · simp only [Nat.add_right_cancel_iff]
      by_cases hla : j = s.iteration + 1
      · rw [if_pos hla, if_pos (by omega)]; omega
      · rw [if_neg hla, if_neg (by omega)]
    · simpa [nextD, hgr] using hDs
  rw [if_neg hgr]
  by_cases hla : j = s.iteration + 1
  · rw [if_pos hla]
    refine ⟨rfl, ?_, by simp [hgl], hDl, hgs, ?_⟩
    · rw [if_neg (fun hc => hgr hc.1)]
    intro i hi
    rw [h.D i hi]
    by_cases hij : i = j
    · subst hij
      rw [if_neg (lt_irrefl i), if_pos (Nat.lt_succ_self i), nextD, if_neg hgr, if_pos hla]
    · exact if_congr (by omega) rfl rfl
  · rw [if_neg hla]
    refine ⟨rfl, ?_, by simp [hgl], by simp [hDl], hgs, ?_⟩
    · rw [if_neg (fun hc => hgr hc.1)]
    · simpa [nextD, hgr, hla] using hDs

private theorem updated_run (d invd : ℕ) (hn : s.iteration < 15)
    (hg : s.gammas.length = 16) (hD : s.D.length = 16) (hLL : s.LL ≤ s.iteration) :
    Updated d invd s (s.iteration + 2) (forRange (s.iteration + 2) (updateStep d invd) s) := by
  refine forRange_induction (Updated d invd s) ?_ fun j s' hj h => h.step hj hn hg hD hLL
  exact ⟨rfl, by rw [if_neg (by omega)], rfl, rfl, fun i _ => rfl, fun i _ => rfl⟩

/-! ## One turn of the `while` loop -/

namespace Holds

variable {n m : ℕ} {S : PowerSeries GF} {p : BmPoly GF}

private theorem shift_length (hl : l.length = 16) : (0 :: l.take 15).length = 16 := by
  simp [hl]

private theorem shift_getD (l : List ℕ) {i : ℕ} (hi : i < 16) :
    (0 :: l.take 15).getD i 0 = if i = 0 then 0 else l.getD (i - 1) 0 := by
  cases i with
  | zero => rfl
  | succ i =>
    rw [List.getD_cons_succ, if_neg (Nat.succ_ne_zero i), Nat.add_sub_cancel,
      List.getD_eq_getElem?_getD, List.getD_eq_getElem?_getD, List.getElem?_take, if_pos (by omega)]

private theorem cells_lt (hl : l.length = 16) (h : ∀ i < 16, l.getD i 0 < 2 ^ 13)
    (i : ℕ) : l.getD i 0 < 2 ^ 13 := by
  rcases lt_or_ge i 16 with hi | hi
  · exact h i hi
  rw [List.getD_eq_default _ _ (by omega)]
  norm_num

private theorem shift_lt (hl : l.length = 16) (h : ∀ i < 16, l.getD i 0 < 2 ^ 13) :
    ∀ i, (0 :: l.take 15).getD i 0 < 2 ^ 13 := by
  refine cells_lt (shift_length hl) fun i hi => ?_
  rw [shift_getD l hi]
  split
  · norm_num
  · exact h _ (by omega)

/-- Step 4: the new `D` is the shifted one. -/
private theorem shifted {q : Polynomial GF} (hq : ∀ i < 16, q.coeff i = val (l.getD i 0)) :
    ∀ i < 16, (Polynomial.X * q).coeff i = val ((0 :: l.take 15).getD i 0) := by
  intro i hi
  rw [shift_getD l hi]
  cases i with
  | zero => simp
  | succ i => rw [coeff_X_mul, if_neg (Nat.succ_ne_zero i), Nat.add_sub_cancel, hq i (by omega)]

/-- A turn on a zero discrepancy only shifts `D`. -/
private theorem bmStep_zero (h : Holds n p s) (hsy : IsSynd S m synd) (hn : n < m)
    (hn16 : n < 16) (hL : p.L ≤ n) (hd : elpDisc S n p = 0) :
    Holds (n + 1) (elpNext S n p) (bmStep synd s) := by
  have hco : discrepancy synd s = 0 := by
    rw [← val_eq_zero (h.discrepancy_lt hsy), h.val_discrepancy hsy hn hn16 hL, hd]
  rw [elpNext_of_eq_zero hd]
  simp only [bmStep, hco]
  refine ⟨by simp [h.iteration], h.LL, h.gammas_length, shift_length h.D_length, h.gammas_lt,
    shift_lt h.D_length fun i _ => h.D_lt i, h.sigma, shifted h.D⟩

/-- The cells that steps 2 and 3 write hold the corrected polynomial; those above are
zero on both sides. -/
private theorem corrected (h : Holds n p s) (hd : d < 2 ^ 13)
    (hu : Updated d invd s (n + 2) s') (hD : p.D.natDegree ≤ n + 1) :
    ∀ i < 16, (p.sigma + Polynomial.C (val d) * p.D).coeff i = val (s'.gammas.getD i 0) := by
  intro i hi
  rw [coeff_add, coeff_C_mul, hu.gammas i hi]
  by_cases hlt : i < n + 2
  · rw [if_pos hlt, val_xor, val_mpyModGf hd (h.D_lt i), h.sigma i hi, h.D i hi]
  rw [if_neg hlt, ← h.sigma i hi, coeff_eq_zero_of_natDegree_lt (p := p.D) (by omega), mul_zero,
    add_zero]

/-- The cells that steps 2 and 3 write are elements of the field. -/
private theorem updated_lt (h : Holds n p s) (hd : d < 2 ^ 13) (hinv : invd < 2 ^ 13)
    (hu : Updated d invd s (n + 2) s') :
    ∀ i < 16, s'.gammas.getD i 0 < 2 ^ 13 ∧ s'.D.getD i 0 < 2 ^ 13 := by
  intro i hi
  have hsum := Nat.xor_lt_two_pow (h.gammas_lt i) (mpyModGf_lt hd (h.D_lt i))
  rw [hu.gammas i hi, hu.D i hi, nextD]
  constructor
  · split
    · exact hsum
    · exact h.gammas_lt i
  · split_ifs
    · exact mpyModGf_lt (h.gammas_lt i) hinv
    · exact h.D_lt i
    · exact mpyModGf_lt hsum hinv
    · exact h.D_lt i

/-- **One turn of the `while` loop is one step on the polynomials.** On the last turn of
`select_4_8 = 1` the arrays are too short for a correction, so there the discrepancy has
to be zero. -/
theorem bmStep (h : Holds n p s) (hsy : IsSynd S m synd) (hn : n < m) (hn16 : n < 16)
    (hsg : p.sigma.natDegree ≤ n) (hD : p.D.natDegree ≤ n + 1) (hL : p.L ≤ n)
    (hla : n < 15 ∨ elpDisc S n p = 0) : Holds (n + 1) (elpNext S n p) (bmStep synd s) := by
  by_cases hd : elpDisc S n p = 0
  · exact h.bmStep_zero hsy hn hn16 hL hd
  have hn15 : n < 15 := hla.resolve_right hd
  have hv := h.val_discrepancy hsy hn hn16 hL
  have hdlt := h.discrepancy_lt hsy
  have hco : discrepancy synd s ≠ 0 := by
    intro h0
    rw [h0, val_zero] at hv
    exact hd hv.symm
  have hiv := val_inversion hco hdlt
  have hin := inversion_lt hdlt
  have hir := h.iteration
  have hLL := h.LL
  have hu : Updated (discrepancy synd s) (inversion (discrepancy synd s)) s (n + 2)
      (forRange (s.iteration + 2)
        (updateStep (discrepancy synd s) (inversion (discrepancy synd s))) s) := by
    have := updated_run (discrepancy synd s) (inversion (discrepancy synd s))
      (s := s) (by omega) h.gammas_length h.D_length (by omega)
    rwa [hir] at this ⊢
  have hg := h.corrected hdlt hu hD
  simp only [Bch.bmStep, hco, ne_eq, not_false_eq_true, if_true]
  generalize forRange (s.iteration + 2)
    (updateStep (discrepancy synd s) (inversion (discrepancy synd s))) s = s' at hu hg ⊢
  generalize discrepancy synd s = d at *
  have hgl : s'.gammas.length = 16 := hu.gammas_length.trans h.gammas_length
  have hDlen : s'.D.length = 16 := hu.D_length.trans h.D_length
  have hlt := h.updated_lt hdlt hin hu
  have hglt := cells_lt hgl fun i hi => (hlt i hi).1
  have hDlt := shift_lt hDlen fun i hi => (hlt i hi).2
  by_cases hgr : 2 * p.L < n + 1
  · rw [elpNext_of_grow hd hgr, ← hv]
    have hgr' : 2 * s.LL < s.iteration + 1 := by omega
    refine ⟨by simp [hu.iteration, hir], ?_, hgl, shift_length hDlen, hglt, hDlt, hg, shifted ?_⟩
    · simp only
      rw [hu.LL, if_pos ⟨hgr', by omega⟩]
      omega
    intro i hi
    rw [coeff_C_mul, hu.D i hi, h.sigma i hi, nextD, if_pos hgr']
    by_cases hlt : i < n + 2
    · rw [if_pos hlt, val_mpyModGf (h.gammas_lt i) hin, hiv, mul_comm]
    rw [if_neg hlt, ← h.sigma i hi, ← h.D i hi,
      coeff_eq_zero_of_natDegree_lt (p := p.sigma) (by omega),
      coeff_eq_zero_of_natDegree_lt (p := p.D) (by omega), mul_zero]
  rw [elpNext_of_keep hd hgr, ← hv]
  have hgr' : ¬ 2 * s.LL < s.iteration + 1 := by omega
  have hdv : val d ≠ 0 := by rw [hv]; exact hd
  refine ⟨by simp [hu.iteration, hir], ?_, hgl, shift_length hDlen, hglt, hDlt, hg, shifted ?_⟩
  · simp only
    rw [hu.LL, if_neg (fun hc => hgr' hc.1), hLL]
  intro i hi
  rw [coeff_C_mul, hu.D i hi, nextD, if_neg hgr', hir]
  rcases Nat.lt_trichotomy i (n + 1) with hlt | heq | hgt
  · rw [if_pos (by omega), if_neg (by omega), val_mpyModGf
      (Nat.xor_lt_two_pow (h.gammas_lt i) (mpyModGf_lt hdlt (h.D_lt i))) hin, hiv, val_xor,
      val_mpyModGf hdlt (h.D_lt i), coeff_add, coeff_C_mul,
      h.sigma i hi, h.D i hi, mul_comm]
  · -- the cell that is left alone already holds the quotient
    rw [if_pos (by omega), if_pos heq, coeff_add, coeff_C_mul,
      coeff_eq_zero_of_natDegree_lt (p := p.sigma) (by omega), zero_add,
      inv_mul_cancel_left₀ hdv, h.D i hi]
  rw [if_neg (by omega), ← h.D i hi, coeff_add, coeff_C_mul,
    coeff_eq_zero_of_natDegree_lt (p := p.sigma) (by omega),
    coeff_eq_zero_of_natDegree_lt (p := p.D) (by omega), mul_zero, add_zero,
    mul_zero]

end Holds

/-- **The `while` loop computes `elp`.** It runs to its last turn as long as the length
stays within the number of correctable errors. -/
theorem bmLoop_holds {sel : ℕ} {S : PowerSeries GF} (hsy : IsSynd S ((sel + 1) * 2 * 4) synd)
    (h16 : (sel + 1) * 2 * 4 ≤ 16) (hL : ∀ j < (sel + 1) * 2 * 4, (elp S j).L ≤ (sel + 1) * 4)
    (hla : 15 < (sel + 1) * 2 * 4 → elpDisc S 15 (elp S 15) = 0) :
    ∀ k n s, n + k = (sel + 1) * 2 * 4 → Holds n (elp S n) s →
      Holds ((sel + 1) * 2 * 4) (elp S ((sel + 1) * 2 * 4)) (bmLoop sel synd k s) := by
  intro k
  induction k with
  | zero =>
    intro n s hn h
    rw [← hn]
    exact h
  | succ k ih =>
    intro n s hn h
    have hl := hL n (by omega)
    have hgr : s.iteration < (sel + 1) * 2 * 4 ∧ s.LL ≤ (sel + 1) * 4 := by
      rw [h.iteration, h.LL]
      omega
    obtain ⟨hsg, hD, hLn⟩ := elp_bounds S n
    rw [bmLoop, if_pos hgr]
    refine ih (n + 1) _ (by omega)
      (h.bmStep hsy (by omega) (by omega) hsg hD hLn ?_)
    rcases lt_or_ge n 15 with hlt | hge
    · exact .inl hlt
    obtain rfl : n = 15 := by omega
    exact .inr (hla (by omega))

/-! ## Clean runs -/

section Clean

variable {K : Type*} [Field K] {S : PowerSeries K}

/-- No step of the textbook iteration that corrects without growing is followed by
another correction. -/
def Clean (S : PowerSeries K) (t : ℕ) : Prop :=
  ∀ k m, k < m → m < t → bmDisc S k (bm S k) ≠ 0 → 2 * k + 1 ≤ 2 * (bm S k).L →
    bmDisc S m (bm S m) = 0

variable [CharP K 2] (hS : IsFrobenius S) (hS0 : PowerSeries.coeff 0 S = 0)
include hS hS0

theorem elpDisc_even (hsg : (elp S (2 * k)).sigma = (bm S k).sigma)
    (hL : (elp S (2 * k)).L = (bm S k).L) :
    elpDisc S (2 * k) (elp S (2 * k)) = bmDisc S k (bm S k) := by
  have hiv := bm_inv hS hS0 k
  rw [elpDisc_eq (by rw [hsg, hL]; exact hiv.sigma_deg) (by rw [hL]; exact hiv.L_le), hsg,
    bmDisc]

theorem elpDisc_odd (hsg : (elp S (2 * k + 1)).sigma = (bm S (k + 1)).sigma)
    (hL : (elp S (2 * k + 1)).L = (bm S (k + 1)).L) :
    elpDisc S (2 * k + 1) (elp S (2 * k + 1)) = 0 := by
  have hiv := bm_inv hS hS0 (k + 1)
  have hz := hiv.newton_sigma (2 * (k + 1)) le_rfl
  have hev : ((2 * (k + 1) : ℕ) : K) = 0 := by
    rw [Nat.cast_mul, Nat.cast_ofNat, (CharTwo.two_eq_zero : (2 : K) = 0), zero_mul]
  rw [coeff_newton, hev, zero_mul, add_zero] at hz
  rw [elpDisc_eq (by rw [hsg, hL]; exact hiv.sigma_deg) (elp_bounds S _).2.2, hsg]
  exact hz

/-- The first of the two turns that make one textbook step. -/
theorem elp_odd (hsg : (elp S (2 * k)).sigma = (bm S k).sigma)
    (hL : (elp S (2 * k)).L = (bm S k).L)
    (hD : (elp S (2 * k)).D = (bm S k).D ∨ bmDisc S k (bm S k) = 0) :
    (elp S (2 * k + 1)).sigma = (bm S (k + 1)).sigma ∧
      (elp S (2 * k + 1)).L = (bm S (k + 1)).L := by
  have hdi := elpDisc_even hS hS0 hsg hL
  rw [elp, bm]
  obtain ⟨hd, heq⟩ | ⟨hd, hl, heq⟩ | ⟨hd, hl, heq⟩ := bmNext_cases S k (bm S k)
  · rw [elpNext_of_eq_zero (by rw [hdi]; exact hd), heq]
    exact ⟨hsg, hL⟩
  · rw [elpNext_of_grow (by rw [hdi]; exact hd) (by rw [hL]; exact hl), heq, hdi, hsg,
      hD.resolve_right hd, hL]
    exact ⟨rfl, rfl⟩
  rw [elpNext_of_keep (by rw [hdi]; exact hd) (by rw [hL]; exact hl), heq, hdi, hsg,
    hD.resolve_right hd, hL]
  exact ⟨rfl, rfl⟩

/-- **On a clean run the source computes what the textbook computes.** Only the
correction polynomial can differ, and only after a correction without growth. -/
theorem elp_eq_bm (hcln : Clean S t) (hk : k ≤ t) :
    (elp S (2 * k)).sigma = (bm S k).sigma ∧ (elp S (2 * k)).L = (bm S k).L ∧
      ((elp S (2 * k)).D = (bm S k).D ∨
        ∃ j < k, bmDisc S j (bm S j) ≠ 0 ∧ 2 * j + 1 ≤ 2 * (bm S j).L) := by
  induction k with
  | zero => exact ⟨rfl, rfl, .inl rfl⟩
  | succ k ih =>
    obtain ⟨hsg, hL, hD⟩ := ih (by omega)
    have hdi := elpDisc_even hS hS0 hsg hL
    have hD' : (elp S (2 * k)).D = (bm S k).D ∨ bmDisc S k (bm S k) = 0 :=
      hD.imp_right fun ⟨j, hj, hne, hl⟩ => hcln j k hj (by omega) hne hl
    obtain ⟨hs', hL'⟩ := elp_odd hS hS0 hsg hL hD'
    have hnx : elp S (2 * (k + 1)) = ⟨(elp S (2 * k + 1)).sigma,
        Polynomial.X * (elp S (2 * k + 1)).D, (elp S (2 * k + 1)).L⟩ :=
      elpNext_of_eq_zero (elpDisc_odd hS hS0 hs' hL')
    rw [hnx]
    refine ⟨hs', hL', ?_⟩
    simp only [elp, bm]
    obtain ⟨hd, heq⟩ | ⟨hd, hl, heq⟩ | ⟨hd, hl, heq⟩ := bmNext_cases S k (bm S k)
    · rw [elpNext_of_eq_zero (by rw [hdi]; exact hd), heq]
      rcases hD with hD | ⟨j, hj, hkp⟩
      · refine .inl ?_
        simp only [hD]
        ring
      · exact .inr ⟨j, by omega, hkp⟩
    · rw [elpNext_of_grow (by rw [hdi]; exact hd) (by rw [hL]; exact hl), heq, hdi, hsg]
      refine .inl ?_
      ring
    · exact .inr ⟨k, Nat.lt_succ_self k, hd, by omega⟩

/-- The length along a clean run, and the last discrepancy. -/
theorem elp_clean_run (hcln : Clean S t) (hk : k < t) : (elp S (2 * k + 1)).L = (bm S (k + 1)).L ∧
      elpDisc S (2 * k + 1) (elp S (2 * k + 1)) = 0 := by
  obtain ⟨hsg, hL, hD⟩ := elp_eq_bm hS hS0 hcln (le_of_lt hk)
  obtain ⟨hs', hL'⟩ :=
    elp_odd hS hS0 hsg hL
      (hD.imp_right fun ⟨j, hj, hne, hl⟩ => hcln j k hj hk hne hl)
  exact ⟨hL', elpDisc_odd hS hS0 hs' hL'⟩

end Clean

end NestLinux.Mtd.Bch
