import NestLinux.Mtd.BchField

/-!
# The syndromes

The remainder that the hardware delivers is a polynomial `r(x)` with coefficients
`0` and `1`. `syndrome` evaluates it at the odd powers of the primitive element with a
shift register per power, and gets the even ones by squaring.
-/

namespace NestLinux.Mtd.Bch

open Lib List

/-- `r(x)`: the coefficient of `x^i` is bit `ecc_pos - i` of the buffer. -/
noncomputable def remEval (select48 : ℕ) (ecc : List UInt8) (x : GF) : GF :=
  ∑ i ∈ Finset.range (eccBits select48), (eccBit ecc (eccPos select48 - i) : GF) * x ^ i

theorem eccBit_lt (ecc : List UInt8) (pos : ℕ) : eccBit ecc pos < 2 := by
  rw [eccBit, Nat.and_one_is_mod]
  exact Nat.mod_lt _ (by norm_num)

private theorem val_bit {b : ℕ} (hb : b < 2) : val b = b := by
  interval_cases b <;> simp

/-- Squaring commutes with evaluation, as the coefficients are bits. -/
theorem remEval_sq (sel : ℕ) (ecc : List UInt8) (x : GF) :
    remEval sel ecc (x ^ 2) = remEval sel ecc x ^ 2 := by
  rw [remEval, remEval, CharTwo.sum_sq]
  refine Finset.sum_congr rfl fun i _ => ?_
  have hb : (eccBit ecc (eccPos sel - i) : GF) ^ 2 = eccBit ecc (eccPos sel - i) := by
    have hlt := eccBit_lt ecc (eccPos sel - i)
    interval_cases eccBit ecc (eccPos sel - i) <;> simp
  rw [mul_pow, hb, ← pow_mul, ← pow_mul, mul_comm 2 i]

/-! ## The shift registers -/

theorem alphaSteps {p : ℕ} (hp : p < 2 ^ 13) (m : ℕ) : forRange m (fun _ => alphaStep) p < 2 ^ 13 ∧
      val (forRange m (fun _ => alphaStep) p) = alpha ^ m * val p := by
  induction m with
  | zero => simpa using hp
  | succ m ih =>
    rw [forRange_succ]
    refine ⟨alphaStep_lt _, ?_⟩
    rw [val_alphaStep ih.1, ih.2]
    ring

/-- The registers when register `k` has taken the first `j k` coefficients: `syn[2k]` is the sum
so far at `alpha^(2k+1)`, and `pow_alpha[k]` the next power of it. -/
structure SynInv (t : ℕ) (r j : ℕ → ℕ) (s : SynState) : Prop where
  syn_length : s.syn.length = 16
  pow_length : s.powAlpha.length = 8
  syn_lt : ∀ i, s.syn.getD i 0 < 2 ^ 13
  pow_lt : ∀ i, s.powAlpha.getD i 0 < 2 ^ 13
  syn_eq : ∀ k < t, val (s.syn.getD (2 * k) 0)
    = ∑ i ∈ Finset.range (j k), (r i : GF) * (alpha ^ (2 * k + 1)) ^ i
  pow_eq : ∀ k < t, val (s.powAlpha.getD k 0) = (alpha ^ (2 * k + 1)) ^ j k

/-- Inside the loop over `k`, the registers below `m` have taken coefficient `j`. -/
private def taken (j m k : ℕ) : ℕ := if k < m then j + 1 else j

private theorem SynInv.turn {t j m : ℕ} {r : ℕ → ℕ} {s : SynState}
    (h : SynInv t r (taken j m) s) (ht : t ≤ 8) (hm : m < t) (hr : r j < 2) :
    SynInv t r (taken j (m + 1)) (synStep (r j) m s) := by
  have hsn := h.syn_eq m hm
  have hpow := h.pow_eq m hm
  rw [taken, if_neg (lt_irrefl m)] at hsn hpow
  obtain ⟨hlt, hv⟩ := alphaSteps (h.pow_lt m) (2 * m + 1)
  have hsy := h.syn_length
  have hpw := h.pow_length
  -- both ways of the test on the bit add `r j` times the power
  have hce : ∀ i, (synStep (r j) m s).syn.getD i 0
      = if i = 2 * m ∧ r j = 1 then s.syn.getD (2 * m) 0 ^^^ s.powAlpha.getD m 0
        else s.syn.getD i 0 := by
    intro i
    simp only [synStep]
    split
    · next h1 =>
        rw [getD_set]
        by_cases hi : i = 2 * m
        · rw [if_pos ⟨hi.symm, by omega⟩, if_pos ⟨hi, h1⟩]
        · rw [if_neg (fun hc => hi hc.1.symm), if_neg (fun hc => hi hc.1)]
    · next h1 => rw [if_neg (fun hc => h1 hc.2)]
  have hpc : ∀ i, (synStep (r j) m s).powAlpha.getD i 0
      = if i = m then forRange (2 * m + 1) (fun _ => alphaStep) (s.powAlpha.getD m 0)
        else s.powAlpha.getD i 0 := by
    intro i
    simp only [synStep]
    rw [getD_set]
    exact if_congr (by omega) rfl rfl
  refine ⟨?_, ?_, ?_, ?_, ?_, ?_⟩
  · simp only [synStep]
    split
    · simpa using hsy
    · exact hsy
  · simp [synStep, hpw]
  · intro i
    rw [hce]
    split
    · exact Nat.xor_lt_two_pow (h.syn_lt _) (h.pow_lt _)
    · exact h.syn_lt i
  · intro i
    rw [hpc]
    split
    · exact hlt
    · exact h.pow_lt i
  · intro k hk
    rw [hce]
    by_cases hkm : k = m
    · subst hkm
      rw [taken, if_pos (Nat.lt_succ_self k), Finset.sum_range_succ, ← hsn, ← hpow]
      have hb : r j = 0 ∨ r j = 1 := by omega
      rcases hb with h0 | h1
      · rw [h0]
        simp
      rw [if_pos ⟨rfl, h1⟩, h1, val_xor]
      simp
    · rw [if_neg (by omega), h.syn_eq k hk]
      simp [taken, show k < m + 1 ↔ k < m by omega]
  · intro k hk
    rw [hpc]
    by_cases hkm : k = m
    · subst hkm
      rw [if_pos rfl, taken, if_pos (Nat.lt_succ_self k), hv, hpow]
      exact (pow_succ' _ _).symm
    · rw [if_neg hkm, h.pow_eq k hk]
      simp [taken, show k < m + 1 ↔ k < m by omega]

/-- One coefficient, through all the registers. -/
private theorem SynInv.step {t j : ℕ} {r : ℕ → ℕ} {s : SynState} (h : SynInv t r (fun _ => j) s)
    (ht : t ≤ 8) (hr : r j < 2) :
    SynInv t r (fun _ => j + 1) (forRange t (synStep (r j)) s) := by
  have hrun : SynInv t r (taken j t) (forRange t (synStep (r j)) s) :=
    forRange_induction (fun m => SynInv t r (taken j m)) h fun m s' hm hs' => hs'.turn ht hm hr
  refine ⟨hrun.syn_length, hrun.pow_length, hrun.syn_lt, hrun.pow_lt, ?_, ?_⟩
  · intro k hk
    rw [hrun.syn_eq k hk, taken, if_pos hk]
  intro k hk
  rw [hrun.pow_eq k hk, taken, if_pos hk]

private theorem powAlphaInit_lt (i : ℕ) : powAlphaInit.getD i 0 < 2 ^ 13 :=
  getD_induction (P := (· < 2 ^ 13)) (by decide) (by norm_num) i

private theorem val_powAlphaInit {k : ℕ} (hk : k < 8) :
    val (powAlphaInit.getD k 0) = alpha ^ (2 * k + 1) := by
  have hsp : ∀ k < 7, powAlphaInit.getD (k + 1) 0 =
      alphaStep (alphaStep (powAlphaInit.getD k 0)) := by
    decide
  have hlt : ∀ i, powAlphaInit.getD i 0 < 2 ^ 13 := powAlphaInit_lt
  induction k with
  | zero =>
    rw [show powAlphaInit.getD 0 0 = 2 ^ 1 from rfl, val_two_pow]
  | succ k ih =>
    rw [hsp k (by omega), val_alphaStep (alphaStep_lt _), val_alphaStep (hlt k), ih (by omega)]
    ring

theorem synT_le (sel : ℕ) : synT sel ≤ 8 := by
  unfold synT
  split <;> omega

/-- The coefficients of `r(x)` in the order in which the source reads them. -/
private theorem eccPos_eq (sel : ℕ) : eccPos sel - eccMin sel + 1 = eccBits sel := by
  unfold eccPos eccMin eccBits
  split <;> rfl

/-- The first coefficient is copied to the odd syndromes. -/
private theorem synFirst_spec {t c : ℕ} (ht : t ≤ 8) (hc : c < 2) :
    let l := forRange t (fun k syn => syn.set (2 * k) c) (replicate 16 0)
    l.length = 16 ∧ (∀ i, l.getD i 0 < 2 ^ 13) ∧ ∀ k < t, l.getD (2 * k) 0 = c := by
  refine forRange_induction (fun m (l : List ℕ) => l.length = 16 ∧ (∀ i, l.getD i 0 < 2 ^ 13) ∧
    ∀ k < m, l.getD (2 * k) 0 = c) ?_ ?_
  · exact ⟨rfl, getD_induction (P := (· < 2 ^ 13)) (by decide) (by norm_num), by simp⟩
  rintro m l hm ⟨hl, hlt, heq⟩
  refine ⟨by simpa using hl, ?_, ?_⟩
  · intro i
    rw [getD_set]
    split
    · omega
    · exact hlt i
  · intro k hk
    rw [getD_set]
    by_cases hkm : k = m
    · rw [if_pos ⟨by omega, by omega⟩]
    · rw [if_neg (by omega), heq k (by omega)]

private theorem synOdd_inv (sel : ℕ) (ecc : List UInt8) :
    SynInv (synT sel) (fun i => eccBit ecc (eccPos sel - i)) (fun _ => eccBits sel)
      (synOdd sel ecc (replicate 16 0)) := by
  set r := fun i => eccBit ecc (eccPos sel - i) with hr
  have hb : ∀ i, r i < 2 := fun i => eccBit_lt ecc _
  have ht := synT_le sel
  obtain ⟨hl, hlt, heq⟩ := synFirst_spec ht (hb 0)
  have hrun : SynInv (synT sel) r (fun _ => eccPos sel - eccMin sel + 1)
      (synOdd sel ecc (replicate 16 0)) := by
    refine forRange_induction (fun j s => SynInv (synT sel) r (fun _ => j + 1) s) ?_ ?_
    · refine ⟨hl, rfl, hlt, powAlphaInit_lt, ?_, ?_⟩
      · intro k hk
        rw [Finset.sum_range_one, pow_zero, mul_one]
        exact (congrArg val (heq k hk)).trans (val_bit (hb 0))
      intro k hk
      rw [pow_one]
      exact val_powAlphaInit (by omega)
    · intro j s _ h
      have hidx : eccBit ecc (eccPos sel - 1 - j) = r (j + 1) := by
        congr 1
        omega
      rw [hidx]
      exact h.step ht (hb _)
  rw [eccPos_eq] at hrun
  exact hrun

/-- The odd syndromes are there from the start, the even ones up to turn `k`. -/
private def SyndTo (sel : ℕ) (ecc : List UInt8) (k : ℕ) (l : List ℕ) : Prop :=
  l.length = 16 ∧ (∀ j, l.getD j 0 < 2 ^ 13) ∧ ∀ j < 2 * synT sel, (j % 2 = 0 ∨ j < 2 * k) →
    val (l.getD j 0) = remEval sel ecc (alpha ^ (j + 1))

/-- **Specification of `syndrome`.** -/
theorem syndrome_spec (sel : ℕ) (ecc : List UInt8) :
    (∀ j, (syndrome sel ecc (replicate 16 0)).getD j 0 < 2 ^ 13) ∧
      ∀ j < 2 * synT sel, val ((syndrome sel ecc (replicate 16 0)).getD j 0)
        = remEval sel ecc (alpha ^ (j + 1)) := by
  have hodd := synOdd_inv sel ecc
  have ht := synT_le sel
  have key : SyndTo sel ecc (synT sel) (syndrome sel ecc (replicate 16 0)) := by
    refine forRange_induction (SyndTo sel ecc) ?_ ?_
    · refine ⟨hodd.syn_length, hodd.syn_lt, ?_⟩
      intro j hj hcs
      have h := hodd.syn_eq (j / 2) (by omega)
      rw [show 2 * (j / 2) = j by omega] at h
      exact h
    rintro k l hk ⟨hl, hlt, heq⟩
    refine ⟨by simpa using hl, ?_, ?_⟩
    · intro j
      rw [getD_set]
      split
      · exact mpyModGf_lt (hlt k) (hlt k)
      · exact hlt j
    intro j hj hcs
    rw [getD_set]
    by_cases hjk : 2 * k + 1 = j
    · rw [if_pos ⟨hjk, by omega⟩, val_mpyModGf (hlt k) (hlt k), heq k (by omega) (by omega), ← sq,
        ← remEval_sq, ← pow_mul, show (k + 1) * 2 = j + 1 by omega]
    · rw [if_neg (fun hc => hjk hc.1), heq j hj (by omega)]
  exact ⟨key.2.1, fun j hj => key.2.2 j hj (.inr hj)⟩

end NestLinux.Mtd.Bch
