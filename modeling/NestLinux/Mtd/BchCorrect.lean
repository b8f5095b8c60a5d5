import NestLinux.Mtd.BchBerlekamp
import NestLinux.Mtd.BchChien
import NestLinux.Mtd.BchSyndrome

/-!
# What `decode_bch` corrects

The hardware remainder of a word with errors at the exponents `E` has the syndromes of
`E`. On a clean run (`Clean`) the three stages then find `E`: `decodeBch_of_clean` and
`decodeBch_of_parity` give the result, which is a failure as soon as one error lies in
the part of the parity area that the search passes over.

For four errors the runs that are not clean are known exactly: four errors whose first
syndrome is zero and whose fifth is not (`not_clean_four_iff`). On those the locator
polynomial comes out wrong (`elp_eight_of_not_clean`).
-/

namespace NestLinux.Mtd.Bch

open Lib Finset

/-! ## The syndromes of a set of errors -/

open Classical in
noncomputable def locators (E : Finset ℕ) : Finset GF := E.image (alpha ^ ·)

noncomputable def errSeries (E : Finset ℕ) : PowerSeries GF := powerSums (locators E)

/-- The odd syndromes of the remainder are those of the errors `E`. -/
def HasSyndromes (select48 : ℕ) (E : Finset ℕ) (ecc : List UInt8) : Prop :=
  ∀ k < synT select48, remEval select48 ecc (alpha ^ (2 * k + 1)) = ∑ p ∈ E,
    alpha ^ ((2 * k + 1) * p)

variable (E : Finset ℕ)

theorem zero_notMem_locators : (0 : GF) ∉ locators E := by
  intro h
  obtain ⟨p, -, hp⟩ := mem_image.1 h
  exact pow_ne_zero p alpha_ne_zero hp

theorem errSeries_zero : PowerSeries.coeff 0 (errSeries E) = 0 :=
  coeff_zero_powerSums

theorem errSeries_isFrobenius : IsFrobenius (errSeries E) := by
  refine isFrobenius_of_coeff fun j => ?_
  rcases Nat.eq_zero_or_pos j with rfl | hj
  · rw [errSeries_zero, zero_pow two_ne_zero]
  rw [errSeries, coeff_powerSums (by omega), coeff_powerSums (by omega), CharTwo.sum_sq]
  refine sum_congr rfl fun a _ => ?_
  rw [← pow_mul, mul_comm]

/-- The locator polynomial solves the key equation of its syndromes. -/
theorem newton_errSeries (j : ℕ) :
    PowerSeries.coeff j (newton (errSeries E) (locator (locators E) : PowerSeries GF)) = 0 := by
  rw [errSeries, newton_locator, map_zero]

section Errors

variable {E : Finset ℕ} (hE : ∀ p ∈ E, p < nn)
include hE

theorem locators_card : (locators E).card = E.card := by
  exact card_image_of_injOn fun p hp q hq h => alpha_pow_inj (hE p hp) (hE q hq) h

theorem coeff_errSeries {j : ℕ} (hj : j ≠ 0) :
    PowerSeries.coeff j (errSeries E) = ∑ p ∈ E, alpha ^ (j * p) := by
  rw [errSeries, coeff_powerSums hj, locators,
    sum_image fun p hp q hq h => alpha_pow_inj (hE p hp) (hE q hq) h]
  refine sum_congr rfl fun p _ => ?_
  rw [← pow_mul, mul_comm]

theorem locator_errors_natDegree : (locator (locators E)).natDegree = E.card := by
  rw [locator_natDegree (zero_notMem_locators E), locators_card hE]

/-- The inverses of the locators are the roots of the locator polynomial. -/
theorem eval_locator_errors {p : ℕ} (hp : p < nn) :
    (locator (locators E)).eval (alpha ^ p)⁻¹ = 0 ↔ p ∈ E := by
  have hne : alpha ^ p ≠ 0 := pow_ne_zero p alpha_ne_zero
  rw [eval_locator_eq_zero]
  constructor
  · rintro ⟨a, ha, hro⟩
    obtain ⟨q, hq, rfl⟩ := mem_image.1 ha
    have ho : alpha ^ q * (alpha ^ p)⁻¹ = 1 := (CharTwo.add_eq_zero.1 hro).symm
    rw [mul_inv_eq_one₀ hne] at ho
    rwa [← alpha_pow_inj (hE q hq) hp ho]
  · intro h
    refine ⟨alpha ^ p, mem_image_of_mem _ h, ?_⟩
    rw [mul_inv_cancel₀ hne, CharTwo.add_self_eq_zero]

/-- `syndrome` delivers the syndromes of the errors. -/
theorem isSynd_of_hasSyndromes {sel : ℕ} {ecc : List UInt8} (h : HasSyndromes sel E ecc) :
    IsSynd (errSeries E) (2 * synT sel) (syndrome sel ecc (List.replicate 16 0)) := by
  obtain ⟨hlt, hv⟩ := syndrome_spec sel ecc
  have ha : ∀ n, n < 2 * synT sel → remEval sel ecc (alpha ^ (n + 1))
      = PowerSeries.coeff (n + 1) (errSeries E) := by
    intro n
    induction n using Nat.strong_induction_on with
    | _ n ih =>
      intro hn
      rcases Nat.even_or_odd' n with ⟨k, rfl | rfl⟩
      · rw [h k (by omega), coeff_errSeries hE (by omega)]
      rw [show 2 * k + 1 + 1 = (k + 1) * 2 by ring, pow_mul, remEval_sq, ih k (by omega) (by omega),
        coeff_errSeries hE (by omega), coeff_errSeries hE (by omega), CharTwo.sum_sq]
      ring_nf
  exact ⟨hlt, fun j hj => (hv j hj).trans (ha j hj)⟩

/-- The syndromes of one error or more are not all zero. -/
theorem eq_empty_of_remEval_eq_zero {sel : ℕ} {ecc : List UInt8} (h : HasSyndromes sel E ecc)
    (hcd : E.card ≤ synT sel) (hz : ∀ x, remEval sel ecc x = 0) : E = ∅ := by
  have hcf : ∀ k < synT sel, PowerSeries.coeff (2 * k + 1) (errSeries E) = 0 := by
    intro k hk
    rw [coeff_errSeries hE (by omega), ← h k hk, hz]
  have hr : ∀ k ≤ synT sel, (bm (errSeries E) k).sigma = 1 ∧ (bm (errSeries E) k).L = 0 := by
    intro k hk
    induction k with
    | zero => exact ⟨rfl, rfl⟩
    | succ k ih =>
      obtain ⟨hsg, hL⟩ := ih (by omega)
      have hdi : bmDisc (errSeries E) k (bm (errSeries E) k) = 0 := by
        rw [bmDisc, hsg, Polynomial.coe_one, mul_one, hcf k (by omega)]
      rw [bm]
      obtain ⟨-, heq⟩ | ⟨hd, -⟩ | ⟨hd, -⟩ := bmNext_cases (errSeries E) k (bm (errSeries E) k)
      · rw [heq]
        exact ⟨hsg, hL⟩
      · exact absurd hdi hd
      · exact absurd hdi hd
  have hl := bm_L_eq (errSeries_isFrobenius E) (errSeries_zero E)
    (locator_coeff_zero (locators E)) (fun j (_ : j ≤ 2 * synT sel) => newton_errSeries E j)
    (locator_separable (zero_notMem_locators E))
    (by rw [locator_errors_natDegree hE]; exact hcd)
  rw [(hr _ le_rfl).2, locator_errors_natDegree hE] at hl
  exact card_eq_zero.1 hl.symm

end Errors

/-! ## Positions -/

/-- `bitPos` reverses the bits of a byte. -/
theorem bitPos_eq {p : ℕ} (hp : p < 2 ^ 32) : bitPos p = 8 * (p / 8) + (7 - p % 8) := by
  have hhi : p &&& 0xFFFFFFF8 = (p / 8) <<< 3 := by
    have hms : (0xFFFFFFF8 : ℕ) = (2 ^ 29 - 1) <<< 3 := by decide
    have hsl : p &&& (2 ^ 29 - 1) <<< 3 = ((p >>> 3) &&& (2 ^ 29 - 1)) <<< 3 := by
      apply Nat.eq_of_testBit_eq
      intro i
      simp only [Nat.testBit_and, Nat.testBit_shiftLeft]
      by_cases hi : 3 ≤ i <;> simp [hi]
    rw [hms, hsl, Nat.and_two_pow_sub_one_eq_mod, Nat.shiftRight_eq_div_pow,
      Nat.mod_eq_of_lt (by omega)]
  have hl : p &&& 7 = p % 8 := Nat.and_two_pow_sub_one_eq_mod p 3
  rw [bitPos, hhi, ← Nat.shiftLeft_add_eq_or_of_lt (by omega)]
  omega

/-- The number of the data bit at exponent `p`. -/
def dataLocation (select48 p : ℕ) : ℕ := kkShorten - 1 - (bitPos p - 2 * eccBits select48)

/-- `p` is the exponent of a data bit. -/
def InData (select48 p : ℕ) : Prop :=
  2 * eccBits select48 ≤ p ∧ p < 2 * eccBits select48 + kkShorten

instance (select48 p : ℕ) : Decidable (InData select48 p) :=
  inferInstanceAs (Decidable (_ ∧ _))

theorem eccBits_cases (sel : ℕ) : eccBits sel = 52 ∨ eccBits sel = 104 := by
  unfold eccBits
  split
  · exact .inl rfl
  · exact .inr rfl

section Location

variable (sel : ℕ) {p q : ℕ}

theorem errLocation_eq (hp : p < nn) : (errLocation sel p : ℤ)
      = (4095 + 2 * eccBits sel - (8 * (p / 8) + (7 - p % 8) : ℕ)) % 2 ^ 32 := by
  have hnn : nn = 8191 := rfl
  have hk : kkShorten = 4096 := rfl
  rw [errLocation, bitPos_eq (by omega)]
  omega

theorem errLocation_eq_dataLocation (hda : InData sel p) :
    errLocation sel p = dataLocation sel p := by
  have hk : kkShorten = 4096 := rfl
  have hnn : nn = 8191 := rfl
  obtain ⟨h1, h2⟩ := hda
  have hbt := eccBits_cases sel
  have hloc := errLocation_eq sel (p := p) (by omega)
  rw [dataLocation, bitPos_eq (by omega)]
  omega

theorem dataLocation_lt (p : ℕ) : dataLocation sel p < kkShorten := by
  unfold dataLocation kkShorten
  omega

/-- Everything else that is recorded is not the number of a data bit. -/
theorem le_errLocation (hp : p < nn) (hda : ¬ InData sel p) : kkShorten ≤ errLocation sel p := by
  have hk : kkShorten = 4096 := rfl
  have hnn : nn = 8191 := rfl
  have hbt := eccBits_cases sel
  have hloc := errLocation_eq sel hp
  unfold InData at hda
  omega

theorem errLocation_injOn (hp : p < nn) (hq : q < nn)
    (h : errLocation sel p = errLocation sel q) : p = q := by
  have hnn : nn = 8191 := rfl
  have hlp := errLocation_eq sel hp
  have hlq := errLocation_eq sel hq
  omega

end Location

/-! ## The locator polynomial from `berlekamp` -/

theorem synT_eq {sel : ℕ} (hsel : sel ≤ 1) : synT sel = (sel + 1) * 4 ∧ 4 <<< sel = synT sel := by
  interval_cases sel <;> exact ⟨rfl, rfl⟩

/-- Coefficients `1..8` determine a polynomial of degree at most eight with constant
term one. -/
private theorem elpEval_eq_eval {f : Polynomial GF} {err : List ℕ} (hl : err.length = 8)
    (hcf : ∀ j < 8, val (err.getD j 0) = f.coeff (j + 1)) (h0 : f.coeff 0 = 1)
    (hdeg : f.natDegree ≤ 8) (x : GF) : elpEval err x = f.eval x := by
  have hsl : f.eval x = ∑ j ∈ range 8, f.coeff (j + 1) * x ^ (j + 1) + 1 := by
    rw [Polynomial.eval_eq_sum_range' (Nat.lt_succ_of_le hdeg), sum_range_succ' _ 8, h0, pow_zero,
      mul_one]
  rw [elpEval, hl, hsl, add_comm]
  congr 1
  apply sum_congr rfl
  intro j hj
  rw [hcf j (mem_range.1 hj)]

/-- What `berlekamp` hands to the search, for a run that stays within bounds. -/
theorem berlekamp_spec {sel : ℕ} (hsel : sel ≤ 1) {S : PowerSeries GF} {synd : List ℕ}
    (hsy : IsSynd S (2 * synT sel) synd) (hL : ∀ j < 2 * synT sel, (elp S j).L ≤ synT sel)
    (hla : sel = 1 → elpDisc S 15 (elp S 15) = 0) :
    (berlekamp sel synd).1 = (elp S (2 * synT sel)).L ∧
      (∀ j, (berlekamp sel synd).2.getD j 0 < 2 ^ 13) ∧ ((elp S (2 * synT sel)).sigma.coeff 0 = 1 →
        (elp S (2 * synT sel)).sigma.natDegree ≤ 8 → ∀ x, elpEval (berlekamp sel synd).2 x
          = (elp S (2 * synT sel)).sigma.eval x) := by
  obtain ⟨hT, -⟩ := synT_eq hsel
  have hT2 : 2 * synT sel = (sel + 1) * 2 * 4 := by omega
  rw [hT2] at hsy hL ⊢
  rw [hT] at hL
  have h := bmLoop_holds hsy (by omega) hL (fun hlt => hla (by omega)) _ 0 _ (zero_add _)
    (bmInit_holds)
  have hce : ∀ j < 8, (berlekamp sel synd).2.getD j 0
      = (bmLoop sel synd ((sel + 1) * 2 * 4) bmInit).gammas.getD (j + 1) 0 := by
    intro j hj
    simp only [berlekamp]
    rw [List.getD_eq_getElem?_getD, List.getElem?_take, if_pos hj, List.getElem?_drop,
      List.getD_eq_getElem?_getD, add_comm 1 j]
  have hl : (berlekamp sel synd).2.length = 8 := by
    have := h.gammas_length
    simp only [berlekamp, List.length_take, List.length_drop]
    omega
  refine ⟨h.LL, ?_, ?_⟩
  · intro j
    rcases lt_or_ge j 8 with hj | hj
    · rw [hce j hj]
      exact h.gammas_lt _
    rw [List.getD_eq_default _ _ (by omega)]
    norm_num
  · intro h0 hdeg x
    refine elpEval_eq_eval hl (fun j hj => ?_) h0 hdeg x
    rw [hce j hj, h.sigma (j + 1) (by omega)]

/-! ## The location array -/

theorem decodeBch_fst_congr (errLoc errLoc' : List ℕ) :
    (decodeBch sel ecc errLoc).1 = (decodeBch sel ecc errLoc').1 := by
  simp only [decodeBch]
  split
  · exact chien_fst_congr _ _ _
  · rfl

theorem decodeBch_length (errLoc : List ℕ) :
    (decodeBch sel ecc errLoc).2.length = errLoc.length := by
  simp only [decodeBch]
  split
  · exact chien_length
  · rfl

/-! ## Clean runs -/

section Clean

variable {sel : ℕ} {E : Finset ℕ} (hE : ∀ p ∈ E, p < nn)
  (hcd : E.card ≤ synT sel) (hcln : Clean (errSeries E) (synT sel))
include hE hcd hcln

/-- The length and the polynomial at the end of a clean run. -/
theorem elp_of_clean : (elp (errSeries E) (2 * synT sel)).L = E.card ∧
      (elp (errSeries E) (2 * synT sel)).sigma = locator (locators E) ∧
      (∀ j < 2 * synT sel, (elp (errSeries E) j).L ≤ synT sel) := by
  have hS := errSeries_isFrobenius E
  have hS0 := errSeries_zero E
  have hf0 := locator_coeff_zero (locators E)
  have hdeg := locator_errors_natDegree hE
  have hnw := fun j (_ : j ≤ 2 * synT sel) => newton_errSeries E j
  have hsep := locator_separable (zero_notMem_locators E)
  obtain ⟨hsg, hL, -⟩ := elp_eq_bm hS hS0 hcln le_rfl
  refine ⟨?_, ?_, ?_⟩
  · rw [hL, bm_L_eq hS hS0 hf0 hnw hsep (by omega), hdeg]
  · rw [hsg, bm_sigma_eq hS hS0 hf0 hnw hsep (by omega)]
  intro j hj
  rcases Nat.even_or_odd' j with ⟨k, rfl | rfl⟩
  · have := bm_L_le hS hS0 hf0 hnw (k := k) (by omega)
    rw [(elp_eq_bm hS hS0 hcln (by omega)).2.1]
    omega
  have := bm_L_le hS hS0 hf0 hnw (k := k + 1) (by omega)
  rw [(elp_clean_run hS hS0 hcln (by omega)).1]
  omega

variable (hsel : sel ≤ 1) {ecc : List UInt8} (hsn : HasSyndromes sel E ecc)
include hsel hsn

/-- On a clean run the search is for the errors themselves. -/
theorem decodeBch_eq_chien (errLoc : List ℕ) : ∃ err : List ℕ, (∀ j, err.getD j 0 < 2 ^ 13) ∧
      (∀ p < nn, Hit sel err p ↔ p ∈ E ∧ 2 * eccBits sel ≤ p + 1) ∧
      decodeBch sel ecc errLoc = chien sel E.card err errLoc := by
  obtain ⟨hL, hsg, hbd⟩ := elp_of_clean hE hcd hcln
  have hla : sel = 1 → elpDisc (errSeries E) 15 (elp (errSeries E) 15) = 0 := by
    rintro rfl
    exact (elp_clean_run (errSeries_isFrobenius E) (errSeries_zero E) hcln (k := 7) (by decide)).2
  have h8 := synT_le sel
  obtain ⟨hLL, hlt, hev⟩ :=
    berlekamp_spec hsel (isSynd_of_hasSyndromes hE hsn) hbd hla
  rw [hL] at hLL
  rw [hsg] at hev
  refine ⟨_, hlt, ?_, ?_⟩
  · intro p hp
    rw [Hit, hev (locator_coeff_zero _) (by rw [locator_errors_natDegree hE]; omega),
      eval_locator_errors hE hp]
  have hle : E.card ≤ 4 <<< sel := by rw [(synT_eq hsel).2]; exact hcd
  simp only [decodeBch]
  rw [hLL, if_pos hle]

/-- **Errors outside the skipped part of the parity area are found.** -/
theorem decodeBch_of_clean (hpr : ∀ p ∈ E, 2 * eccBits sel ≤ p + 1) {errLoc : List ℕ}
    (hl : synT sel ≤ errLoc.length) :
    ∃ hs : List ℕ, hs.Nodup ∧ hs.length = E.card ∧ (∀ p, p ∈ hs ↔ p ∈ E) ∧
      decodeBch sel ecc errLoc = ((E.card : ℤ), recorded sel hs errLoc) := by
  obtain ⟨err, hlt, hhit, heq⟩ := decodeBch_eq_chien hE hcd hcln hsel hsn errLoc
  have hm : ∀ p, p ∈ hits sel err nn ↔ p ∈ E := by
    intro p
    rw [mem_hits]
    constructor
    · rintro ⟨hp, hit⟩
      exact ((hhit p hp).1 hit).1
    intro hp
    exact ⟨hE p hp, (hhit p (hE p hp)).2 ⟨hp, hpr p hp⟩⟩
  have hc : (hits sel err nn).length = E.card := by
    rw [← List.toFinset_card_of_nodup hits_nodup]
    congr 1
    ext p
    rw [List.mem_toFinset, hm]
  refine ⟨_, hits_nodup, hc, hm, ?_⟩
  rw [heq, chien_of_hits sel hlt (by omega) hc]

/-- **One error in the skipped part of the parity area is a failure.** -/
theorem decodeBch_of_parity {q : ℕ} (hq : q ∈ E) (hsk : q + 1 < 2 * eccBits sel)
    {errLoc : List ℕ} (hl : synT sel ≤ errLoc.length) : (decodeBch sel ecc errLoc).1 = -1 := by
  obtain ⟨err, hlt, hhit, heq⟩ := decodeBch_eq_chien hE hcd hcln hsel hsn errLoc
  have hsub : (hits sel err nn).toFinset ⊆ E.erase q := by
    intro p hp
    rw [List.mem_toFinset, mem_hits] at hp
    obtain ⟨hpE, hge⟩ := (hhit p hp.1).1 hp.2
    refine mem_erase.2 ⟨?_, hpE⟩
    omega
  have hc := card_le_card hsub
  have hps := card_pos.2 ⟨q, hq⟩
  rw [List.toFinset_card_of_nodup hits_nodup, card_erase_of_mem hq] at hc
  rw [heq]
  exact chien_of_few sel hlt (by omega) (by omega)

end Clean

end NestLinux.Mtd.Bch
