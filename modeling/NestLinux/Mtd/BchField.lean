import NestLinux.Lib.BinaryEval
import NestLinux.Mtd.BchDecoder
import Mathlib.FieldTheory.Finite.Basic
import Mathlib.Tactic.NormNum.Prime

/-!
# The field of the BCH decoder

`mpy_mod_gf` multiplies in `GF(2)[x] / (x^13 + x^4 + x^3 + x + 1)`. The multiplier is
correct in every ring of characteristic two with a root of the polynomial
(`binEval_mpyModGf`); squaring that root thirteen times with the multiplier itself
gives the root back, which forces every irreducible factor of the polynomial to have
degree thirteen. So the quotient is a field, and since `8191` is prime its generator
has order `8191`.
-/

namespace NestLinux.Mtd.Bch

open Lib Polynomial AdjoinRoot

/-! ## The multiplier in a ring with a root of the polynomial -/

section Ring

variable {R : Type*} [CommRing R] [CharP R 2] {a : R}

private theorem shiftLeft_mask_even (n : ℕ) : (n <<< 1) &&& 0x1FFE = 2 * n % 2 ^ 13 := by
  have h : (0x1FFE : ℕ) = 0xFFF <<< 1 := by decide
  rw [h, ← Nat.shiftLeft_and_distrib, Nat.and_two_pow_sub_one_eq_mod n 12]
  omega

private theorem shiftLeft_mask (n : ℕ) : (n <<< 1) &&& 0x1FFF = 2 * n % 2 ^ 13 := by
  rw [Nat.and_two_pow_sub_one_eq_mod _ 13]
  omega

private theorem topBit (n : ℕ) (hn : n < 2 ^ 13) : (n >>> 12) &&& 1 = 2 * n / 2 ^ 13 := by
  rw [Nat.and_one_is_mod]
  omega

theorem binEval_P (ha : a ^ 13 + a ^ 4 + a ^ 3 + a + 1 = 0) : binEval a P = a ^ 13 := by
  have h : binEval a P = a ^ 4 + a ^ 3 + a + 1 := by
    rw [binEval_eq_sum_range a (show P < 2 ^ 5 by decide)]
    simp [P, Finset.sum_range_succ, Nat.testBit]
    ring
  rw [h]
  have h2 : a ^ 13 + a ^ 13 = 0 := CharTwo.add_self_eq_zero _
  linear_combination ha - h2

/-- Doubling a word and folding the top bit back multiplies by the root. -/
theorem binEval_double (ha : a ^ 13 + a ^ 4 + a ^ 3 + a + 1 = 0) {n : ℕ} (hn : n < 2 ^ 13) :
    binEval a (if (n >>> 12) &&& 1 = 1 then (2 * n % 2 ^ 13) ^^^ P else 2 * n % 2 ^ 13)
      = a * binEval a n := by
  have hsl := binEval_split a (2 * n) 13
  rw [binEval_two_mul] at hsl
  rw [topBit n hn]
  split
  · next h =>
      rw [h, binEval_one, mul_one] at hsl
      rw [binEval_xor, binEval_P ha, hsl]
  next h =>
    have h0 : 2 * n / 2 ^ 13 = 0 := by omega
    rw [h0, binEval_zero, mul_zero, add_zero] at hsl
    exact hsl.symm

theorem double_lt (n : ℕ) :
    (if (n >>> 12) &&& 1 = 1 then (2 * n % 2 ^ 13) ^^^ P else 2 * n % 2 ^ 13) < 2 ^ 13 := by
  split
  · exact Nat.xor_lt_two_pow (Nat.mod_lt _ (by norm_num)) (by decide)
  · exact Nat.mod_lt _ (by norm_num)

theorem alphaStep_eq (n : ℕ) : alphaStep n
    = if (n >>> 12) &&& 1 = 1 then (2 * n % 2 ^ 13) ^^^ P else 2 * n % 2 ^ 13 := by
  simp [alphaStep, shiftLeft_mask, POLY]

theorem alphaStep_lt (n : ℕ) : alphaStep n < 2 ^ 13 := by
  rw [alphaStep_eq]
  exact double_lt n

section

variable (ha : a ^ 13 + a ^ 4 + a ^ 3 + a + 1 = 0)

include ha

/-- The loop invariant of `mpy_mod_gf` after `k` turns: `R` is the product of `b` and
the `k` top bits of `x`, and `R1` is the bit of `R` that the next shift pushes out. -/
private theorem mpyStep_inv {x b : ℕ} (hx : x < 2 ^ 13) (hb : b < 2 ^ 13) :
    (forRange mm (mpyStep x b) (0, 0)).1 < 2 ^ 13 ∧
      binEval a (forRange mm (mpyStep x b) (0, 0)).1 = binEval a x * binEval a b := by
  have key := forRange_induction (n := mm) (f := mpyStep x b) (a := (0, 0))
    (fun k s => s.1 < 2 ^ 13 ∧ binEval a s.1 = binEval a (x >>> (13 - k)) * binEval a b ∧
      (k ≤ 12 → s.2 = (s.1 >>> 12) &&& 1)) ?base ?step
  · exact ⟨key.1, by simpa [mm] using key.2.1⟩
  case base =>
    have h0 : x >>> 13 = 0 := by rw [Nat.shiftRight_eq_div_pow]; omega
    simp [h0]
  case step =>
    rintro k ⟨r, r1⟩ hk ⟨hr, hv, hr1⟩
    simp only at hr hv hr1
    have hk' : k < 13 := hk
    have hr1' := hr1 (by omega)
    have hdb := binEval_double ha hr
    have hlt := double_lt r
    have hbt : x >>> (13 - (k + 1)) = 2 * (x >>> (13 - k)) + (x >>> (12 - k)) % 2 := by
      have h1 : x >>> (13 - k) = (x >>> (12 - k)) / 2 := by
        rw [show 13 - k = (12 - k) + 1 by omega, Nat.shiftRight_succ]
      rw [show 13 - (k + 1) = 12 - k by omega]
      omega
    have hv' : binEval a (x >>> (13 - (k + 1)))
        = a * binEval a (x >>> (13 - k)) + binEval a ((x >>> (12 - k)) % 2) := by
      rw [hbt, binEval_split a _ 1]
      have hm : (2 * (x >>> (13 - k)) + (x >>> (12 - k)) % 2) % 2 ^ 1 = (x >>> (12 - k)) % 2 := by
        omega
      have hd : (2 * (x >>> (13 - k)) + (x >>> (12 - k)) % 2) / 2 ^ 1 = x >>> (13 - k) := by
        omega
      rw [hm, hd]
      ring
    simp only [mpyStep, POLY, shiftLeft_mask_even, hr1']
    rw [hv', Nat.and_one_is_mod]
    by_cases hodd : (x >>> (12 - k)) % 2 = 1
    · simp only [hodd, if_true]
      refine ⟨Nat.xor_lt_two_pow hlt hb, ?_, fun h => by rw [if_pos (by omega)]⟩
      rw [binEval_xor, hdb, hv, binEval_one]
      ring
    have h0 : (x >>> (12 - k)) % 2 = 0 := by omega
    simp only [h0, if_neg (show ¬ (0 : ℕ) = 1 by decide)]
    refine ⟨hlt, ?_, fun h => by rw [if_pos (by omega)]⟩
    rw [hdb, hv, binEval_zero]
    ring

theorem binEval_mpyModGf {x b : ℕ} (hx : x < 2 ^ 13)
    (hb : b < 2 ^ 13) : binEval a (mpyModGf x b) = binEval a x * binEval a b :=
  (mpyStep_inv ha hx hb).2

/-- Thirteen squarings with the multiplier itself bring the root back. -/
theorem pow_two_pow_eq : a ^ 2 ^ 13 = a := by
  have key := forRange_induction (n := 13) (f := fun _ n => mpyModGf n n) (a := 2)
    (fun k n => n < 2 ^ 13 ∧ a ^ 2 ^ k = binEval a n) ?base ?step
  · have h : forRange 13 (fun _ n => mpyModGf n n) 2 = 2 ^ 1 := by decide
    rw [key.2, h, binEval_two_pow, pow_one]
  case base => exact ⟨by decide, by rw [show (2 : ℕ) = 2 ^ 1 by rfl, binEval_two_pow]; simp⟩
  case step =>
    rintro k n - ⟨hn, hv⟩
    refine ⟨(mpyStep_inv ha hn hn).1, ?_⟩
    rw [binEval_mpyModGf ha hn hn, ← hv, pow_succ 2 k, pow_mul, sq]

end

theorem pow_order_eq_one {F : Type*} [Field F] [CharP F 2] {b : F}
    (hb : b ^ 13 + b ^ 4 + b ^ 3 + b + 1 = 0) : b ^ nn = 1 := by
  have hne : b ≠ 0 := by rintro rfl; simp at hb
  have h := pow_two_pow_eq hb
  have h' : b * b ^ nn = b * 1 := by rw [← pow_succ', mul_one]; exact h
  exact mul_left_cancel₀ hne h'

end Ring

/-! ## The field -/

/-- The primitive polynomial `x^13 + x^4 + x^3 + x + 1`. -/
noncomputable def primPoly : (ZMod 2)[X] := X ^ 13 + X ^ 4 + X ^ 3 + X + 1

theorem primPoly_natDegree : primPoly.natDegree = 13 := by
  unfold primPoly
  compute_degree!

theorem primPoly_monic : primPoly.Monic := by
  unfold primPoly
  monicity!

theorem aeval_primPoly {R : Type*} [CommRing R] [Algebra (ZMod 2) R] (r : R) :
    aeval r primPoly = r ^ 13 + r ^ 4 + r ^ 3 + r + 1 := by
  simp [primPoly]

theorem nn_prime : Nat.Prime nn := by
  unfold nn
  norm_num

/-- An irreducible factor of degree `e` makes the order of its root divide both
`2 ^ e - 1` and the prime `8191`; the root is not `1`, so `e` is at least thirteen. -/
private theorem natDegree_factor_ge {g : (ZMod 2)[X]} (hg : Irreducible g) (hd : g ∣ primPoly) :
    13 ≤ g.natDegree := by
  have : Fact (Irreducible g) := ⟨hg⟩
  have : CharP (AdjoinRoot g) 2 :=
    charP_of_injective_algebraMap (algebraMap (ZMod 2) (AdjoinRoot g)).injective 2
  set b := root g
  have hro : b ^ 13 + b ^ 4 + b ^ 3 + b + 1 = 0 := by
    exact mk_eq_zero.2 hd
  have hb0 : b ≠ 0 := by
    intro h
    rw [h] at hro
    simp at hro
  have hb1 : b ≠ 1 := by
    intro h
    rw [h] at hro
    have h2 : (2 : AdjoinRoot g) = 0 := CharTwo.two_eq_zero
    have : (1 : AdjoinRoot g) = 0 := by linear_combination hro - 2 * h2
    exact one_ne_zero this
  have hord : orderOf b = nn := by
    have : Fact (Nat.Prime nn) := ⟨nn_prime⟩
    exact orderOf_eq_prime (pow_order_eq_one hro) hb1
  let pb := powerBasis hg.ne_zero
  have : Module.Finite (ZMod 2) (AdjoinRoot g) := pb.finite
  have : Finite (AdjoinRoot g) := Module.finite_of_finite (ZMod 2)
  have : Fintype (AdjoinRoot g) := Fintype.ofFinite _
  have hcd : Fintype.card (AdjoinRoot g) = 2 ^ g.natDegree := by
    rw [Module.card_eq_pow_finrank (K := ZMod 2), ZMod.card, pb.finrank, powerBasis_dim]
  have hdv : nn ∣ 2 ^ g.natDegree - 1 := by
    rw [← hord, ← hcd]
    exact orderOf_dvd_of_pow_eq_one (FiniteField.pow_card_sub_one_eq_one b hb0)
  by_contra hlt
  have hp : 0 < g.natDegree := Irreducible.natDegree_pos hg
  have hle : 2 ^ g.natDegree ≤ 2 ^ 12 := Nat.pow_le_pow_right (by norm_num) (by omega)
  have hge : 2 ^ 1 ≤ 2 ^ g.natDegree := Nat.pow_le_pow_right (by norm_num) hp
  have := Nat.le_of_dvd (by omega) hdv
  unfold nn at this
  omega

theorem primPoly_irreducible : Irreducible primPoly := by
  have hdeg := primPoly_natDegree
  have hun : ¬ IsUnit primPoly := by
    intro h
    have := natDegree_eq_zero_of_isUnit h
    omega
  obtain ⟨g, hg, c, hc⟩ := WfDvdMonoid.exists_irreducible_factor hun primPoly_monic.ne_zero
  have hge := natDegree_factor_ge hg ⟨c, hc⟩
  have hcne : c ≠ 0 := by rintro rfl; exact primPoly_monic.ne_zero (by rw [hc, mul_zero])
  have hsm := natDegree_mul hg.ne_zero hcne
  rw [← hc] at hsm
  have hcn : IsUnit c := isUnit_iff_degree_eq_zero.2 (by
    rw [degree_eq_natDegree hcne]
    have : c.natDegree = 0 := by omega
    rw [this]
    rfl)
  rw [hc]
  exact (irreducible_mul_isUnit hcn).2 hg

instance : Fact (Irreducible primPoly) := ⟨primPoly_irreducible⟩

/-- `GF(2)[x] / (x^13 + x^4 + x^3 + x + 1)`. -/
abbrev GF : Type := AdjoinRoot primPoly

noncomputable instance : Field GF := inferInstance

instance : CharP GF 2 :=
  charP_of_injective_algebraMap (algebraMap (ZMod 2) GF).injective 2

/-- The primitive element `x`. -/
noncomputable def alpha : GF := root primPoly

theorem alpha_root : alpha ^ 13 + alpha ^ 4 + alpha ^ 3 + alpha + 1 = 0 := by
  rw [← aeval_primPoly, alpha, aeval_eq, mk_self]

theorem alpha_ne_zero : alpha ≠ 0 := by
  intro h
  have := alpha_root
  rw [h] at this
  simp at this

theorem orderOf_alpha : orderOf alpha = nn := by
  have : Fact (Nat.Prime nn) := ⟨nn_prime⟩
  refine orderOf_eq_prime (pow_order_eq_one alpha_root) ?_
  intro h
  have hro := alpha_root
  rw [h] at hro
  have h2 : (2 : GF) = 0 := CharTwo.two_eq_zero
  have : (1 : GF) = 0 := by linear_combination hro - 2 * h2
  exact one_ne_zero this

/-- Exponents below `8191` are determined by the powers. -/
theorem alpha_pow_inj {p q : ℕ} (hp : p < nn) (hq : q < nn) (h : alpha ^ p = alpha ^ q) :
    p = q := by
  refine pow_injOn_Iio_orderOf ?_ ?_ h
  · rw [orderOf_alpha]; exact hp
  · rw [orderOf_alpha]; exact hq

/-! ## Words as field elements -/

/-- The field element a word holds. -/
noncomputable def val (n : ℕ) : GF := binEval alpha n

@[simp] theorem val_zero : val 0 = 0 := binEval_zero _

@[simp] theorem val_one : val 1 = 1 := binEval_one _

theorem val_xor (m n : ℕ) : val (m ^^^ n) = val m + val n := binEval_xor _ m n

theorem val_two_pow (k : ℕ) : val (2 ^ k) = alpha ^ k := binEval_two_pow _ k

theorem mpyModGf_lt {x b : ℕ} (hx : x < 2 ^ 13) (hb : b < 2 ^ 13) : mpyModGf x b < 2 ^ 13 :=
  (mpyStep_inv alpha_root hx hb).1

theorem val_mpyModGf {x b : ℕ} (hx : x < 2 ^ 13) (hb : b < 2 ^ 13) :
    val (mpyModGf x b) = val x * val b :=
  binEval_mpyModGf alpha_root hx hb

theorem val_alphaStep {n : ℕ} (hn : n < 2 ^ 13) : val (alphaStep n) = alpha * val n := by
  rw [alphaStep_eq]
  exact binEval_double alpha_root hn

theorem val_eq_zero {n : ℕ} (hn : n < 2 ^ 13) : val n = 0 ↔ n = 0 := by
  constructor
  · intro h
    have hmk : mk primPoly (binEval X n) = 0 := by
      rw [map_binEval]
      exact h
    have hz : binEval (X : (ZMod 2)[X]) n = 0 := by
      by_contra hne
      have hd := mk_eq_zero.1 hmk
      have hle := degree_le_of_dvd hd hne
      have hlt := degree_binEval_X_lt (R := ZMod 2) hn
      rw [degree_eq_natDegree primPoly_monic.ne_zero, primPoly_natDegree] at hle
      exact absurd hle (not_le.2 hlt)
    exact binEval_X_injective (by rw [hz, binEval_zero])
  · rintro rfl
    exact val_zero

theorem val_alphaInv : val (PPP >>> 1) = alpha⁻¹ := by
  have h : val (PPP >>> 1) = alpha ^ 12 + alpha ^ 3 + alpha ^ 2 + 1 := by
    rw [val, binEval_eq_sum_range alpha (show PPP >>> 1 < 2 ^ 13 by decide)]
    simp [PPP, Finset.sum_range_succ, Nat.testBit]
    ring
  rw [h]
  refine eq_inv_of_mul_eq_one_left ?_
  have h2 : (2 : GF) = 0 := CharTwo.two_eq_zero
  linear_combination alpha_root - h2

end NestLinux.Mtd.Bch
