import NestLinux.Mtd.BchField

/-!
# The inversion of `berlekamp`

Step 1 of `berlekamp` inverts the discrepancy by a shift-only form of Euclid's
algorithm on `GF(2)[x]`: `u` and `v` hold two remainders, kept left aligned at bit 13,
and `invd` and `ss` their cofactors, kept as far to the right. `InvRel` makes the
alignment explicit. After `i` clocks `u` is `x^s f` and `v` is `x^r g` with `r + s = i + 1`,
where `f` and `g` are coprime and congruent to multiples of `d`; `e` is `s - r` and `sign`
says whether `r` is the larger, which is when the next subtraction swaps the roles.

After 25 clocks both shifts are 13, so `f` is the constant `1` and its cofactor is the
inverse of `d` (`val_inversion`).
-/

namespace NestLinux.Mtd.Bch

open Lib Polynomial

/-- The polynomial a register holds. -/
noncomputable def poly (n : ℕ) : (ZMod 2)[X] := binEval X n

theorem poly_xor (m n : ℕ) : poly (m ^^^ n) = poly m + poly n := binEval_xor _ m n

theorem poly_two_mul (n : ℕ) : poly (2 * n) = X * poly n := binEval_two_mul _ n

theorem coeff_poly (n i : ℕ) : (poly n).coeff i = if n.testBit i then 1 else 0 :=
  coeff_binEval_X n i

theorem val_eq_mk (n : ℕ) : val n = AdjoinRoot.mk primPoly (poly n) := by
  rw [poly, map_binEval]
  rfl

/-- A register whose polynomial is a multiple of `x` is shifted right exactly. -/
theorem poly_shiftRight {n : ℕ} {p : (ZMod 2)[X]} (h : poly n = X * p) : poly (n >>> 1) = p := by
  have hb : n.testBit 0 = false := by
    have hc := coeff_poly n 0
    rw [h] at hc
    by_contra hne
    rw [Bool.not_eq_false] at hne
    simp [hne] at hc
  have hev : n = 2 * (n >>> 1) := by
    have : n % 2 = 0 := by
      simpa using hb
    omega
  have hX : X * poly (n >>> 1) = X * p := by rw [← poly_two_mul, ← hev, h]
  exact mul_left_cancel₀ X_ne_zero hX

/-- The contents of the registers after `i` clocks. -/
structure InvRel (d i r s : ℕ) (f g af ag : (ZMod 2)[X]) (st : InvState) : Prop where
  shifts : r + s = i + 1
  u_lt : st.u < 2 ^ 14
  u_top : st.u.testBit 13 = true
  v_lt : st.v < 2 ^ 14
  ss_lt : st.ss < 2 ^ 14
  invd_lt : st.invd < 2 ^ 13
  s_le : s ≤ 13
  r_le : r ≤ 13
  u_eq : poly st.u = X ^ s * f
  v_eq : poly st.v = X ^ r * g
  ss_eq : poly st.ss = X ^ (13 - s) * ag
  invd_eq : poly st.invd = X ^ (13 - r) * af
  cong_f : primPoly ∣ f + af * poly d
  cong_g : primPoly ∣ g + ag * poly d
  coprime : IsCoprime f g
  e_eq : st.e = (s : ℤ) - r
  sign_eq : st.sign = if s < r then 1 else 0

namespace InvRel

variable {d i r s : ℕ} {f g af ag : (ZMod 2)[X]} {st : InvState}

section

variable (h : InvRel d i r s f g af ag st)

include h

/-- If `g` has vanished then `f` is constant, so `s` is already 13. -/
theorem s_eq_of_g_eq_zero (hg : g = 0) : s = 13 := by
  have hun : IsUnit f := by
    have := h.coprime
    rw [hg] at this
    exact isCoprime_zero_right.1 this
  have hdeg : f.natDegree = 0 := natDegree_eq_zero_of_isUnit hun
  have hc := coeff_poly st.u 13
  rw [h.u_eq, h.u_top, coeff_X_pow_mul', if_pos h.s_le] at hc
  by_contra hne
  have hlt := h.s_le
  rw [coeff_eq_zero_of_natDegree_lt (by omega)] at hc
  exact zero_ne_one hc

/-- A register `x^r g` with no bit at or above `r` holds zero. -/
theorem g_eq_zero (hv : st.v < 2 ^ r) : g = 0 := by
  ext n
  have hc := coeff_poly st.v (n + r)
  have hlt : st.v < 2 ^ (n + r) :=
    lt_of_lt_of_le hv (Nat.pow_le_pow_right (by norm_num) (by omega))
  rw [h.v_eq, coeff_X_pow_mul, Nat.testBit_lt_two_pow hlt, if_neg (by simp)] at hc
  rw [hc, coeff_zero]

/-- Before the last clock, only a register with its top bit set can have `r = 13`. -/
theorem r_lt (hi : i < 25) (hcs : st.v < 2 ^ 13 ∨ r ≤ s) : r < 13 := by
  have hr := h.r_le
  have hsm := h.shifts
  by_contra hge
  obtain rfl : r = 13 := by omega
  rcases hcs with hv | hrs
  · have := h.s_eq_of_g_eq_zero (h.g_eq_zero hv)
    omega
  · omega

private theorem sum_lt (ht : st.v.testBit 13 = true) : st.v ^^^ st.u < 2 ^ 13 := by
  refine Nat.lt_pow_two_of_testBit _ fun j hj => ?_
  rw [Nat.testBit_xor]
  rcases eq_or_lt_of_le hj with rfl | hlt
  · rw [ht, h.u_top]; rfl
  rw [Nat.testBit_lt_two_pow (lt_of_lt_of_le h.v_lt (Nat.pow_le_pow_right (by norm_num) hlt)),
    Nat.testBit_lt_two_pow (lt_of_lt_of_le h.u_lt (Nat.pow_le_pow_right (by norm_num) hlt))]
  rfl

end

private theorem shl_mask {n : ℕ} (hn : n < 2 ^ 13) : (n <<< 1) &&& 0x3FFF = 2 * n := by
  rw [Nat.and_two_pow_sub_one_eq_mod _ 14]
  omega

private theorem X_pow_sub (hrs : r ≤ s) (hs : s ≤ 13) :
    (X : (ZMod 2)[X]) ^ (13 - r) = X ^ (13 - s) * X ^ (s - r) := by
  rw [← pow_add]
  congr 1
  omega

private theorem shiftRight_align {n : ℕ} (hr : r < 13) (hn : poly n = X ^ (13 - r) * f) :
    poly (n >>> 1) = X ^ (13 - (r + 1)) * f := by
  refine poly_shiftRight ?_
  rw [hn, show 13 - r = (13 - (r + 1)) + 1 by omega]
  ring

/-- Both sides of a congruence are reduced by those of the other. -/
private theorem dvd_sub_mul {p q : (ZMod 2)[X]} (hg : q ∣ g + ag * p) (hf : q ∣ f + af * p)
    (x : (ZMod 2)[X]) : q ∣ g + x * f + (ag + x * af) * p := by
  have heq : g + x * f + (ag + x * af) * p = (g + ag * p) + x * (f + af * p) := by ring
  rw [heq]
  exact dvd_add hg (dvd_mul_of_dvd_right hf _)

private theorem C1_eq (st : InvState) : (st.v >>> 13) &&& 1 = if st.v.testBit 13 then 1 else 0 := by
  rw [Nat.testBit_eq_decide_div_mod_eq, Nat.and_one_is_mod, Nat.shiftRight_eq_div_pow]
  rcases Nat.mod_two_eq_zero_or_one (st.v / 2 ^ 13) with hb | hb <;> (rw [hb]; rfl)

section

variable (h : InvRel d i r s f g af ag st)

include h

/-- The top bit of `v` is clear: both alignments move by one. -/
private theorem step_shift (hi : i < 25)
    (ht : st.v.testBit 13 = false) : InvRel d (i + 1) (r + 1) s f g af ag (invStep st) := by
  have hC1 := C1_eq st
  rw [ht] at hC1
  simp only [Bool.false_eq_true, if_false] at hC1
  have hv : st.v < 2 ^ 13 := by
    refine Nat.lt_pow_two_of_testBit _ fun j hj => ?_
    rcases eq_or_lt_of_le hj with rfl | hlt
    · exact ht
    exact Nat.testBit_lt_two_pow
      (lt_of_lt_of_le h.v_lt (Nat.pow_le_pow_right (by norm_num) hlt))
  have hr := h.r_lt hi (.inl hv)
  have hin := shiftRight_align hr h.invd_eq
  have hsg : st.sign ^^^ (0 ^^^ (if st.e = 0 then 1 else 0)) = if s < r + 1 then 1 else 0 := by
    rw [h.sign_eq, h.e_eq]
    rcases lt_trichotomy s r with hlt | heq | hgt
    · rw [if_pos hlt, if_neg (by omega), if_pos (by omega)]; rfl
    · rw [if_neg (by omega), if_pos (by omega), if_pos (by omega)]; rfl
    · rw [if_neg (by omega), if_neg (by omega), if_neg (by omega)]; rfl
  have hlt2 : st.invd >>> 1 < 2 ^ 13 := by
    have := h.invd_lt
    omega
  simp only [invStep, hC1, Nat.zero_and, if_neg (show ¬ (0 : ℕ) = 1 by decide), shl_mask hv]
  refine ⟨by have := h.shifts; omega, h.u_lt, h.u_top, by simp only; omega, h.ss_lt, hlt2, h.s_le,
    by omega, h.u_eq, ?_, h.ss_eq, hin, h.cong_f, h.cong_g, h.coprime, ?_, hsg⟩
  · rw [poly_two_mul, h.v_eq]
    ring
  rw [h.e_eq]
  push_cast
  ring

/-- The top bit of `v` is set and `f` is the smaller remainder: subtract it. -/
private theorem step_sub (hi : i < 25) (ht : st.v.testBit 13 = true) (hrs : r ≤ s) :
    InvRel d (i + 1) (r + 1) s f (g + X ^ (s - r) * f) af (ag + X ^ (s - r) * af) (invStep st) := by
  have hC1 := C1_eq st
  rw [ht] at hC1
  have hsg0 : st.sign = 0 := by rw [h.sign_eq, if_neg (by omega)]
  have hr := h.r_lt hi (.inr hrs)
  have hs := h.s_le
  have hin := shiftRight_align hr h.invd_eq
  have hsg : (0 : ℕ) ^^^ (0 ^^^ (if st.e = 0 then 1 else 0)) = if s < r + 1 then 1 else 0 := by
    rw [h.e_eq]
    rcases eq_or_lt_of_le hrs with heq | hgt
    · rw [if_pos (by omega), if_pos (by omega)]; rfl
    · rw [if_neg (by omega), if_neg (by omega)]; rfl
  have hlt2 : st.invd >>> 1 < 2 ^ 13 := by
    have := h.invd_lt
    omega
  have hXs := pow_mul_pow_sub (X : (ZMod 2)[X]) hrs
  have hXr := X_pow_sub hrs hs
  simp only [invStep, hC1, hsg0, if_true, shl_mask (h.sum_lt ht)]
  refine ⟨by have := h.shifts; omega, h.u_lt, h.u_top, ?_, ?_, hlt2, hs, by omega, h.u_eq, ?_, ?_,
    hin, h.cong_f, ?_, ?_, ?_, hsg⟩
  · have := h.sum_lt ht
    simp only
    omega
  · exact Nat.xor_lt_two_pow h.ss_lt (lt_trans h.invd_lt (by norm_num))
  · rw [poly_two_mul, poly_xor, h.v_eq, h.u_eq, ← hXs]
    ring
  · rw [poly_xor, h.ss_eq, h.invd_eq, hXr]
    ring
  · exact dvd_sub_mul h.cong_g h.cong_f _
  · rw [mul_comm (X ^ (s - r)) f]
    exact IsCoprime.add_mul_left_right h.coprime _
  rw [h.e_eq]
  push_cast
  ring

/-- The top bit of `v` is set and `g` is the smaller remainder: subtract it from `f` and
exchange the two. -/
private theorem step_swap (ht : st.v.testBit 13 = true) (hsr : s < r) :
    InvRel d (i + 1) (s + 1) r g (f + X ^ (r - s) * g) ag (af + X ^ (r - s) * ag) (invStep st) := by
  have hC1 := C1_eq st
  rw [ht] at hC1
  have hsg1 : st.sign = 1 := by rw [h.sign_eq, if_pos hsr]
  have hr := h.r_le
  have hin := shiftRight_align (by omega) h.ss_eq
  have hsg : (1 : ℕ) ^^^ (1 ^^^ (if st.e = 0 then 1 else 0)) = if r < s + 1 then 1 else 0 := by
    rw [h.e_eq, if_neg (by omega), if_neg (by omega)]
    rfl
  have hlt2 : st.ss >>> 1 < 2 ^ 13 := by
    have := h.ss_lt
    omega
  have hXr := pow_mul_pow_sub (X : (ZMod 2)[X]) hsr.le
  have hXs := X_pow_sub hsr.le hr
  simp only [invStep, hC1, hsg1, if_true, shl_mask (h.sum_lt ht)]
  refine ⟨by have := h.shifts; omega, h.v_lt, ht, ?_, ?_, hlt2, hr, by omega, h.v_eq, ?_, ?_,
    hin, h.cong_g, ?_, ?_, ?_, hsg⟩
  · have := h.sum_lt ht
    simp only
    omega
  · exact Nat.xor_lt_two_pow h.ss_lt (lt_trans h.invd_lt (by norm_num))
  · rw [poly_two_mul, poly_xor, h.v_eq, h.u_eq, ← hXr]
    ring
  · rw [poly_xor, h.ss_eq, h.invd_eq, hXs]
    ring
  · exact dvd_sub_mul h.cong_f h.cong_g _
  · rw [mul_comm (X ^ (r - s)) g]
    exact IsCoprime.add_mul_left_right h.coprime.symm _
  rw [h.e_eq]
  push_cast
  ring

theorem step (hi : i < 25) :
    ∃ r' s' f' g' af' ag', InvRel d (i + 1) r' s' f' g' af' ag' (invStep st) := by
  cases ht : st.v.testBit 13 with
  | false => exact ⟨_, _, _, _, _, _, h.step_shift hi ht⟩
  | true =>
    rcases lt_or_ge s r with hsr | hrs
    · exact ⟨_, _, _, _, _, _, h.step_swap ht hsr⟩
    · exact ⟨_, _, _, _, _, _, h.step_sub hi ht hrs⟩

end

end InvRel

theorem poly_PPP : poly PPP = primPoly := by
  rw [poly, binEval_eq_sum_range X (show PPP < 2 ^ 14 by decide), primPoly]
  simp [PPP, Finset.sum_range_succ, Nat.testBit]
  ring

private theorem invRel_zero {d : ℕ} (hd : d ≠ 0) (hlt : d < 2 ^ 13) :
    InvRel d 0 1 0 primPoly (poly d) 0 1 ⟨d <<< 1, PPP, 0x2000, 0, 1, -1⟩ := by
  have hne : poly d ≠ 0 := by
    intro h
    exact hd (binEval_X_injective (by rw [binEval_zero]; exact h))
  have hcop : IsCoprime primPoly (poly d) := by
    refine (primPoly_irreducible.coprime_iff_not_dvd).2 fun hdd => ?_
    have hle := degree_le_of_dvd hdd hne
    rw [degree_eq_natDegree primPoly_monic.ne_zero, primPoly_natDegree] at hle
    exact absurd hle (not_le.2 (degree_binEval_X_lt hlt))
  refine ⟨rfl, (by decide : PPP < 2 ^ 14), (by decide : PPP.testBit 13 = true), ?_,
    (by decide : 0x2000 < 2 ^ 14), (by decide : 0 < 2 ^ 13), by decide, by decide, ?_, ?_, ?_, ?_,
    ?_, ?_, hcop, by simp, by simp⟩
  · simp only [Nat.shiftLeft_eq]; omega
  · rw [poly_PPP]; simp
  · simp only [Nat.shiftLeft_eq]
    rw [mul_comm d 2, poly_two_mul, pow_one]
  · rw [show (0x2000 : ℕ) = 2 ^ 13 by rfl, poly, binEval_two_pow]
    simp
  · simp [poly]
  · simp
  have h2 : (2 : (ZMod 2)[X]) = 0 := CharTwo.two_eq_zero
  rw [one_mul, ← two_mul, h2]
  exact dvd_zero _

private theorem inversion_rel {d : ℕ} (hd : d ≠ 0) (hlt : d < 2 ^ 13) :
    ∃ r s f g af ag, InvRel d 25 r s f g af ag
      (forRange (2 * POLY + 1) (fun _ => invStep) ⟨d <<< 1, PPP, 0x2000, 0, 1, -1⟩) := by
  refine forRange_induction
    (fun i st => ∃ r s f g af ag, InvRel d i r s f g af ag st)
    ⟨_, _, _, _, _, _, invRel_zero hd hlt⟩ ?_
  rintro i st hi ⟨r, s, f, g, af, ag, h⟩
  exact h.step hi

theorem inversion_lt {d : ℕ} (hlt : d < 2 ^ 13) : inversion d < 2 ^ 13 := by
  unfold inversion
  split
  · next hd =>
      obtain ⟨r, s, f, g, af, ag, h⟩ := inversion_rel hd hlt
      exact h.invd_lt
  · norm_num

/-- **Step 1 of `berlekamp` inverts the discrepancy.** -/
theorem val_inversion {d : ℕ} (hd : d ≠ 0) (hlt : d < 2 ^ 13) : val (inversion d) = (val d)⁻¹ := by
  obtain ⟨r, s, f, g, af, ag, h⟩ := inversion_rel hd hlt
  have hr := h.r_le
  have hs := h.s_le
  have hsm := h.shifts
  obtain ⟨rfl, rfl⟩ : r = 13 ∧ s = 13 := by omega
  -- `x^13 f` fits in fourteen bits, so `f` is constant, and its top bit is set
  have hf : f = 1 := by
    ext n
    rw [← coeff_X_pow_mul f 13 n, ← h.u_eq, coeff_poly, coeff_one]
    rcases eq_zero_or_pos n with rfl | hn
    · rw [h.u_top]
      simp
    rw [Nat.testBit_lt_two_pow (lt_of_lt_of_le h.u_lt
      (Nat.pow_le_pow_right (by norm_num) (by omega))), if_neg (by simp), if_neg (by omega)]
  have hiv : poly (inversion d) = af := by
    rw [inversion, if_pos hd, h.invd_eq]
    simp
  have hdd := h.cong_f
  rw [hf, ← hiv] at hdd
  have hz := AdjoinRoot.mk_eq_zero.2 hdd
  rw [map_add, map_mul, ← val_eq_mk, ← val_eq_mk] at hz
  refine eq_inv_of_mul_eq_one_left ?_
  exact (CharTwo.add_eq_zero.1 hz).symm

end NestLinux.Mtd.Bch
