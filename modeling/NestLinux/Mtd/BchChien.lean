import NestLinux.Mtd.BchField

/-!
# The Chien search

`chien` evaluates the error locator polynomial at `1`, `alpha^-1`, `alpha^-2`, … by
scaling its coefficients, and records the exponents where it vanishes. An exponent
below `2 * ecc_bits - 1` is passed over, in the list and in the count.
-/

namespace NestLinux.Mtd.Bch

open List

/-- `ELP(x) = 1 + err0.x + err1.x^2 + ...`. -/
noncomputable def elpEval (err : List ℕ) (x : GF) : GF :=
  1 + ∑ j ∈ Finset.range err.length, val (err.getD j 0) * x ^ (j + 1)

/-- The search records the exponent `p`. -/
def Hit (select48 : ℕ) (err : List ℕ) (p : ℕ) : Prop :=
  elpEval err (alpha ^ p)⁻¹ = 0 ∧ 2 * eccBits select48 ≤ p + 1

open Classical in
/-- The exponents below `m` that the search records, in its order. -/
noncomputable def hits (select48 : ℕ) (err : List ℕ) (m : ℕ) : List ℕ :=
  (List.range m).filter fun p => decide (Hit select48 err p)

variable {m : ℕ} {gs err location : List ℕ}

section Hits

variable {sel : ℕ}

theorem mem_hits {p : ℕ} : p ∈ hits sel err m ↔ p < m ∧ Hit sel err p := by
  simp [hits]

theorem hits_nodup : (hits sel err m).Nodup := nodup_range.filter _

theorem hits_succ_of_hit (h : Hit sel err m) : hits sel err (m + 1) = hits sel err m ++ [m] := by
  simp [hits, range_succ, h]

theorem hits_succ_of_not_hit (h : ¬ Hit sel err m) : hits sel err (m + 1) = hits sel err m := by
  simp [hits, range_succ, h]

theorem hits_isPrefix (sel : ℕ) (err : List ℕ) {m' : ℕ} (h : m ≤ m') :
    hits sel err m <+: hits sel err m' := by
  induction h with
  | refl => exact prefix_rfl
  | @step m' _ ih =>
    refine ih.trans ?_
    by_cases hit : Hit sel err m'
    · rw [hits_succ_of_hit hit]
      exact prefix_append _ _
    · rw [hits_succ_of_not_hit hit]

end Hits

/-! ## One turn -/

private theorem val_foldl_xor (gs : List ℕ) (a : ℕ) :
    val (gs.foldl (· ^^^ ·) a) = val a + ∑ j ∈ Finset.range gs.length, val (gs.getD j 0) := by
  induction gs generalizing a with
  | nil => simp
  | cons g gs ih =>
    rw [foldl_cons, ih, length_cons, Finset.sum_range_succ', val_xor]
    simp only [getD_cons_succ, getD_cons_zero]
    ring

private theorem foldl_xor_lt (h : ∀ j, gs.getD j 0 < 2 ^ 13) {a : ℕ}
    (ha : a < 2 ^ 13) : gs.foldl (· ^^^ ·) a < 2 ^ 13 := by
  induction gs generalizing a with
  | nil => exact ha
  | cons g gs ih =>
    exact ih (fun j => h (j + 1)) (Nat.xor_lt_two_pow ha (h 0))

private theorem scaleGammas_length (gs : List ℕ) (a : ℕ) :
    (scaleGammas a gs).length = gs.length := by
  induction gs generalizing a with
  | nil => rfl
  | cons g gs ih => rw [scaleGammas, length_cons, ih, length_cons]

private theorem alphaInv_lt : PPP >>> 1 < 2 ^ 13 := by decide

/-- Coefficient `j` is multiplied by `a * alpha^-j`. -/
private theorem scaleGammas_getD (h : ∀ j, gs.getD j 0 < 2 ^ 13) {a : ℕ} (ha : a < 2 ^ 13) (j : ℕ) :
    (scaleGammas a gs).getD j 0 < 2 ^ 13 ∧
      val ((scaleGammas a gs).getD j 0) = val (gs.getD j 0) * (val a * (alpha⁻¹) ^ j) := by
  induction gs generalizing a j with
  | nil => simp [scaleGammas]
  | cons g gs ih =>
    rw [scaleGammas]
    cases j with
    | zero =>
      have hg : g < 2 ^ 13 := h 0
      simp only [pow_zero, mul_one]
      exact ⟨mpyModGf_lt hg ha, val_mpyModGf hg ha⟩
    | succ j =>
      simp only [getD_cons_succ]
      obtain ⟨hlt, hv⟩ := ih (fun j => h (j + 1)) (mpyModGf_lt ha alphaInv_lt) j
      refine ⟨hlt, ?_⟩
      rw [hv, val_mpyModGf ha alphaInv_lt, val_alphaInv]
      ring

/-- The registers before turn `m + 1`: coefficient `j` times `alpha^(-(j+1) m)`. -/
private structure Scaled (err : List ℕ) (m : ℕ) (gs : List ℕ) : Prop where
  length : gs.length = err.length
  lt : ∀ j, gs.getD j 0 < 2 ^ 13
  val_eq : ∀ j, val (gs.getD j 0) = val (err.getD j 0) * ((alpha ^ m)⁻¹) ^ (j + 1)

private theorem Scaled.elpSum (h : Scaled err m gs) :
    gs.foldl (· ^^^ ·) 1 = 0 ↔ elpEval err (alpha ^ m)⁻¹ = 0 := by
  rw [← val_eq_zero (foldl_xor_lt h.lt (by norm_num)), val_foldl_xor, val_one, h.length, elpEval]
  simp only [h.val_eq]

private theorem Scaled.scale (h : Scaled err m gs) :
    Scaled err (m + 1) (scaleGammas (PPP >>> 1) gs) := by
  refine ⟨(scaleGammas_length gs _).trans h.length,
    fun j => (scaleGammas_getD h.lt alphaInv_lt j).1, fun j => ?_⟩
  rw [(scaleGammas_getD h.lt alphaInv_lt j).2, h.val_eq, val_alphaInv, pow_succ alpha m, mul_inv]
  ring

/-- The location array when the hits `hs` have been written to it. -/
def recorded (select48 : ℕ) (hs : List ℕ) (location : List ℕ) : List ℕ :=
  hs.map (errLocation select48) ++ location.drop hs.length

private theorem recorded_set {sel p : ℕ} {hs : List ℕ} (h : hs.length < location.length) :
    (recorded sel hs location).set hs.length (errLocation sel p)
      = recorded sel (hs ++ [p]) location := by
  rw [recorded, set_append_right _ _ (by simp), length_map, Nat.sub_self, drop_eq_getElem_cons h,
    set_cons_zero, recorded]
  simp

theorem recorded_take (hs location : List ℕ) :
    (recorded sel hs location).take hs.length = hs.map (errLocation sel) := by
  rw [recorded, take_left' (by simp)]

/-- The state before turn `m + 1`. -/
private structure ChienInv (select48 : ℕ) (err location : List ℕ) (m : ℕ) (s : ChienState) :
    Prop where
  count : s.count = (hits select48 err m).length
  gammas : Scaled err m s.gammas
  location : s.location = recorded select48 (hits select48 err m) location

private theorem ChienInv.step {sel : ℕ} {s : ChienState} (h : ChienInv sel err location m s)
    (hl : (hits sel err m).length < location.length) :
    ChienInv sel err location (m + 1) (chienStep sel (m + 1) s) := by
  have hcn : (s.gammas.foldl (· ^^^ ·) 1 = 0 ∧ 2 * eccBits sel ≤ m + 1)
      ↔ Hit sel err m := by
    rw [h.gammas.elpSum, Hit]
  simp only [chienStep]
  by_cases hit : Hit sel err m
  · rw [if_pos (hcn.2 hit)]
    refine ⟨?_, h.gammas.scale, ?_⟩
    · simp [h.count, hits_succ_of_hit hit]
    · simp [h.location, h.count, hits_succ_of_hit hit, recorded_set hl]
  rw [if_neg (mt hcn.1 hit)]
  refine ⟨?_, h.gammas.scale, ?_⟩
  · simp [h.count, hits_succ_of_not_hit hit]
  · simp [h.location, hits_succ_of_not_hit hit]

private theorem chienLoop_inv {sel num : ℕ} (hl : num ≤ location.length) :
    ∀ k m s, m + k = nn → ChienInv sel err location m s → (hits sel err m).length ≤ num →
      ∃ m' ≤ nn, ChienInv sel err location m' (chienLoop sel num k (m + 1) s) ∧
        (hits sel err m').length ≤ num ∧ (m' = nn ∨ (hits sel err m').length = num) := by
  intro k
  induction k with
  | zero =>
    intro m s hm h hle
    exact ⟨m, by omega, h, hle, .inl (by omega)⟩
  | succ k ih =>
    intro m s hm h hle
    rw [chienLoop]
    by_cases hlt : s.count < num
    · rw [if_pos hlt]
      have hc := h.count
      refine ih (m + 1) _ (by omega) (h.step (by omega)) ?_
      by_cases hit : Hit sel err m
      · rw [hits_succ_of_hit hit, length_append, length_singleton]
        omega
      rw [hits_succ_of_not_hit hit]
      exact hle
    · rw [if_neg hlt]
      have hc := h.count
      exact ⟨m, by omega, h, hle, .inr (by omega)⟩

/-! ## The location array

What the array held before has no influence on the count, and no write changes its
length. -/

private theorem chienStep_congr (sel i : ℕ) {s s' : ChienState} (hc : s.count = s'.count)
    (hgm : s.gammas = s'.gammas) : (chienStep sel i s).count = (chienStep sel i s').count ∧
      (chienStep sel i s).gammas = (chienStep sel i s').gammas := by
  simp only [chienStep, hgm]
  split
  · exact ⟨congrArg (· + 1) hc, rfl⟩
  · exact ⟨hc, rfl⟩

private theorem chienLoop_congr (sel num : ℕ) (k i : ℕ) {s s' : ChienState}
    (hct : s.count = s'.count) (hgm : s.gammas = s'.gammas) :
    (chienLoop sel num k i s).count = (chienLoop sel num k i s').count := by
  induction k generalizing i s s' with
  | zero => exact hct
  | succ k ih =>
    rw [chienLoop, chienLoop, hct]
    split
    · obtain ⟨hc, hg⟩ := chienStep_congr sel i hct hgm
      exact ih (i + 1) hc hg
    · exact hct

theorem chien_fst_congr (err location location' : List ℕ) :
    (chien sel num err location).1 = (chien sel num err location').1 := by
  have h : (chienLoop sel num nn 1 ⟨0, err, location⟩).count
      = (chienLoop sel num nn 1 ⟨0, err, location'⟩).count :=
    chienLoop_congr sel num nn 1 rfl rfl
  simp [chien, h]

private theorem chienLoop_length (sel num : ℕ) (k i : ℕ) (s : ChienState) :
    (chienLoop sel num k i s).location.length = s.location.length := by
  induction k generalizing i s with
  | zero => rfl
  | succ k ih =>
    rw [chienLoop]
    split
    · rw [ih, chienStep]
      split
      · exact length_set
      · rfl
    · rfl

theorem chien_length :
    (chien sel num err location).2.length = location.length :=
  chienLoop_length sel num nn 1 _

/-! ## The search -/

section Search

variable (sel : ℕ) {num : ℕ}
  (herr : ∀ j, err.getD j 0 < 2 ^ 13) (hl : num ≤ location.length)
include herr hl

/-- **Specification of `chien`.** -/
theorem chien_spec : ∃ m ≤ nn, (hits sel err m).length ≤ num ∧
      (m = nn ∨ (hits sel err m).length = num) ∧ chien sel num err location
        = (if (hits sel err m).length ≠ num then -1 else (num : ℤ),
          recorded sel (hits sel err m) location) := by
  have hin : ChienInv sel err location 0 ⟨0, err, location⟩ := by
    refine ⟨rfl, ⟨rfl, herr, fun j => by simp⟩, ?_⟩
    simp [hits, recorded]
  obtain ⟨m, hm, hiv, hle, hst⟩ :=
    chienLoop_inv hl nn 0 _ (Nat.zero_add _) hin (by simp [hits])
  refine ⟨m, hm, hle, hst, ?_⟩
  have hc := hiv.count
  have hloc := hiv.location
  simp only [chien]
  rw [hc, hloc]
  by_cases heq : (hits sel err m).length = num
  · rw [if_neg (by simpa using heq), if_neg (by simpa using heq), heq]
  · rw [if_pos heq, if_pos heq]

/-- All hits are found when there are as many as announced. -/
theorem chien_of_hits (h : (hits sel err nn).length = num) : chien sel num err location
      = ((num : ℤ), recorded sel (hits sel err nn) location) := by
  obtain ⟨m, hm, hle, hst, heq⟩ := chien_spec sel herr hl
  have ha : hits sel err m = hits sel err nn := by
    rcases hst with rfl | hfu
    · rfl
    · exact (hits_isPrefix sel err hm).eq_of_length (hfu.trans h.symm)
  rw [heq, ha, if_neg (by simpa using h)]

/-- Fewer hits than announced are a failure. -/
theorem chien_of_few (h : (hits sel err nn).length < num) :
    (chien sel num err location).1 = -1 := by
  obtain ⟨m, hm, hle, hst, heq⟩ := chien_spec sel herr hl
  have := (hits_isPrefix sel err hm).length_le
  rw [heq, if_pos (by omega)]

/-- What a successful search reports are hits. -/
theorem chien_sound (h : (chien sel num err location).1 ≠ -1) :
    (chien sel num err location).1 = num ∧
      ∃ hs : List ℕ, hs.Nodup ∧ hs.length = num ∧ (∀ p ∈ hs, p < nn ∧ Hit sel err p) ∧
        (chien sel num err location).2 = recorded sel hs location := by
  obtain ⟨m, hm, hle, hst, heq⟩ := chien_spec sel herr hl
  rw [heq] at h ⊢
  have hfu : (hits sel err m).length = num := by
    by_contra hne
    rw [if_pos hne] at h
    exact h rfl
  refine ⟨by rw [if_neg (by simpa using hfu)], _, hits_nodup, hfu, ?_, rfl⟩
  intro p hp
  rw [mem_hits] at hp
  exact ⟨by omega, hp.2⟩

end Search

end NestLinux.Mtd.Bch
