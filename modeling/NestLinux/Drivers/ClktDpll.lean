import Mathlib.Logic.Relation
import Mathlib.Tactic.Linarith
import Mathlib.Tactic.Ring

/-!
# Rate rounding of the OMAP DPLLs

`arch/arm/mach-omap2/clkt_dpll.c`: `omap2_dpll_round_rate` counts the divider up and keeps the
settings whose rate is below the target with the least error, up to a tolerance. `unsigned long`
has 32 bits, and a division by zero gives zero, as the division of `arch/arm/lib` does.
-/

namespace NestLinux.ClktDpll

open List

/-- The conversion to `int` or `long`. -/
def toInt (x : ℤ) : ℤ := if x % 2 ^ 32 < 2 ^ 31 then x % 2 ^ 32 else x % 2 ^ 32 - 2 ^ 32

/-- The fields of `struct dpll_data` that are used here. -/
structure DpllData where
  rateTolerance : ℕ
  maxMultiplier : ℕ
  minDivider : ℕ
  maxDivider : ℕ
  lastRoundedRate : ℕ := 0
  lastRoundedM : ℕ := 0
  lastRoundedN : ℕ := 0

def dpllFintBand1Min : ℕ := 750000

def dpllFintBand1Max : ℕ := 2100000

def dpllFintBand2Min : ℕ := 7500000

def dpllFintBand2Max : ℕ := 21000000

/-- The results of `_dpll_test_fint`. -/
inductive Fint
  | ok
  | underflow
  | invalid

def dpllTestFint (parent : ℕ) (dd : DpllData) (n : ℕ) : Fint × DpllData :=
  let fint := toInt ↑(parent / (n + 1))
  if fint < dpllFintBand1Min then (.underflow, { dd with maxDivider := n })
  else if dpllFintBand1Max < fint ∧ fint < dpllFintBand2Min then (.invalid, dd)
  else if dpllFintBand2Max < fint then (.invalid, { dd with minDivider := n })
  else (.ok, dd)

def dpllComputeNewRate (parent m n : ℕ) : ℕ := parent * m / n % 2 ^ 32

/-- `_dpll_test_mult`: whether `m` underflowed, `m`, and the new rate. -/
def dpllTestMult (m : ℤ) (n target parent : ℕ) : Bool × ℤ × ℕ :=
  let m := m.tdiv 64 + if 32 ≤ m.tmod 64 then 1 else 0
  let newRate := dpllComputeNewRate parent (m % 2 ^ 32).toNat n
  let (m, newRate) := if target < newRate then (m - 1, 0) else (m, newRate)
  let (r, m, newRate) := if m < 2 then (true, 2, 0) else (false, m, newRate)
  (r, m, if newRate = 0 then dpllComputeNewRate parent (m % 2 ^ 32).toNat n else newRate)

/-- Settings, and their rate error. -/
structure Candidate where
  m : ℤ
  n : ℤ
  e : ℤ
  deriving DecidableEq

/-- The variables of the search, with the candidates that were evaluated. -/
structure Search where
  dd : DpllData
  best : Candidate := ⟨-1, -1, -1⟩
  tried : List Candidate := []

/-- The prescaled multiplier. -/
def scaledM (ref target n : ℕ) : ℤ := toInt ↑(target / (ref / 64) * n)

/-- Whether the candidate becomes the best, and whether that ends the loop. -/
def Search.evaluate (s : Search) (c : Candidate) : Bool × Search :=
  let s' := { s with tried := c :: s.tried }
  if s.best.e = -1 ∨ toInt (c.e.natAbs - s.dd.rateTolerance) ≤ s.best.e then
    -- the bail-out compares as `unsigned int`
    (decide (c.e % 2 ^ 32 ≤ s.dd.rateTolerance), { s' with best := c })
  else (false, s')

/-- One turn of the loop after the test of the divider, and whether it leaves the loop. -/
def Search.turn (s : Search) (ref target n : ℕ) : Fint × DpllData → Bool × Search
  | (.underflow, dd) => (true, { s with dd := dd })
  | (.invalid, dd) => (false, { s with dd := dd })
  | (.ok, dd) =>
    if dd.maxMultiplier * 64 < scaledM ref target n then (true, { s with dd := dd })
    else
      let t := dpllTestMult (scaledM ref target n) n target ref
      if t.1 then (false, { s with dd := dd })
      else { s with dd := dd }.evaluate ⟨t.2.1, n, toInt (target - t.2.2)⟩

def searchLoop (parent ref target : ℕ) : ℕ → ℕ → Search → Search
  | 0, _, s => s
  | k + 1, n, s =>
    if n ≤ s.dd.maxDivider then
      let t := s.turn ref target n (dpllTestFint parent s.dd n)
      if t.1 then t.2 else searchLoop parent ref target k (n + 1) t.2
    else s

/-- The loop of `omap2_dpll_round_rate`, which takes a turn for each divider at most. -/
def search (parent ref : ℕ) (dd : DpllData) (target : ℕ) : Search :=
  searchLoop parent ref target (dd.maxDivider + 1 - dd.minDivider) dd.minDivider
    { dd := { dd with lastRoundedRate := 0 } }

/-- `omap2_dpll_round_rate`, where -1 is `~0`. -/
def omap2DpllRoundRate (parent ref : ℕ) (dd : DpllData) (target : ℕ) : ℤ × DpllData :=
  let s := search parent ref dd target
  if s.best.e < 0 then (-1, s.dd)
  else
    let rate := dpllComputeNewRate ref (s.best.m % 2 ^ 32).toNat (s.best.n % 2 ^ 32).toNat
    (toInt rate, { s.dd with
      lastRoundedM := (s.best.m % 2 ^ 16).toNat
      lastRoundedN := (s.best.n % 2 ^ 8).toNat
      lastRoundedRate := rate })

variable {R T n : ℕ} {dd : DpllData} {s : Search} {c : Candidate}

theorem toInt_of_lt {x : ℤ} (h0 : -2 ^ 31 ≤ x) (h : x < 2 ^ 31) :
    toInt x = x := by
  unfold toInt
  split <;> omega

/-- The frequency lies in one of the two bands. -/
def ValidFint (f : ℕ) : Prop :=
  dpllFintBand1Min ≤ f ∧ f ≤ dpllFintBand1Max ∨ dpllFintBand2Min ≤ f ∧ f ≤ dpllFintBand2Max

instance (f : ℕ) : Decidable (ValidFint f) := inferInstanceAs (Decidable (_ ∨ _))

/-! ## The invariant of the search -/

/-- The candidate is the one the search evaluates for the divider `n`. -/
structure IsCandidate (R T : ℕ) (dd : DpllData) (n : ℕ) (c : Candidate) : Prop where
  min_le : dd.minDivider ≤ n
  le_max : n ≤ dd.maxDivider
  fint : ∃ d, (dpllTestFint R d n).1 = .ok
  scaled : scaledM R T n ≤ dd.maxMultiplier * 64
  mult : (dpllTestMult (scaledM R T n) n T R).1 = false
  eq : c = ⟨(dpllTestMult (scaledM R T n) n T R).2.1, n,
    toInt (T - (dpllTestMult (scaledM R T n) n T R).2.2)⟩

/-- The candidate has a larger divider than `c`, and would replace it. -/
def Replaces (R T : ℕ) (dd : DpllData) (c c' : Candidate) : Prop :=
  (∃ n, IsCandidate R T dd n c) ∧ (∃ n, IsCandidate R T dd n c') ∧ c.n < c'.n ∧
    c'.e ≤ c.e + dd.rateTolerance

/-- The errors of the candidates are differences without a wrap. -/
def Ranged (R T : ℕ) (dd : DpllData) : Prop :=
  ∀ n c, IsCandidate R T dd n c → 0 ≤ c.e ∧ c.e < 2 ^ 31

structure Inv (R T : ℕ) (dd : DpllData) (s : Search) : Prop where
  tolerance : s.dd.rateTolerance = dd.rateTolerance
  multiplier : s.dd.maxMultiplier = dd.maxMultiplier
  best : s.best.e = -1 ∧ s.tried = [] ∨ s.best ∈ s.tried
  tried : ∀ c ∈ s.tried, ∃ n, IsCandidate R T dd n c
  drift : Ranged R T dd → ∀ c ∈ s.tried,
    ∃ k, k.e ≤ c.e ∧ Relation.ReflTransGen (Replaces R T dd) k s.best

structure GoesOn (dd : DpllData) (n : ℕ) (s : Search) : Prop where
  max : s.dd.maxDivider = dd.maxDivider
  bail : s.best.e = -1 ∨ dd.rateTolerance < s.best.e % 2 ^ 32
  below : s.best.n < n

structure Turned (R T : ℕ) (dd : DpllData) (n : ℕ) (p : Bool × Search) : Prop where
  inv : Inv R T dd p.2
  goesOn : p.1 = false → GoesOn dd (n + 1) p.2

/-- The test of the divider changes the limits only, and the upper one where the loop ends. -/
theorem dpllTestFint_spec (R : ℕ) (d : DpllData) (n : ℕ) :
    (dpllTestFint R d n).2.rateTolerance = d.rateTolerance ∧
      (dpllTestFint R d n).2.maxMultiplier = d.maxMultiplier ∧
      ((dpllTestFint R d n).2.maxDivider = d.maxDivider ∨ (dpllTestFint R d n).1 = .underflow) := by
  simp only [dpllTestFint]
  split_ifs <;> simp

theorem Inv.setDd (h : Inv R T dd s) {d : DpllData} (ht : d.rateTolerance = s.dd.rateTolerance)
    (hm : d.maxMultiplier = s.dd.maxMultiplier) : Inv R T dd { s with dd := d } :=
  ⟨ht.trans h.tolerance, hm.trans h.multiplier, h.best, h.tried, h.drift⟩

/-- The comparison with the best candidate, where nothing wraps. -/
theorem Inv.tolerance_iff (h : Inv R T dd s) (hg : GoesOn dd n s) (hc : IsCandidate R T dd n c)
    (hrange : Ranged R T dd) (hne : s.best.e ≠ -1) :
    toInt (c.e.natAbs - dd.rateTolerance) ≤ s.best.e ↔ c.e ≤ s.best.e + dd.rateTolerance := by
  obtain ⟨m, hm⟩ := h.tried _ (h.best.resolve_left fun hb => hne hb.1)
  have hbest := hrange m _ hm
  have hnew := hrange n c hc
  have hbail := hg.bail.resolve_left hne
  rw [toInt_of_lt (by omega) (by omega)]
  omega

theorem Inv.keep (h : Inv R T dd s) (hg : GoesOn dd n s) (hc : IsCandidate R T dd n c)
    (hle : s.best.e = -1 ∨ toInt (c.e.natAbs - dd.rateTolerance) ≤ s.best.e) :
    Inv R T dd { s with best := c, tried := c :: s.tried } where
  tolerance := h.tolerance
  multiplier := h.multiplier
  best := Or.inr mem_cons_self
  tried := forall_mem_cons.2 ⟨⟨n, hc⟩, h.tried⟩
  drift hrange := by
    refine forall_mem_cons.2 ⟨⟨c, le_rfl, .refl⟩, fun k hk => ?_⟩
    obtain ⟨m, hm⟩ := h.tried _ (h.best.resolve_left fun hb => by simp [hb.2] at hk)
    have hne : s.best.e ≠ -1 := by
      have := hrange m _ hm
      omega
    obtain ⟨j, hj, hto⟩ := h.drift hrange k hk
    have hn : c.n = n := by rw [hc.eq]
    exact ⟨j, hj, hto.tail ⟨⟨m, hm⟩, ⟨n, hc⟩, hn ▸ hg.below,
      (h.tolerance_iff hg hc hrange hne).1 (hle.resolve_left hne)⟩⟩

theorem Inv.pass (h : Inv R T dd s) (hg : GoesOn dd n s) (hc : IsCandidate R T dd n c)
    (hne : s.best.e ≠ -1) (hlt : ¬ toInt (c.e.natAbs - dd.rateTolerance) ≤ s.best.e) :
    Inv R T dd { s with tried := c :: s.tried } where
  tolerance := h.tolerance
  multiplier := h.multiplier
  best := Or.inr (mem_cons_of_mem c (h.best.resolve_left fun hb => hne hb.1))
  tried := forall_mem_cons.2 ⟨⟨n, hc⟩, h.tried⟩
  drift hrange := by
    refine forall_mem_cons.2 ⟨⟨s.best, ?_, .refl⟩, h.drift hrange⟩
    have := mt (h.tolerance_iff hg hc hrange hne).2 hlt
    omega

theorem evaluate_turned (h : Inv R T dd s) (hg : GoesOn dd n s) (hc : IsCandidate R T dd n c) :
    Turned R T dd n (s.evaluate c) := by
  have hn : c.n < (n + 1 : ℕ) := by
    rw [hc.eq]
    exact Int.ofNat_lt.2 n.lt_succ_self
  simp only [Search.evaluate, h.tolerance]
  split_ifs with hle
  · exact ⟨h.keep hg hc hle, fun hst => ⟨hg.max, Or.inr (by simpa using hst), hn⟩⟩
  rw [not_or] at hle
  exact ⟨h.pass hg hc hle.1 hle.2, fun _ => ⟨hg.max, hg.bail, hg.below.trans (by omega)⟩⟩

theorem turn_turned (h : Inv R T dd s) (hg : GoesOn dd n s) (hn : dd.minDivider ≤ n)
    (hmx : n ≤ dd.maxDivider) : Turned R T dd n (s.turn R T n (dpllTestFint R s.dd n)) := by
  have hf := dpllTestFint_spec R s.dd n
  generalize hr : dpllTestFint R s.dd n = f at hf ⊢
  obtain ⟨r, d⟩ := f
  obtain ⟨ht, hm, hd⟩ := hf
  have hs := h.setDd ht hm
  have hg' (hr : r ≠ .underflow) {k : ℕ} (hk : n ≤ k) : GoesOn dd k { s with dd := d } :=
    ⟨(hd.resolve_right hr).trans hg.max, hg.bail, hg.below.trans_le (by omega)⟩
  cases r with
  | underflow => exact ⟨hs, nofun⟩
  | invalid => exact ⟨hs, fun _ => hg' nofun n.le_succ⟩
  | ok =>
    simp only [Search.turn]
    split_ifs with hle hml
    · exact ⟨hs, nofun⟩
    · exact ⟨hs, fun _ => hg' nofun n.le_succ⟩
    have hc : scaledM R T n ≤ dd.maxMultiplier * 64 := by
      rw [← h.multiplier, ← hm]
      exact not_lt.1 hle
    exact evaluate_turned hs (hg' nofun le_rfl)
      ⟨hn, hmx, ⟨_, by rw [hr]⟩, hc, by simpa using hml, rfl⟩

theorem searchLoop_inv (k : ℕ) : ∀ {n : ℕ} {s : Search}, Inv R T dd s → GoesOn dd n s →
    dd.minDivider ≤ n → Inv R T dd (searchLoop R R T k n s) := by
  induction k with
  | zero => exact fun h _ _ => h
  | succ k ih =>
    intro n s h hg hn
    simp only [searchLoop]
    split_ifs with hle hst
    · exact (turn_turned h hg hn (hg.max ▸ hle)).inv
    · obtain ⟨h', hg'⟩ := turn_turned h hg hn (hg.max ▸ hle)
      exact ih h' (hg' (by simpa using hst)) (by omega)
    · exact h

theorem search_inv (R T : ℕ) (dd : DpllData) : Inv R T dd (search R R dd T) :=
  searchLoop_inv _ ⟨rfl, rfl, Or.inl ⟨rfl, rfl⟩, by simp, by simp⟩ ⟨rfl, Or.inl rfl, by simp; omega⟩
    le_rfl

theorem omap2DpllRoundRate_stored (h : (omap2DpllRoundRate R R dd T).1 ≠ -1) :
    ∃ n c, (search R R dd T).best = c ∧ IsCandidate R T dd n c ∧
      omap2DpllRoundRate R R dd T = (toInt (dpllComputeNewRate R (c.m % 2 ^ 32).toNat (n % 2 ^ 32)),
        { (search R R dd T).dd with
          lastRoundedM := (c.m % 2 ^ 16).toNat
          lastRoundedN := n % 2 ^ 8
          lastRoundedRate := dpllComputeNewRate R (c.m % 2 ^ 32).toNat (n % 2 ^ 32) }) := by
  have hinv := search_inv R T dd
  have he : ¬ (search R R dd T).best.e < 0 := fun he => h (by simp [omap2DpllRoundRate, he])
  obtain ⟨n, hc⟩ := hinv.tried _ (hinv.best.resolve_left (by omega))
  refine ⟨n, _, rfl, hc, ?_⟩
  have hn : (search R R dd T).best.n = n := by rw [hc.eq]
  simp only [omap2DpllRoundRate, if_neg he, hn]
  norm_cast

/-! ## The settings of a candidate -/

/-- A divider that passes the test has a frequency in a band if it is counted from zero. -/
theorem validFint_of_ok {d : DpllData} (hR : R < 2 ^ 32) (h : (dpllTestFint R d n).1 = .ok) :
    ValidFint (R / (n + 1)) := by
  have hlt : R / (n + 1) < 2 ^ 32 := (Nat.div_le_self _ _).trans_lt hR
  simp only [dpllTestFint] at h
  generalize R / (n + 1) = f at h hlt
  split_ifs at h with h1 h2 h3
  have hf' : toInt f = f ∨ toInt f < 0 := by
    unfold toInt
    split <;> omega
  unfold ValidFint
  omega

/-- The multiplier is rounded, and lowered by one if its rate is above the target. -/
theorem dpllTestMult_natCast {k : ℕ} (hk : k < 2 ^ 31) (h : (dpllTestMult k n T R).1 = false) :
    ∃ m : ℕ, (dpllTestMult k n T R).2 = (↑m, dpllComputeNewRate R m n) ∧ 2 ≤ m ∧
      (m = (k + 32) / 64 ∧ dpllComputeNewRate R m n ≤ T ∨ m + 1 = (k + 32) / 64) := by
  have hm : (k : ℤ).tdiv 64 + (if 32 ≤ (k : ℤ).tmod 64 then 1 else 0) = ((k + 32) / 64 : ℕ) := by
    rw [Int.tdiv_eq_ediv_of_nonneg (by omega), Int.tmod_eq_emod_of_nonneg (by omega)]
    split_ifs <;> omega
  have hu {m : ℕ} (h : m ≤ (k + 32) / 64) : ((m : ℤ) % 2 ^ 32).toNat = m := by omega
  simp only [dpllTestMult, hm, hu le_rfl] at h ⊢
  generalize hq : (k + 32) / 64 = q at *
  by_cases h1 : T < dpllComputeNewRate R q n
  · have h2 : ¬ (q : ℤ) - 1 < 2 := fun h2 => by simp [h1, h2] at h
    refine ⟨q - 1, ?_, by omega, Or.inr (by omega)⟩
    simp only [h1, h2, if_true, if_false]
    rw [show (q : ℤ) - 1 = ((q - 1 : ℕ) : ℤ) by omega, hu (by omega)]
  · have h2 : ¬ (q : ℤ) < 2 := fun h2 => by simp [h1, h2] at h
    refine ⟨q, ?_, by omega, Or.inl ⟨rfl, not_lt.1 h1⟩⟩
    simp only [h1, h2, if_false, hu le_rfl, ite_self]

/-- For the divider zero the multiplier underflows. -/
theorem IsCandidate.pos (hc : IsCandidate R T dd n c) : 0 < n := by
  rcases Nat.eq_zero_or_pos n with rfl | hn
  · have h := hc.mult
    simp [scaledM, toInt, dpllTestMult, dpllComputeNewRate] at h
  · exact hn

/-- The scale and the ratio are both truncated. -/
theorem mul_scaled_le {p : ℕ} (hp : p * (R / 64) ≤ T) (hk : 63 * (p * n) ≤ 32 * R) :
    R * (p * n) ≤ 64 * (T * n) + 32 * R :=
  calc R * (p * n) ≤ (64 * (R / 64) + 63) * (p * n) := Nat.mul_le_mul_right _ (by omega)
    _ = 64 * (p * (R / 64) * n) + 63 * (p * n) := by ring
    _ ≤ 64 * (T * n) + 32 * R := by gcongr

theorem IsCandidate.refRate_ge (hc : IsCandidate R T dd n c) (hR : R < 2 ^ 31) :
    750000 * (n + 1) ≤ R := by
  obtain ⟨d, hok⟩ := hc.fint
  refine (Nat.le_div_iff_mul_le (show 0 < n + 1 by omega)).1 ?_
  have := validFint_of_ok (by omega) hok
  unfold ValidFint dpllFintBand1Min dpllFintBand2Min at this
  omega

/-- The scaled multiplier is small, because the test of the divider bounds the reference rate. -/
theorem IsCandidate.scaledM_eq (hc : IsCandidate R T dd n c) (hR : R < 2 ^ 31) (hT : T < 2 ^ 31)
    (hm : dd.maxDivider ≤ 128) :
    ∃ p, scaledM R T n = (p * n : ℕ) ∧ p * (R / 64) ≤ T ∧ p * n ≤ dd.maxMultiplier * 64 ∧
      p * n < 2 ^ 31 := by
  have hn := hc.pos
  have hR' := hc.refRate_ge hR
  have hpq := Nat.div_mul_le_self T (R / 64)
  refine ⟨T / (R / 64), ?_⟩
  have hle := hc.scaled
  unfold scaledM at *
  generalize T / (R / 64) = p at *
  have hp : p ≤ 91629 := by
    by_contra hlt
    have := Nat.mul_le_mul (show 91630 ≤ p by omega) (show 23437 ≤ R / 64 by omega)
    omega
  have hpn := Nat.mul_le_mul hp (hc.le_max.trans hm)
  rw [toInt_of_lt (by omega) (by omega)] at *
  exact ⟨rfl, hpq, by exact_mod_cast hle, by omega⟩

theorem IsCandidate.good (hc : IsCandidate R T dd n c) (hR : R < 2 ^ 31) (hT : T < 2 ^ 31)
    (hmul : dd.maxMultiplier ≤ 2047) (hmx : dd.maxDivider ≤ 128) :
    ∃ m : ℕ, c = ⟨m, n, T - (R * m / n : ℕ)⟩ ∧ 2 ≤ m ∧ m ≤ dd.maxMultiplier ∧ R * m / n ≤ T := by
  obtain ⟨p, hsc, hpq, hle, hpn⟩ := hc.scaledM_eq hR hT hmx
  have hn := hc.pos
  have hR' := hc.refRate_ge hR
  obtain ⟨-, -, -, -, hml, rfl⟩ := hc
  rw [hsc] at hml ⊢
  obtain ⟨m, hm, h2, hrnd⟩ := dpllTestMult_natCast hpn hml
  have hRk := mul_scaled_le (n := n) hpq (by omega)
  have hRn := Nat.mul_le_mul_right R hn
  have hrt : dpllComputeNewRate R m n = R * m / n := by
    have hRm : R * (64 * m) ≤ R * (p * n + 32) := Nat.mul_le_mul_left R (by omega)
    have : R * m / n ≤ T + R := Nat.div_le_of_le_mul (by nlinarith)
    exact Nat.mod_eq_of_lt (by omega)
  rw [hrt] at hm hrnd
  have hle' : R * m / n ≤ T := by
    rcases hrnd with ⟨-, hr⟩ | hr
    · exact hr
    have hRm : R * (64 * (m + 1)) ≤ R * (p * n + 32) := Nat.mul_le_mul_left R (by omega)
    exact Nat.div_le_of_le_mul (by nlinarith)
  refine ⟨m, ?_, h2, by omega, hle'⟩
  rw [hm, toInt_of_lt (by omega) (by omega)]

/-! ## The rounded rate -/

/-- The rate that is computed once more is that of the candidate. -/
theorem IsCandidate.newRate_eq (hc : IsCandidate R T dd n c) (hR : R < 2 ^ 31) (hT : T < 2 ^ 31)
    (hmul : dd.maxMultiplier ≤ 2047) (hmx : dd.maxDivider ≤ 128) :
    toInt (dpllComputeNewRate R (c.m % 2 ^ 32).toNat (n % 2 ^ 32)) = T - c.e := by
  have hn := hc.le_max
  obtain ⟨m, rfl, -, hm, hle⟩ := hc.good hR hT hmul hmx
  have hmt : ((m : ℤ) % 2 ^ 32).toNat = m := by omega
  have hrate : dpllComputeNewRate R m n = R * m / n := Nat.mod_eq_of_lt (by omega)
  rw [hmt, Nat.mod_eq_of_lt (by omega), hrate, toInt_of_lt (by omega) (by omega), sub_sub_cancel]

/-- The rounded rate is not above the target, and the settings are within the limits. -/
theorem omap2DpllRoundRate_le (hR : R < 2 ^ 31) (hT : T < 2 ^ 31) (hmax : dd.maxDivider ≤ 128)
    (hmul : dd.maxMultiplier ≤ 2047) (h : (omap2DpllRoundRate R R dd T).1 ≠ -1) :
    ∃ m n : ℕ, (omap2DpllRoundRate R R dd T).2.lastRoundedM = m ∧
      (omap2DpllRoundRate R R dd T).2.lastRoundedN = n ∧
      (omap2DpllRoundRate R R dd T).1 = (R * m / n : ℕ) ∧ R * m / n ≤ T ∧
      2 ≤ m ∧ m ≤ dd.maxMultiplier ∧ dd.minDivider ≤ n ∧ n ≤ dd.maxDivider := by
  obtain ⟨n, c, -, hc, heq⟩ := omap2DpllRoundRate_stored h
  rw [heq, hc.newRate_eq hR hT hmul hmax]
  obtain ⟨m, rfl, h2, hm, hle⟩ := hc.good hR hT hmul hmax
  have hn := hc.le_max
  exact ⟨m, n, by dsimp only; omega, Nat.mod_eq_of_lt (by omega), sub_sub_cancel _ _, hle, h2, hm,
    hc.min_le, hn⟩

/-- The limits of a DPLL of the OMAP3, and the default tolerance. -/
def omap3Dpll : DpllData where
  rateTolerance := 50000
  maxMultiplier := 2047
  minDivider := 1
  maxDivider := 128

theorem omap2DpllRoundRate_le_12MHz :
    ∃ m n : ℕ, (omap2DpllRoundRate 12000000 12000000 omap3Dpll 24000000).1 =
        (12000000 * m / n : ℕ) ∧ 12000000 * m / n ≤ 24000000 := by
  have hrate : (omap2DpllRoundRate 12000000 12000000 omap3Dpll 24000000).1 ≠ -1 := by
    decide +kernel
  obtain ⟨m, n, -, -, h, hle, -⟩ :=
    omap2DpllRoundRate_le (by decide) (by decide) (by decide) (by decide) hrate
  exact ⟨m, n, h, hle⟩

/-- The divider was tested as one that counts from zero. Its frequency is valid if no divider within
the limits has one above the band it was tested for. -/
theorem validFint_lastRoundedN (hR : R < 2 ^ 32) (hmax : dd.maxDivider < 2 ^ 8)
    (hband : ∀ n, 0 < n → dd.minDivider ≤ n → n ≤ dd.maxDivider → ValidFint (R / (n + 1)) →
      ValidFint (R / n))
    (h : (omap2DpllRoundRate R R dd T).1 ≠ -1) :
    ValidFint (R / (omap2DpllRoundRate R R dd T).2.lastRoundedN) := by
  obtain ⟨n, c, -, hc, heq⟩ := omap2DpllRoundRate_stored h
  have hn : (omap2DpllRoundRate R R dd T).2.lastRoundedN = n := by
    rw [heq]
    exact Nat.mod_eq_of_lt (hc.le_max.trans_lt hmax)
  obtain ⟨d, hok⟩ := hc.fint
  rw [hn]
  exact hband n hc.pos hc.min_le hc.le_max (validFint_of_ok hR hok)

/-- With 12 MHz and a target of 24 MHz the divider is 5, and its frequency 2.4 MHz. -/
theorem not_validFint_12MHz :
    (omap2DpllRoundRate 12000000 12000000 omap3Dpll 24000000).1 ≠ -1 ∧
      ¬ ValidFint (12000000 / (omap2DpllRoundRate 12000000 12000000 omap3Dpll
        24000000).2.lastRoundedN) := by
  decide +kernel

/-- With 15 MHz the dividers from 8 on are in the lower band both ways. -/
theorem validFint_lastRoundedN_15MHz :
    ValidFint (15000000 / (omap2DpllRoundRate 15000000 15000000 { omap3Dpll with minDivider := 8 }
      30000000).2.lastRoundedN) :=
  have hband : ∀ n < 129, 8 ≤ n → ValidFint (15000000 / (n + 1)) → ValidFint (15000000 / n) := by
    decide +kernel
  validFint_lastRoundedN (by decide) (by decide)
    (fun n _ hmin hmax => hband n (Nat.lt_succ_of_le hmax) hmin) (by decide +kernel)

end NestLinux.ClktDpll
