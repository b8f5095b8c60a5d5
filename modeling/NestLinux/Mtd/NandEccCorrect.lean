import NestLinux.Mtd.NandEcc
import Mathlib.Data.Nat.Bitwise
import Mathlib.Tactic.IntervalCases

/-!
# The software NAND ECC corrects one bit and detects two

Everything before the table of parities is linear over exclusive or, so two codes
differ by the parities of the difference of their blocks. The parities of a single bit
are its address in two-rail form: for every address bit, one of a pair of parities is
set (`rowParity_single`). From there on only the six bytes of two addresses are left.
-/

namespace NestLinux.Mtd.NandEcc

open Lib List

variable {b : ℕ → ℕ} {j pos x y eccsize h c' : ℕ} {buf : List UInt8}

/-! ## The loop -/

/-- The words whose index has bit `b` clear. -/
def masked (b : ℕ) (w : ℕ → ℕ) (k : ℕ) : ℕ := if k / 2 ^ b % 2 = 0 then w k else 0

theorem masked_xor (b : ℕ) (w w' : ℕ → ℕ) (k : ℕ) :
    masked b (fun k => w k ^^^ w' k) k = masked b w k ^^^ masked b w' k := by
  unfold masked
  split <;> rfl

private theorem masked_low {b : ℕ} (hb : b < 4) (w : ℕ → ℕ) (i : ℕ) :
    masked b w (16 * i + j) = if j / 2 ^ b % 2 = 0 then w (16 * i + j) else 0 := by
  have h : (16 * i + j) / 2 ^ b % 2 = j / 2 ^ b % 2 := by
    interval_cases b <;> omega
  rw [masked, h]

private theorem masked_high (hj : j < 16) (c : ℕ) (w : ℕ → ℕ) (i : ℕ) :
    masked (4 + c) w (16 * i + j) = if i / 2 ^ c % 2 = 0 then w (16 * i + j) else 0 := by
  have h : (16 * i + j) / 2 ^ (4 + c) = i / 2 ^ c := by
    rw [pow_add, ← Nat.div_div_eq_div_mul]
    congr 1
    omega
  rw [masked, h]

private theorem xorSum_sixteen (f : ℕ → ℕ) :
    xorSum 16 f = f 0 ^^^ f 1 ^^^ f 2 ^^^ f 3 ^^^ f 4 ^^^ f 5 ^^^ f 6 ^^^ f 7 ^^^ f 8 ^^^ f 9 ^^^
      f 10 ^^^ f 11 ^^^ f 12 ^^^ f 13 ^^^ f 14 ^^^ f 15 := by
  simp [xorSum, forRange]

private theorem xorSum_masked_high (c : ℕ) (w : ℕ → ℕ) (i : ℕ) :
    (xorSum 16 fun j => masked (4 + c) w (16 * i + j))
      = if i / 2 ^ c % 2 = 0 then xorSum 16 fun j => w (16 * i + j) else 0 := by
  split
  · next h =>
      simp only [xorSum_sixteen]
      simp only [masked_high, h, Nat.reduceLT, if_true]
  next h =>
    simp only [xorSum_sixteen]
    simp only [masked_high, h, Nat.reduceLT, if_false, Nat.xor_zero]

/-- The accumulators after `n` words. -/
def accumulated (eccsizeMult : ℕ) (w : ℕ → ℕ) (n : ℕ) : EccAcc :=
  { par := xorSum n w
    rp4 := xorSum n (masked 0 w)
    rp6 := xorSum n (masked 1 w)
    rp8 := xorSum n (masked 2 w)
    rp10 := xorSum n (masked 3 w)
    rp12 := xorSum n (masked 4 w)
    rp14 := xorSum n (masked 5 w)
    rp16 := if eccsizeMult = 2 then xorSum n (masked 6 w) else 0 }

private theorem and_two_pow (i c : ℕ) : i &&& 2 ^ c = 0 ↔ i / 2 ^ c % 2 = 0 := by
  rw [Nat.and_two_pow, Nat.testBit_eq_decide_div_mod_eq]
  rcases Nat.mod_two_eq_zero_or_one (i / 2 ^ c) with h | h <;> simp

private theorem eccStep_accumulated (m : ℕ) (w : ℕ → ℕ) (i : ℕ) :
    eccStep m w i (accumulated m w (16 * i)) = accumulated m w (16 * (i + 1)) := by
  have h1 : (i &&& 0x1 = 0) ↔ i / 2 ^ 0 % 2 = 0 := and_two_pow i 0
  have h2 : (i &&& 0x2 = 0) ↔ i / 2 ^ 1 % 2 = 0 := and_two_pow i 1
  have h4 : (i &&& 0x4 = 0) ↔ i / 2 ^ 2 % 2 = 0 := and_two_pow i 2
  have hsm : ∀ f : ℕ → ℕ, xorSum (16 * (i + 1)) f
      = xorSum (16 * i) f ^^^ xorSum 16 fun j => f (16 * i + j) := fun f => by
    rw [Nat.mul_succ, xorSum_add]
  simp only [eccStep, accumulated, hsm, h1, h2, h4, EccAcc.mk.injEq]
  refine ⟨?_, ?_, ?_, ?_, ?_, ?_, ?_, ?_⟩
  · simp [xorSum_sixteen]
  · simp only [xorSum_sixteen, masked_low (show 0 < 4 by norm_num)]
    simp [Nat.xor_assoc]
  · simp only [xorSum_sixteen, masked_low (show 1 < 4 by norm_num)]
    simp [Nat.xor_assoc]
  · simp only [xorSum_sixteen, masked_low (show 2 < 4 by norm_num)]
    simp [Nat.xor_assoc]
  · simp only [xorSum_sixteen, masked_low (show 3 < 4 by norm_num)]
    simp
  · rw [xorSum_masked_high 0]
    split
    · simp [xorSum_sixteen]
    · rw [Nat.xor_zero]
  · rw [xorSum_masked_high 1]
    split
    · simp [xorSum_sixteen]
    · rw [Nat.xor_zero]
  by_cases hm : m = 2
  · simp only [hm, true_and]
    rw [xorSum_masked_high 2]
    split
    · simp [xorSum_sixteen]
    · rw [Nat.xor_zero]
  · simp [hm]

/-- **Closed form of the loop.** -/
theorem accumulate_eq (w : ℕ → ℕ) : accumulate m w = accumulated m w (16 * (m <<< 2)) := by
  refine forRange_induction (fun i s => s = accumulated m w (16 * i)) ?_ ?_
  · simp [accumulated]
  rintro i s - rfl
  exact eccStep_accumulated m w i

/-! ## Linearity -/

/-- The accumulators of a sum of two blocks. -/
def EccAcc.xor (s t : EccAcc) : EccAcc :=
  ⟨s.par ^^^ t.par, s.rp4 ^^^ t.rp4, s.rp6 ^^^ t.rp6, s.rp8 ^^^ t.rp8, s.rp10 ^^^ t.rp10,
    s.rp12 ^^^ t.rp12, s.rp14 ^^^ t.rp14, s.rp16 ^^^ t.rp16⟩

theorem accumulate_xor (w w' : ℕ → ℕ) : accumulate m (fun k => w k ^^^ w' k)
      = (accumulate m w).xor (accumulate m w') := by
  have hms : ∀ b, masked b (fun k => w k ^^^ w' k) = fun k => masked b w k ^^^ masked b w' k :=
    fun b => funext fun k => masked_xor b w w' k
  simp only [accumulate_eq, accumulated, EccAcc.xor, hms, xorSum_xor]
  split <;> rfl

private theorem bytes_xor (a b c d a' b' c' d' : ℕ) :
    ((a ^^^ a') <<< 24) ^^^ ((b ^^^ b') <<< 16) ^^^ ((c ^^^ c') <<< 8) ^^^ (d ^^^ d')
      = ((a <<< 24) ^^^ (b <<< 16) ^^^ (c <<< 8) ^^^ d) ^^^
        ((a' <<< 24) ^^^ (b' <<< 16) ^^^ (c' <<< 8) ^^^ d') := by
  rw [Nat.shiftLeft_xor_distrib, Nat.shiftLeft_xor_distrib, Nat.shiftLeft_xor_distrib]
  generalize a <<< 24 = x, b <<< 16 = y, c <<< 8 = z, a' <<< 24 = x', b' <<< 16 = y', c' <<< 8 = z'
  ac_rfl

theorem word_xor (f g : ℕ → ℕ) (k : ℕ) :
    word be (fun i => f i ^^^ g i) k = word be f k ^^^ word be g k := by
  unfold word
  split <;> exact bytes_xor _ _ _ _ _ _ _ _

theorem foldByte_xor : foldByte (x ^^^ y) = foldByte x ^^^ foldByte y := by
  simp only [foldByte, Nat.shiftRight_xor_distrib, Nat.and_xor_distrib_right]
  ac_rfl

theorem foldHalf_xor : foldHalf (x ^^^ y) = foldHalf x ^^^ foldHalf y := by
  simp only [foldHalf, Nat.shiftRight_xor_distrib, Nat.and_xor_distrib_right]
  ac_rfl

theorem parByte_xor (s t : EccAcc) : parByte (s.xor t) = parByte s ^^^ parByte t :=
  foldByte_xor

theorem rowParity_xor (s t : EccAcc) : rowParity be m (s.xor t) j
      = rowParity be m s j ^^^ rowParity be m t j := by
  have hodd : ∀ x y x' y' : ℕ, ((x ^^^ y) ^^^ (x' ^^^ y')) &&& 0xff
      = ((x ^^^ x') &&& 0xff) ^^^ ((y ^^^ y') &&& 0xff) := by
    intro x y x' y'
    simp only [Nat.and_xor_distrib_right]
    ac_rfl
  unfold rowParity
  split <;> simp only [EccAcc.xor, parByte, foldByte_xor, foldHalf_xor, hodd,
    Nat.shiftRight_xor_distrib, Nat.and_xor_distrib_right, Nat.xor_zero]
  all_goals split <;> ac_rfl

/-! ## A single bit -/

/-- The block with only bit `c` of byte `a` set. -/
def single (a c : ℕ) (i : ℕ) : ℕ := if i = a then 2 ^ c else 0

/-- The word that holds the bit, which is byte `pos` of it. -/
def singleWord (bigEndian : Bool) (pos c : ℕ) : ℕ :=
  2 ^ c <<< (8 * if bigEndian then 3 - pos else pos)

theorem word_single (a c k : ℕ) :
    word be (single a c) k = if k = a / 4 then singleWord be (a % 4) c else 0 := by
  have hsl := Nat.div_add_mod a 4
  have hlt : a % 4 < 4 := Nat.mod_lt _ (by norm_num)
  by_cases hk : k = a / 4
  · rw [if_pos hk, ← hsl, ← hk]
    generalize a % 4 = pos at hlt
    interval_cases pos <;> cases be <;> simp [word, single, singleWord]
  rw [if_neg hk]
  have hz : ∀ j < 4, single a c (4 * k + j) = 0 := by
    intro j hj
    rw [single, if_neg (by omega)]
  have h0 := hz 0 (by norm_num)
  rw [add_zero] at h0
  cases be <;> simp [word, h0, hz]

private theorem masked_single (be : Bool) (a c b n : ℕ) (ha : a / 4 < n) :
    xorSum n (masked b (word be (single a c)))
      = if a / 4 / 2 ^ b % 2 = 0 then singleWord be (a % 4) c else 0 := by
  rw [xorSum_single ha]
  · rw [masked, word_single, if_pos rfl]
  intro i hi
  rw [masked, word_single, if_neg hi, ite_self]

variable {c a : ℕ}

private theorem foldByte_singleWord :
    ∀ be, ∀ pos < 4, ∀ c < 8, foldByte (singleWord be pos c) = 2 ^ c := by decide

/-- `rp0` to `rp3` only depend on the overall parity. -/
private theorem rowParity_low (be : Bool) (m : ℕ) (s : EccAcc)
    (hp : s.par = singleWord be pos c) (hps : pos < 4) (hc : c < 8) (hj : j < 4) :
    rowParity be m s j = if pos / 2 ^ (j / 2) % 2 = j % 2 then 2 ^ c else 0 := by
  have h : ∀ be, ∀ pos < 4, ∀ c < 8, ∀ j < 4,
      rowParity be 1 ⟨singleWord be pos c, 0, 0, 0, 0, 0, 0, 0⟩ j
        = if pos / 2 ^ (j / 2) % 2 = j % 2 then 2 ^ c else 0 := by
    decide
  rw [← h be pos hps c hc j hj, ← hp]
  interval_cases j <;> rfl

section Rows

variable {be : Bool} (hc : c < 8)
include hc

private theorem row_even (b : ℕ) :
    foldByte (if a / 4 / 2 ^ b % 2 = 0 then singleWord be (a % 4) c else 0)
      = if a / 2 ^ (b + 2) % 2 = 0 then 2 ^ c else 0 := by
  have hd : a / 2 ^ (b + 2) = a / 4 / 2 ^ b := by
    rw [pow_add, mul_comm, ← Nat.div_div_eq_div_mul]
    norm_num
  rw [hd]
  split
  · exact foldByte_singleWord be _ (Nat.mod_lt _ (by norm_num)) c hc
  · rfl

private theorem row_odd (b : ℕ) :
    (2 ^ c ^^^ foldByte (if a / 4 / 2 ^ b % 2 = 0 then singleWord be (a % 4) c else 0)) &&& 0xff
      = if a / 2 ^ (b + 2) % 2 = 1 then 2 ^ c else 0 := by
  rw [row_even hc]
  rcases Nat.mod_two_eq_zero_or_one (a / 2 ^ (b + 2)) with h | h
  · rw [if_pos h, if_neg (by omega), Nat.xor_self, Nat.zero_and]
  rw [if_neg (by omega), if_pos h, Nat.xor_zero, Nat.and_two_pow_sub_one_eq_mod _ 8]
  exact Nat.mod_eq_of_lt (Nat.pow_lt_pow_right (by norm_num) hc)

section

variable {m : ℕ} (ha : a < 256 * m)
include ha

omit hc in
private theorem word_index_lt : a / 4 < 16 * (m <<< 2) := by
  rw [Nat.shiftLeft_eq]
  omega

omit hc in
private theorem par_single : (accumulate m (word be (single a c))).par
      = singleWord be (a % 4) c := by
  rw [accumulate_eq, accumulated, xorSum_single (word_index_lt ha), word_single, if_pos rfl]
  intro i hi
  rw [word_single, if_neg hi]

theorem parByte_single : parByte (accumulate m (word be (single a c))) = 2 ^ c := by
  rw [parByte, par_single ha]
  exact foldByte_singleWord be _ (Nat.mod_lt _ (by norm_num)) c hc

/-- **The parities of a single bit**: of each pair, the one that its address selects. -/
theorem rowParity_single (hj : j < 16 ∨ m = 2 ∧ j < 18) :
    rowParity be m (accumulate m (word be (single a c))) j
      = if a / 2 ^ (j / 2) % 2 = j % 2 then 2 ^ c else 0 := by
  have hms := fun b => masked_single be a c b _ (word_index_lt ha)
  have hp : a % 4 < 4 := Nat.mod_lt _ (by norm_num)
  rcases Nat.lt_or_ge j 4 with hl | hhi
  · rw [rowParity_low be m _ (par_single ha) hp hc hl]
    have : a % 4 / 2 ^ (j / 2) % 2 = a / 2 ^ (j / 2) % 2 := by
      interval_cases j <;> omega
    rw [this]
  have hby : parByte (accumulate m (word be (single a c))) = 2 ^ c :=
    parByte_single hc ha
  rw [accumulate_eq] at hby ⊢
  have hj18 : j < 18 := by omega
  interval_cases j <;> simp only [rowParity, hby] <;> simp only [accumulated, hms]
  · exact row_even hc 0
  · exact row_odd hc 0
  · exact row_even hc 1
  · exact row_odd hc 1
  · exact row_even hc 2
  · exact row_odd hc 2
  · exact row_even hc 3
  · exact row_odd hc 3
  · exact row_even hc 4
  · exact row_odd hc 4
  · exact row_even hc 5
  · exact row_odd hc 5
  · have h2 : m = 2 := by omega
    simp only [h2, if_true]
    exact row_even hc 6
  have h2 : m = 2 := by omega
  simp only [h2, if_true]
  exact row_odd hc 6

end

end Rows

/-! ## The code of a changed block -/

def parity8 (x : ℕ) : ℕ := xorSum 8 fun i => x >>> i % 2

theorem parity8_xor : parity8 (x ^^^ y) = parity8 x ^^^ parity8 y := by
  have hb : ∀ i, (x ^^^ y) >>> i % 2 = (x >>> i % 2) ^^^ (y >>> i % 2) := fun i => by
    rw [Nat.shiftRight_xor_distrib]
    exact Nat.xor_mod_two_pow (n := 1)
  simp [parity8, hb, xorSum_xor]

theorem invparity_eq : ∀ x < 256, invparity.getD x 0 = 1 ^^^ parity8 x := by decide +kernel

theorem parity8_lt : parity8 x < 2 := by
  have h : ∀ n, (xorSum n fun i => x >>> i % 2) < 2 ^ 1 := fun n => by
    induction n with
    | zero => norm_num
    | succ n ih => exact Nat.xor_lt_two_pow ih (Nat.mod_lt _ (by norm_num))
  exact h 8

theorem invparity_xor (hx : x < 256) (hy : y < 256) :
    invparity.getD (x ^^^ y) 0 = invparity.getD x 0 ^^^ parity8 y := by
  rw [invparity_eq _ (Nat.xor_lt_two_pow (n := 8) hx hy), invparity_eq x hx, parity8_xor,
    Nat.xor_assoc]

theorem invparity_lt (hx : x < 256) : invparity.getD x 0 < 2 := by
  rw [invparity_eq x hx]
  exact Nat.xor_lt_two_pow (n := 1) (by norm_num) (parity8_lt)

theorem packByte_eq (hb : ∀ j < 8, b j < 2) : packByte b = xorSum 8 fun j => b j <<< j := by
  have h : ∀ x0 x1 x2 x3 x4 x5 x6 x7 : Fin 2,
      (x7.val <<< 7) ||| (x6.val <<< 6) ||| (x5.val <<< 5) ||| (x4.val <<< 4) |||
        (x3.val <<< 3) ||| (x2.val <<< 2) ||| (x1.val <<< 1) ||| x0.val
      = 0 ^^^ x0.val <<< 0 ^^^ x1.val <<< 1 ^^^ x2.val <<< 2 ^^^ x3.val <<< 3 ^^^ x4.val <<< 4 ^^^
        x5.val <<< 5 ^^^ x6.val <<< 6 ^^^ x7.val <<< 7 := by
    decide +kernel
  exact h ⟨b 0, hb 0 (by norm_num)⟩ ⟨b 1, hb 1 (by norm_num)⟩ ⟨b 2, hb 2 (by norm_num)⟩
    ⟨b 3, hb 3 (by norm_num)⟩ ⟨b 4, hb 4 (by norm_num)⟩ ⟨b 5, hb 5 (by norm_num)⟩
    ⟨b 6, hb 6 (by norm_num)⟩ ⟨b 7, hb 7 (by norm_num)⟩

/-- A byte of parity bits changes by the bits that change. -/
theorem packByte_xor {b' d : ℕ → ℕ} (hb : ∀ j < 8, b j < 2) (hd : ∀ j < 8, d j < 2)
    (h : ∀ j < 8, b' j = b j ^^^ d j) : packByte b' = packByte b ^^^ packByte d := by
  have hcn : packByte b' = packByte fun j => b j ^^^ d j := by
    simp [packByte, h]
  have hsm : ∀ j < 8, b j ^^^ d j < 2 := fun j hj =>
    Nat.xor_lt_two_pow (n := 1) (hb j hj) (hd j hj)
  rw [hcn, packByte_eq hb, packByte_eq hd, packByte_eq hsm]
  simp [Nat.shiftLeft_xor_distrib, xorSum_xor]

private theorem and_byte_lt (x : ℕ) : x &&& 0xff < 256 :=
  Nat.and_lt_two_pow (n := 8) x (by norm_num)

theorem rowParity_lt {m : ℕ} (s : EccAcc) (hj : j < 16 ∨ m = 2) : rowParity be m s j < 256 := by
  unfold rowParity
  split <;> try split
  all_goals first
    | exact and_byte_lt _
    | omega

def Code.xor (c d : Code) : Code := ⟨c.c0 ^^^ d.c0, c.c1 ^^^ d.c1, c.c2 ^^^ d.c2⟩

/-- A number in two-rail form: of each pair of bits, the one that the address bit selects. -/
def rail (n : ℕ) : ℕ := packByte fun j => if n / 2 ^ (j / 2) % 2 = j % 2 then 1 else 0

/-- The third byte: the bit address, and the highest bit of the byte address. -/
def railThird (eccsizeMult h c : ℕ) : ℕ :=
  packByte fun j =>
    if j < 2 then (if eccsizeMult = 1 then 0 else if h = j then 1 else 0)
    else parity8 (2 ^ c &&& colMask j)

/-- How the code changes with bit `c` of byte `a`. -/
def delta (smc : Bool) (eccsizeMult a c : ℕ) : Code :=
  if smc then ⟨rail a, rail (a / 16), railThird eccsizeMult (a / 256 % 2) c⟩
  else ⟨rail (a / 16), rail a, railThird eccsizeMult (a / 256 % 2) c⟩

/-- A block with bit `c` of byte `a` changed. -/
def flipAt (buf : List UInt8) (a c : ℕ) : List UInt8 :=
  buf.set a (buf.getD a 0 ^^^ UInt8.ofNat (1 <<< c))

private theorem toNat_mask : ∀ c < 8, (UInt8.ofNat (1 <<< c)).toNat = 2 ^ c := by decide

theorem flipAt_toNat (ha : a < buf.length) (hc : c < 8) (i : ℕ) :
    ((flipAt buf a c).getD i 0).toNat = (buf.getD i 0).toNat ^^^ single a c i := by
  rw [flipAt, getD_set, single]
  by_cases hi : i = a
  · subst hi
    rw [if_pos ⟨rfl, ha⟩, if_pos rfl, UInt8.toNat_xor, toNat_mask c hc]
  · rw [if_neg (fun h => hi h.1.symm), if_neg hi, Nat.xor_zero]

section Change

variable (be : Bool) (s : EccAcc) {m : ℕ} (hc : c < 8) (ha : a < 256 * m)
include hc ha

private theorem parity8_rowParity_single (hj : j < 16 ∨ m = 2 ∧ j < 18) :
    parity8 (rowParity be m (accumulate m (word be (single a c))) j)
      = if a / 2 ^ (j / 2) % 2 = j % 2 then 1 else 0 := by
  have hpow : ∀ c < 8, parity8 (2 ^ c) = 1 := by decide
  rw [rowParity_single hc ha hj]
  split
  · exact hpow c hc
  · rfl

private theorem invparity_rowParity (hj : j < 16 ∨ m = 2 ∧ j < 18) : invparity.getD (rowParity be m
        (s.xor (accumulate m (word be (single a c)))) j) 0
      = invparity.getD (rowParity be m s j) 0 ^^^ if a / 2 ^ (j / 2) % 2 = j % 2 then 1 else 0 := by
  have hj' : j < 16 ∨ m = 2 := by omega
  rw [rowParity_xor, invparity_xor (rowParity_lt s hj') (rowParity_lt _ hj'),
    parity8_rowParity_single be hc ha hj]

private theorem rowByte_change {i : ℕ} (hi : i < 2) :
    (packByte fun j => invparity.getD (rowParity be m
        (s.xor (accumulate m (word be (single a c)))) (8 * i + j)) 0)
      = (packByte fun j => invparity.getD (rowParity be m s (8 * i + j)) 0) ^^^
        rail (a / 16 ^ i) := by
  refine packByte_xor ?_ ?_ ?_
  · intro j hj
    exact invparity_lt (rowParity_lt s (.inl (by omega)))
  · intro j _
    split <;> norm_num
  intro j hj
  have hd : a / 2 ^ ((8 * i + j) / 2) = a / 16 ^ i / 2 ^ (j / 2) := by
    rw [Nat.div_div_eq_div_mul, show (16 : ℕ) = 2 ^ 4 by norm_num, ← pow_mul, ← pow_add]
    congr 2
    omega
  have hm : (8 * i + j) % 2 = j % 2 := by omega
  rw [invparity_rowParity be s hc ha (.inl (by omega)), hd, hm]

private theorem thirdByte_change (hm : m = 1 ∨ m = 2) : (packByte fun j =>
        if j < 2 then (if m = 1 then 1 else invparity.getD (rowParity be m
          (s.xor (accumulate m (word be (single a c)))) (16 + j)) 0) else invparity.getD
          (parByte (s.xor (accumulate m (word be (single a c)))) &&& colMask j) 0)
      = (packByte fun j =>
          if j < 2 then (if m = 1 then 1 else invparity.getD (rowParity be m s (16 + j)) 0)
          else invparity.getD (parByte s &&& colMask j) 0) ^^^ railThird m (a / 256 % 2) c := by
  have hcl : ∀ j x, x &&& colMask j < 256 := fun j x => by
    refine Nat.and_lt_two_pow (n := 8) x ?_
    unfold colMask
    split <;> norm_num
  refine packByte_xor ?_ ?_ ?_
  · intro j hj
    split_ifs
    · norm_num
    · exact invparity_lt (rowParity_lt s (by omega))
    · exact invparity_lt (hcl j _)
  · intro j _
    split_ifs
    · norm_num
    · norm_num
    · norm_num
    · exact parity8_lt
  intro j hj
  by_cases h2 : j < 2
  · rw [if_pos h2, if_pos h2, if_pos h2]
    rcases hm with rfl | rfl
    · simp
    have hhl : (16 + j) / 2 = 8 := by omega
    have hmd : (16 + j) % 2 = j := by omega
    rw [invparity_rowParity be s hc ha (.inr ⟨rfl, by omega⟩), hhl, hmd]
    norm_num
  · rw [if_neg h2, if_neg h2, if_neg h2, parByte_xor, parByte_single hc ha,
      Nat.and_xor_distrib_right, invparity_xor (hcl j _) (hcl j _)]

end Change

/-- **One changed bit changes the code by its address.** -/
theorem nandCalculateEcc_flipAt (be smc : Bool) (hsz : eccsize = 256 ∨ eccsize = 512)
    (hl : buf.length = eccsize) (ha : a < eccsize) (hc : c < 8) :
    nandCalculateEcc be smc (flipAt buf a c) eccsize
      = (nandCalculateEcc be smc buf eccsize).xor (delta smc (eccsize >>> 8) a c) := by
  obtain ⟨m, hm, hml, hae⟩ : ∃ m, eccsize >>> 8 = m ∧ (m = 1 ∨ m = 2) ∧ a < 256 * m := by
    rcases hsz with rfl | rfl
    · exact ⟨1, rfl, .inl rfl, ha⟩
    · exact ⟨2, rfl, .inr rfl, ha⟩
  have hwr : word be (fun i => ((flipAt buf a c).getD i 0).toNat)
      = fun k => word be (fun i => (buf.getD i 0).toNat) k ^^^ word be (single a c) k := by
    funext k
    rw [← word_xor]
    congr 1
    funext i
    exact flipAt_toNat (by omega) hc i
  simp only [nandCalculateEcc, hm, hwr, accumulate_xor]
  generalize accumulate m (word be fun i => (buf.getD i 0).toNat) = s
  have hlw := rowByte_change be s hc hae (i := 0) (by omega)
  have hhi := rowByte_change be s hc hae (i := 1) (by omega)
  have hthd := thirdByte_change be s hc hae hml
  simp only [mul_zero, zero_add, pow_zero, Nat.div_one] at hlw hhi
  rw [hlw, hhi, hthd, delta]
  split <;> rfl

/-! ## Correction and detection -/

theorem nandCorrectData_calc (smc : Bool) (c d : Code) :
    nandCorrectData smc buf c (c.xor d) eccsize = nandCorrectData smc buf ⟨0, 0, 0⟩ d eccsize := by
  simp [nandCorrectData, Code.xor]

theorem nandCorrectData_read (smc : Bool) (c d : Code) :
    nandCorrectData smc buf (c.xor d) c eccsize = nandCorrectData smc buf ⟨0, 0, 0⟩ d eccsize := by
  have h : ∀ x y : ℕ, x ^^^ y ^^^ x = y := fun x y => by
    rw [Nat.xor_comm x y, Nat.xor_assoc, Nat.xor_self, Nat.xor_zero]
  simp [nandCorrectData, Code.xor, h]

private theorem rail_mod (n : ℕ) : rail n = rail (n % 16) := by
  have h : ∀ j < 8, n / 2 ^ (j / 2) % 2 = n % 16 / 2 ^ (j / 2) % 2 := by
    intro j hj
    interval_cases j <;> omega
  simp only [rail, packByte]
  simp only [h, Nat.reduceLT]

/-- One address: each pair has exactly one bit set, and the table reads the address. -/
private theorem rail_spec (n : ℕ) :
    (rail n ^^^ (rail n >>> 1)) &&& 0x55 = 0x55 ∧ addressbits.getD (rail n) 0 = n % 16 ∧
      rail n ≠ 0 := by
  have h : ∀ n < 16, (rail n ^^^ (rail n >>> 1)) &&& 0x55 = 0x55 ∧
      addressbits.getD (rail n) 0 = n ∧ rail n ≠ 0 := by decide +kernel
  rw [rail_mod]
  exact h _ (Nat.mod_lt _ (by norm_num))

/-- Two addresses: each pair has both bits set or none. -/
private theorem rail_xor_spec (n n' : ℕ) :
    (rail n ^^^ rail n' ^^^ ((rail n ^^^ rail n') >>> 1)) &&& 0x55 ≠ 0x55 ∧
      bitsperbyte.getD (rail n ^^^ rail n') 0 % 2 = 0 ∧
      (rail n ^^^ rail n' = 0 → n % 16 = n' % 16) := by
  have h : ∀ n < 16, ∀ n' < 16,
      (rail n ^^^ rail n' ^^^ ((rail n ^^^ rail n') >>> 1)) &&& 0x55 ≠ 0x55 ∧
      bitsperbyte.getD (rail n ^^^ rail n') 0 % 2 = 0 ∧
      (rail n ^^^ rail n' = 0 → n = n') := by decide +kernel
  rw [rail_mod n, rail_mod n']
  exact h _ (Nat.mod_lt _ (by norm_num)) _ (Nat.mod_lt _ (by norm_num))

private theorem railThird_spec : ∀ h < 2, ∀ c < 8,
    ((railThird 1 h c ^^^ (railThird 1 h c >>> 1)) &&& 0x54 = 0x54 ∧
      addressbits.getD (railThird 1 h c >>> 2) 0 = c) ∧
    ((railThird 2 h c ^^^ (railThird 2 h c >>> 1)) &&& 0x55 = 0x55 ∧
      addressbits.getD (railThird 2 h c >>> 2) 0 = c ∧
      addressbits.getD (railThird 2 h c &&& 0x3) 0 = h) := by decide +kernel

private theorem railThird_xor_spec {m : ℕ} (hm : m = 1 ∨ m = 2) :
    ∀ (h h' : Fin 2) (c c' : Fin 8),
      bitsperbyte.getD (railThird m h c ^^^ railThird m h' c') 0 % 2 = 0 ∧
        (railThird m h c ^^^ railThird m h' c' = 0 →
          c.val = c'.val ∧ (m = 2 → h.val = h'.val)) := by
  rcases hm with rfl | rfl <;> decide +kernel

theorem flipAt_flipAt (ha : a < buf.length) : flipAt (flipAt buf a c) a c = buf := by
  have hce : (flipAt buf a c).getD a 0 = buf.getD a 0 ^^^ UInt8.ofNat (1 <<< c) := by
    rw [flipAt, getD_set, if_pos ⟨rfl, ha⟩]
  rw [flipAt, hce, flipAt, set_set, UInt8.xor_assoc, UInt8.xor_self, UInt8.xor_zero,
    getD_eq_getElem _ _ ha, set_getElem_self]

/-- The address of a single change is read back. -/
private theorem nandCorrectData_delta (smc : Bool)
    (hsz : eccsize = 256 ∨ eccsize = 512) (ha : a < eccsize) (hc : c < 8) (buf : List UInt8) :
    nandCorrectData smc buf ⟨0, 0, 0⟩ (delta smc (eccsize >>> 8) a c) eccsize
      = (1, flipAt buf a c) := by
  obtain ⟨hl, hal, hne⟩ := rail_spec a
  obtain ⟨hhi, hahi, -⟩ := rail_spec (a / 16)
  obtain ⟨⟨h1, ha1⟩, h2, ha2, hah⟩ :=
    railThird_spec (a / 256 % 2) (Nat.mod_lt _ (by norm_num)) c hc
  have hsmc : nandCorrectData smc buf ⟨0, 0, 0⟩ (delta smc (eccsize >>> 8) a c) eccsize
      = nandCorrectData true buf ⟨0, 0, 0⟩ (delta true (eccsize >>> 8) a c) eccsize := by
    cases smc <;> rfl
  have hz : ∀ z, ¬ rail a ||| rail (a / 16) ||| z = 0 := fun z h => by
    rw [Nat.or_eq_zero_iff, Nat.or_eq_zero_iff] at h
    exact hne h.1.1
  rw [hsmc]
  simp only [nandCorrectData, delta, if_true, Nat.zero_xor, if_neg (hz _), hl, hhi, hal, hahi]
  rcases hsz with rfl | rfl
  · have hm : 256 >>> 8 = 1 := rfl
    have had : (a / 16 % 16) <<< 4 + a % 16 = a := by
      omega
    simp only [hm, h1, ha1, had, true_and, true_or, if_true, flipAt]
  have hm : 512 >>> 8 = 2 := rfl
  have had : (a / 256 % 2) <<< 8 + (a / 16 % 16) <<< 4 + a % 16 = a := by
    omega
  simp only [hm, h2, ha2, hah, had, true_and, or_true, if_true, OfNat.ofNat_ne_one, if_false,
    flipAt]

private theorem nandCorrectData_delta_xor (smc : Bool) {a' : ℕ}
    (hsz : eccsize = 256 ∨ eccsize = 512) (ha : a < eccsize) (hc : c < 8) (ha' : a' < eccsize)
    (hc' : c' < 8) (hne : (a, c) ≠ (a', c')) (buf : List UInt8) : nandCorrectData smc buf ⟨0, 0, 0⟩
        ((delta smc (eccsize >>> 8) a c).xor (delta smc (eccsize >>> 8) a' c')) eccsize
      = (-1, buf) := by
  obtain ⟨hl, hbl, hzl⟩ := rail_xor_spec a a'
  obtain ⟨-, hbh, hzh⟩ := rail_xor_spec (a / 16) (a' / 16)
  have hm : eccsize >>> 8 = 1 ∧ eccsize = 256 ∨ eccsize >>> 8 = 2 ∧ eccsize = 512 := by
    rcases hsz with rfl | rfl
    · exact .inl ⟨rfl, rfl⟩
    · exact .inr ⟨rfl, rfl⟩
  obtain ⟨hbt, hzt⟩ := railThird_xor_spec (hm.imp And.left And.left)
    ⟨a / 256 % 2, Nat.mod_lt _ (by norm_num)⟩ ⟨a' / 256 % 2, Nat.mod_lt _ (by norm_num)⟩ ⟨c, hc⟩
      ⟨c', hc'⟩
  simp only at hbt hzt
  have hsmc : nandCorrectData smc buf ⟨0, 0, 0⟩
        ((delta smc (eccsize >>> 8) a c).xor (delta smc (eccsize >>> 8) a' c')) eccsize
      = nandCorrectData true buf ⟨0, 0, 0⟩
        ((delta true (eccsize >>> 8) a c).xor (delta true (eccsize >>> 8) a' c')) eccsize := by
    cases smc <;> rfl
  have hso : ¬ (rail a ^^^ rail a') ||| (rail (a / 16) ^^^ rail (a' / 16)) |||
      (railThird (eccsize >>> 8) (a / 256 % 2) c ^^^ railThird (eccsize >>> 8) (a' / 256 % 2) c')
        = 0 := by
    intro h
    rw [Nat.or_eq_zero_iff, Nat.or_eq_zero_iff] at h
    have h1 := hzl h.1.1
    have h2 := hzh h.1.2
    obtain ⟨hcc, h3⟩ := hzt h.2
    refine hne (Prod.ext ?_ hcc)
    rcases hm with ⟨-, hs⟩ | ⟨hm2, hs⟩
    · simp only
      omega
    have := h3 hm2
    simp only
    omega
  rw [hsmc]
  simp only [nandCorrectData, Code.xor, delta, if_true, Nat.zero_xor]
  rw [if_neg hso, if_neg (fun h => hl h.1), if_neg (by omega)]

/-- The codes that differ from zero in one bit. -/
def unitCode (k j : ℕ) : Code :=
  match k with
  | 0 => ⟨2 ^ j, 0, 0⟩
  | 1 => ⟨0, 2 ^ j, 0⟩
  | _ => ⟨0, 0, 2 ^ j⟩

/-- A difference of one bit leaves one of the address bytes zero. -/
private theorem nandCorrectData_one (buf : List UInt8) {z : ℕ} (hxy : x = 0 ∨ y = 0)
    (ho : bitsperbyte.getD x 0 + bitsperbyte.getD y 0 + bitsperbyte.getD z 0 = 1)
    (hne : ¬ x ||| y ||| z = 0) (eccsize : ℕ) :
    nandCorrectData true buf ⟨0, 0, 0⟩ ⟨x, y, z⟩ eccsize = (1, buf) := by
  simp only [nandCorrectData, if_true, Nat.zero_xor]
  rw [if_neg hne, if_neg, if_pos ho]
  rintro ⟨h1, h2, -⟩
  rcases hxy with rfl | rfl
  · cases h1
  · cases h2

private theorem nandCorrectData_unit (smc : Bool) (buf : List UInt8) {k : ℕ} (hk : k < 3)
    (hj : j < 8) (eccsize : ℕ) :
    nandCorrectData smc buf ⟨0, 0, 0⟩ (unitCode k j) eccsize = (1, buf) := by
  have hbt : ∀ j < 8, bitsperbyte.getD (2 ^ j) 0 = 1 := by decide
  have h0 : bitsperbyte.getD 0 0 = 0 := rfl
  have h1 : bitsperbyte.getD (2 ^ j) 0 = 1 := hbt j hj
  have hf := nandCorrectData_one buf (x := 2 ^ j) (.inr rfl)
    (by rw [h0, h1]) (by simp) eccsize
  have hsec := nandCorrectData_one buf (y := 2 ^ j) (.inl rfl)
    (by rw [h0, h1]) (by simp) eccsize
  have hthd := nandCorrectData_one buf (z := 2 ^ j) (.inl rfl)
    (by rw [h0, h1]) (by simp) eccsize
  interval_cases k
  · cases smc
    · exact hsec
    · exact hf
  · cases smc
    · exact hf
    · exact hsec
  cases smc
  · exact hthd
  · exact hthd

/-- **Single-error correction and double-error detection.** -/
theorem nandEcc_corrects (bigEndian smc : Bool) {eccsize : ℕ}
    (hsize : eccsize = 256 ∨ eccsize = 512) (buf : List UInt8) (hlen : buf.length = eccsize) :
    (∀ a < eccsize, ∀ c < 8,
      nandCorrectData smc (flipAt buf a c) (nandCalculateEcc bigEndian smc buf eccsize)
        (nandCalculateEcc bigEndian smc (flipAt buf a c) eccsize) eccsize = (1, buf)) ∧
    (∀ k < 3, ∀ j < 8,
      nandCorrectData smc buf ((nandCalculateEcc bigEndian smc buf eccsize).xor (unitCode k j))
        (nandCalculateEcc bigEndian smc buf eccsize) eccsize = (1, buf)) ∧
    ∀ a < eccsize, ∀ c < 8, ∀ a' < eccsize, ∀ c' < 8, (a, c) ≠ (a', c') →
      nandCorrectData smc (flipAt (flipAt buf a c) a' c')
        (nandCalculateEcc bigEndian smc buf eccsize)
        (nandCalculateEcc bigEndian smc (flipAt (flipAt buf a c) a' c') eccsize) eccsize
        = (-1, flipAt (flipAt buf a c) a' c') := by
  refine ⟨?_, ?_, ?_⟩
  · intro a ha c hc
    rw [nandCalculateEcc_flipAt bigEndian smc hsize hlen ha hc, nandCorrectData_calc,
      nandCorrectData_delta smc hsize ha hc, flipAt_flipAt (by omega)]
  · intro k hk j hj
    rw [nandCorrectData_read, nandCorrectData_unit smc buf hk hj]
  intro a ha c hc a' ha' c' hc' hne
  have hlen' : (flipAt buf a c).length = eccsize := by
    rw [flipAt, length_set, hlen]
  have hassoc : ∀ x y z : Code, (x.xor y).xor z = x.xor (y.xor z) := fun x y z => by
    simp [Code.xor, Nat.xor_assoc]
  rw [nandCalculateEcc_flipAt bigEndian smc hsize hlen' ha' hc',
    nandCalculateEcc_flipAt bigEndian smc hsize hlen ha hc, hassoc, nandCorrectData_calc,
    nandCorrectData_delta_xor smc hsize ha hc ha' hc' hne]

/-- An erased block of 256 bytes with its last bit flipped. -/
theorem nandEcc_corrects_erased :
    (replicate 256 (0xFF : UInt8)).length = 256 ∧
      nandCorrectData false (flipAt (replicate 256 0xFF) 255 7)
        (nandCalculateEcc false false (replicate 256 0xFF) 256)
        (nandCalculateEcc false false (flipAt (replicate 256 0xFF) 255 7) 256) 256
        = (1, replicate 256 0xFF) :=
  ⟨length_replicate, (nandEcc_corrects false false (.inl rfl) (replicate 256 0xFF)
    length_replicate).1 255 (by norm_num) 7 (by norm_num)⟩

end NestLinux.Mtd.NandEcc
