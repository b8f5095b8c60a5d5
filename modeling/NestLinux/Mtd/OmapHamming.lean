import Mathlib.Algebra.BigOperators.Group.List.Basic
import Mathlib.Data.Nat.Bitwise
import Mathlib.Tactic.IntervalCases

/-!
# The hardware Hamming code of the OMAP

`drivers/mtd/nand/omap2.c`: the memory controller computes 24 parities of a block of 512 bytes,
two for each bit of a bit address. A flipped bit
changes one parity of each pair; two flipped bits change both parities of the pairs of those
address bits in which they differ, so that they pass for one flipped bit if there are six.
-/

namespace NestLinux.Mtd.OmapHamming

open Function List

/-! ## The controller -/

/-- The bytes at `page_data`. -/
abbrev Page := ℕ → BitVec 8

variable (page : Page)

def dataBit (a : ℕ) : Bool := (page (a / 8)).getLsbD (a % 8)

/-- The parity of the bits below `n` whose addresses have bit `k` clear, or set. -/
def parityBelow (page : Page) (k : ℕ) (odd : Bool) : ℕ → Bool
  | 0 => false
  | n + 1 => parityBelow page k odd n ^^ (n.testBit k == odd && dataBit page n)

/-- The parity of a half of the block. -/
def parity (k : ℕ) (odd : Bool) : Bool := parityBelow page k odd 4096

/-- The register with the bits `f` below `n`. -/
def register (f : ℕ → Bool) : ℕ → BitVec 32
  | 0 => 0
  | n + 1 => register f n ||| if f n then BitVec.twoPow 32 n else 0

/-- The register `GPMC_ECC1_RESULT`: `P1e` to `P2048e` from bit 0 on, `P1o` to `P2048o` from
bit 16 on. -/
def eccResult : BitVec 32 :=
  register (fun i => i % 16 < 12 && parity page (i % 16) (16 ≤ i)) 28

structure Ecc where
  b0 : BitVec 8
  b1 : BitVec 8
  b2 : BitVec 8
  deriving DecidableEq

/-- `gpmc_calculate_ecc`, of the register. -/
def gpmcCalculateEcc (val1 : BitVec 32) : Ecc where
  b0 := val1.setWidth 8
  b1 := (val1 >>> 16).setWidth 8
  b2 := (((val1 >>> 8) &&& 0x0f#32) ||| ((val1 >>> 20) &&& 0xf0#32)).setWidth 8

def blockEcc : Ecc := gpmcCalculateEcc (eccResult page)

/-! ## The driver -/

/-- `TF(a & (1 << k)) << n`. -/
def tf (a : BitVec 32) (k n : ℕ) : BitVec 8 :=
  if a &&& BitVec.twoPow 32 k ≠ 0#32 then BitVec.twoPow 8 n else 0#8

/-- The word `tmp` of `gen_true_ecc`. -/
def unpackEcc (e : Ecc) : BitVec 32 :=
  e.b0.setWidth 32 ||| (e.b1.setWidth 32 <<< 16) |||
    ((e.b2.setWidth 32 &&& 0xf0#32) <<< 20) ||| ((e.b2.setWidth 32 &&& 0x0f#32) <<< 8)

def genTrueEcc (e : Ecc) : Ecc :=
  let tmp := unpackEcc e
  { b0 := ~~~(tf tmp 22 7 ||| tf tmp 6 6 ||| tf tmp 21 5 ||| tf tmp 5 4 |||
      tf tmp 20 3 ||| tf tmp 4 2 ||| tf tmp 19 1 ||| tf tmp 3 0)
    b1 := ~~~(tf tmp 26 7 ||| tf tmp 10 6 ||| tf tmp 25 5 ||| tf tmp 9 4 |||
      tf tmp 24 3 ||| tf tmp 8 2 ||| tf tmp 23 1 ||| tf tmp 7 0)
    b2 := ~~~(tf tmp 18 7 ||| tf tmp 2 6 ||| tf tmp 17 5 ||| tf tmp 1 4 |||
      tf tmp 16 3 ||| tf tmp 0 2 ||| tf tmp 27 1 ||| tf tmp 11 0) }

/-- The loop that takes `n` bits from a byte, and what is left of it. -/
def takeBits : ℕ → BitVec 8 → List ℕ × BitVec 8
  | 0, b => ([], b)
  | n + 1, b =>
    let r := takeBits n (b / 2#8)
    ((b % 2#8).toNat :: r.1, r.2)

/-- The array `ecc_bit`: the bits in which the true codes differ. -/
def eccBits (eccData1 eccData2 : Ecc) : List ℕ :=
  let true1 := genTrueEcc eccData1
  let true2 := genTrueEcc eccData2
  let bits0 := zipWith (· ^^^ ·) (takeBits 8 (~~~true1.b0)).1 (takeBits 8 (~~~true2.b0)).1
  let bits1 := zipWith (· ^^^ ·) (takeBits 8 (~~~true1.b1)).1 (takeBits 8 (~~~true2.b1)).1
  let bits2 := zipWith (· ^^^ ·) (takeBits 8 (~~~true1.b2)).1 (takeBits 8 (~~~true2.b2)).1
  bits2.drop 2 ++ bits0 ++ bits1 ++ bits2.take 2

/-- What the loops leave of `ecc_data2`. -/
def leftOver (eccData2 : Ecc) : Ecc :=
  let true2 := genTrueEcc eccData2
  ⟨(takeBits 8 (~~~true2.b0)).2, (takeBits 8 (~~~true2.b1)).2, (takeBits 8 (~~~true2.b2)).2⟩

def findByte (bit : ℕ → ℕ) : ℕ :=
  (bit 23 <<< 8) + (bit 21 <<< 7) + (bit 19 <<< 6) + (bit 17 <<< 5) + (bit 15 <<< 4) +
    (bit 13 <<< 3) + (bit 11 <<< 2) + (bit 9 <<< 1) + bit 7

def findBit (bit : ℕ → ℕ) : ℕ := (bit 5 <<< 2) + (bit 3 <<< 1) + bit 1

/-- `omap_compare_ecc`: the return value and the block. -/
def omapCompareEcc (eccData1 eccData2 : Ecc) (page : Page) : ℤ × Page :=
  let bit := fun i => (eccBits eccData1 eccData2).getD i 0
  match (eccBits eccData1 eccData2).sum with
  | 0 => (0, page)
  | 1 => (-1, page)
  | 11 => (-1, page)
  | 12 =>
    (0, update page (findByte bit) (page (findByte bit) ^^^ BitVec.twoPow 8 (findBit bit)))
  | _ =>
    if eccData1 = ⟨0xff, 0xff, 0xff⟩ ∧ leftOver eccData2 = ⟨0, 0, 0⟩ then (0, page) else (-1, page)

/-! ## The bits compared -/

theorem takeBits_eq (n : ℕ) (b : BitVec 8) :
    takeBits n b = ((range n).map fun i => (b.getLsbD i).toNat, b >>> n) := by
  induction n generalizing b with
  | zero => simp [takeBits]
  | succ n ih =>
    have hhl : b / 2#8 = b >>> 1 := BitVec.eq_of_toNat_eq (by simp [Nat.shiftRight_eq_div_pow])
    have hb : (b % 2#8).toNat = (b.getLsbD 0).toNat := by
      simp [BitVec.getLsbD, Nat.toNat_testBit, -Nat.testBit_zero]
    rw [takeBits, ih, hhl, hb, range_succ_eq_map]
    simp [← BitVec.shiftRight_add, add_comm]

theorem getLsbD_tf (a : BitVec 32) (k n i : ℕ) :
    (tf a k n).getLsbD i = (decide (k < 32) && a.getLsbD k && decide (n < 8) &&
      decide (n = i)) := by
  rw [tf, BitVec.and_twoPow]
  cases h : a.getLsbD k with
  | false => simp
  | true =>
    have hk : k < 32 := BitVec.lt_of_getLsbD h
    have hne : BitVec.twoPow 32 k ≠ 0#32 := by
      intro hz
      have := congrArg (fun v => BitVec.getLsbD v k) hz
      simp [hk] at this
    simp [hk, hne]

theorem getLsbD_register (f : ℕ → Bool) {n j : ℕ} (hn : n ≤ 32) :
    (register f n).getLsbD j = (decide (j < n) && f j) := by
  induction n with
  | zero => simp [register]
  | succ n ih =>
    rw [register, BitVec.getLsbD_or, ih (by omega)]
    rcases lt_trichotomy j n with hlt | rfl | hgt
    · cases f n <;> simp [hlt, hlt.ne', Nat.lt_succ_of_lt hlt]
    · cases f j <;> simp [show j < 32 by omega]
    · cases f n <;> simp [hgt.ne, show ¬ j < n by omega, show ¬ j < n + 1 by omega]

theorem getLsbD_eccResult {k : ℕ} (hk : k < 12) (odd : Bool) :
    (eccResult page).getLsbD (k + odd.toNat * 16) = parity page k odd := by
  rw [eccResult, getLsbD_register _ (by decide)]
  cases odd
  · simp [hk, Nat.mod_eq_of_lt (show k < 16 by omega), show k < 28 by omega, show ¬ 16 ≤ k by omega]
  · simp [hk, Nat.mod_eq_of_lt (show k < 16 by omega), show k + 16 < 28 by omega]

theorem getLsbD_unpackEcc (v : BitVec 32) {i : ℕ} (hi : i < 28) (hl : i % 16 < 12) :
    (unpackEcc (gpmcCalculateEcc v)).getLsbD i = v.getLsbD i := by
  simp only [unpackEcc, gpmcCalculateEcc, BitVec.getLsbD_or, BitVec.getLsbD_and,
    BitVec.getLsbD_shiftLeft, BitVec.getLsbD_ushiftRight, BitVec.getLsbD_setWidth]
  interval_cases i <;>
    simp only [Nat.reduceMod, Nat.reduceLT, Nat.reduceSub, BitVec.reduceGetLsb, decide_true,
      decide_false, Bool.true_and, Bool.and_true, Bool.false_and, Bool.and_false,
      Bool.or_false, Bool.false_or, Bool.not_true, Bool.not_false] at hl ⊢

/-- The bits of a true code are the bits of the register in another order. -/
theorem getLsbD_genTrueEcc (v : BitVec 32) {i : ℕ} (hi : i < 8) :
    (~~~(genTrueEcc (gpmcCalculateEcc v)).b0).getLsbD i = v.getLsbD (i / 2 + 3 + i % 2 * 16) ∧
    (~~~(genTrueEcc (gpmcCalculateEcc v)).b1).getLsbD i = v.getLsbD (i / 2 + 7 + i % 2 * 16) ∧
    (~~~(genTrueEcc (gpmcCalculateEcc v)).b2).getLsbD i =
      v.getLsbD ((i / 2 + 11) % 12 + i % 2 * 16) := by
  interval_cases i <;>
    simp [genTrueEcc, getLsbD_tf, getLsbD_unpackEcc, -BitVec.getLsbD_eq_getElem]

variable (page page' : Page)

/-- The parities, by their number from the given one on. -/
def parities (first : ℕ) : List ℕ :=
  (range 8).map fun i => (parity page ((i / 2 + first) % 12) (i % 2 == 1)).toNat

theorem takeBits_blockEcc :
    takeBits 8 (~~~(genTrueEcc (blockEcc page)).b0) = (parities page 3, 0#8) ∧
    takeBits 8 (~~~(genTrueEcc (blockEcc page)).b1) = (parities page 7, 0#8) ∧
    takeBits 8 (~~~(genTrueEcc (blockEcc page)).b2) = (parities page 11, 0#8) := by
  have hb (first i : ℕ) : (eccResult page).getLsbD ((i / 2 + first) % 12 + i % 2 * 16) =
      parity page ((i / 2 + first) % 12) (i % 2 == 1) := by
    rw [← getLsbD_eccResult page (Nat.mod_lt _ (by decide))]
    rcases Nat.mod_two_eq_zero_or_one i with h | h <;> simp [h]
  simp only [takeBits_eq, blockEcc, Prod.mk.injEq, BitVec.ushiftRight_eq_zero, le_refl, and_true]
  refine ⟨map_congr_left fun i hi => ?_, map_congr_left fun i hi => ?_,
    map_congr_left fun i hi => ?_⟩
  all_goals
    have hi := mem_range.1 hi
    obtain ⟨h0, h1, h2⟩ := getLsbD_genTrueEcc (eccResult page) hi
  · rw [h0, ← hb, Nat.mod_eq_of_lt (show i / 2 + 3 < 12 by omega)]
  · rw [h1, ← hb, Nat.mod_eq_of_lt (show i / 2 + 7 < 12 by omega)]
  · rw [h2, ← hb]

theorem toNat_xor (a b : Bool) : a.toNat ^^^ b.toNat = (a ^^ b).toNat := by
  cases a <;> cases b <;> rfl

/-- **The bits compared** are the parities in which two blocks differ. -/
theorem eccBits_blockEcc : eccBits (blockEcc page) (blockEcc page') = (range 24).map fun i =>
      (parity page (i / 2) (i % 2 == 1) ^^ parity page' (i / 2) (i % 2 == 1)).toNat := by
  simp [eccBits, takeBits_blockEcc, parities, range_succ, toNat_xor]

/-! ## Errors -/

/-- `page_data[a / 8] ^= (1 << (a % 8))`: the bit at an address is flipped. -/
def flipBit (a : ℕ) : Page := update page (a / 8) (page (a / 8) ^^^ BitVec.twoPow 8 (a % 8))

theorem flipBit_flipBit (a : ℕ) : flipBit (flipBit page a) a = page := by
  rw [flipBit, flipBit, update_self, update_idem, BitVec.xor_assoc, BitVec.xor_self,
    BitVec.xor_zero, update_eq_self]

theorem dataBit_flipBit (a b : ℕ) :
    dataBit (flipBit page a) b = (dataBit page b ^^ decide (b = a)) := by
  rw [dataBit, dataBit, flipBit]
  by_cases hby : b / 8 = a / 8
  · have hif : b = a ↔ a % 8 = b % 8 := by omega
    rw [hby, update_self, BitVec.getLsbD_xor, BitVec.getLsbD_twoPow]
    simp [hif, Nat.mod_lt]
  have hne : b ≠ a := fun h => hby (by rw [h])
  rw [update_of_ne hby]
  simp [hne]

/-- A flipped bit flips the parities of the halves it is in. -/
theorem parityBelow_flipBit (a k n : ℕ) (odd : Bool) : parityBelow (flipBit page a) k odd n =
      (parityBelow page k odd n ^^ (decide (a < n) && (a.testBit k == odd))) := by
  induction n with
  | zero => rfl
  | succ n ih =>
    rw [parityBelow, parityBelow, ih, dataBit_flipBit]
    by_cases hn : n = a
    · subst hn
      cases hhl : n.testBit k == odd <;> simp
    have hlt : a < n + 1 ↔ a < n := by omega
    simp [hn, hlt, Bool.xor_comm, Bool.xor_left_comm]

theorem parity_flipBit (a : Fin 4096) (k : ℕ) (odd : Bool) :
    parity (flipBit page a) k odd = (parity page k odd ^^ (a.val.testBit k == odd)) := by
  rw [parity, parityBelow_flipBit, decide_eq_true a.isLt, Bool.true_and, parity]

/-- The number of bits in which two bit addresses differ. -/
def bitDistance (a b : ℕ) : ℕ :=
  ((range 12).map fun k => (a.testBit k ^^ b.testBit k).toNat).sum

/-- A sum over the parities is one over the pairs. -/
theorem sum_pairs (g : ℕ → Bool → ℕ) (n : ℕ) :
    ((range (2 * n)).map fun i => g (i / 2) (i % 2 == 1)).sum =
      ((range n).map fun k => g k false + g k true).sum := by
  induction n with
  | zero => rfl
  | succ n ih =>
    have h0 : 2 * n / 2 = n := by omega
    have h1 : (2 * n + 1) / 2 = n := by omega
    rw [Nat.mul_succ, range_succ, range_succ, range_succ]
    simp [ih, h1]

theorem findByte_eq {bit q : ℕ → ℕ} (hsp : ∀ k, q k = 2 * q (k + 1) + bit (2 * k + 7))
    (ht : q 9 = 0) : findByte bit = q 0 := by
  have h0 : q 0 = 2 * q 1 + bit 7 := hsp 0
  have h1 : q 1 = 2 * q 2 + bit 9 := hsp 1
  have h2 : q 2 = 2 * q 3 + bit 11 := hsp 2
  have h3 : q 3 = 2 * q 4 + bit 13 := hsp 3
  have h4 : q 4 = 2 * q 5 + bit 15 := hsp 4
  have h5 : q 5 = 2 * q 6 + bit 17 := hsp 5
  have h6 : q 6 = 2 * q 7 + bit 19 := hsp 6
  have h7 : q 7 = 2 * q 8 + bit 21 := hsp 7
  have h8 : q 8 = 2 * q 9 + bit 23 := hsp 8
  simp only [findByte]
  omega

/-- **One flipped bit** is found and restored. -/
theorem omapCompareEcc_corrects (page : Page) (a : Fin 4096) :
    omapCompareEcc (blockEcc page) (blockEcc (flipBit page a)) (flipBit page a) = (0, page) := by
  have hbits : eccBits (blockEcc page) (blockEcc (flipBit page a)) =
      (range 24).map fun i => (a.val.testBit (i / 2) == (i % 2 == 1)).toNat := by
    simp [eccBits_blockEcc, parity_flipBit]
  have hsum : (eccBits (blockEcc page) (blockEcc (flipBit page a))).sum = 12 := by
    rw [hbits, sum_pairs (fun k odd => (a.val.testBit k == odd).toNat) 12]
    have hpair (b : Bool) : (b == false).toNat + (b == true).toNat = 1 := by cases b <;> rfl
    simp only [hpair]
    rfl
  have hodd (k : ℕ) : (eccBits (blockEcc page) (blockEcc (flipBit page a))).getD (2 * k + 1) 0 =
      a.val / 2 ^ k % 2 := by
    have hdiv : (2 * k + 1) / 2 = k := by omega
    rw [hbits]
    by_cases hk : k < 12
    · simp [show 2 * k + 1 < 24 by omega, hdiv, Nat.toNat_testBit]
    have hle : 4096 ≤ 2 ^ k := Nat.pow_le_pow_right (n := 2) (by decide) (show 12 ≤ k by omega)
    simp [show ¬ 2 * k + 1 < 24 by omega, Nat.div_eq_of_lt (a.isLt.trans_le hle)]
  have hbyte : findByte (fun i => (eccBits (blockEcc page) (blockEcc (flipBit page a))).getD i 0) =
      a.val / 8 := by
    refine findByte_eq (q := fun k => a.val / 2 ^ (k + 3)) (fun k => ?_) (Nat.div_eq_of_lt a.isLt)
    have hdiv : a.val / 2 ^ (k + 1 + 3) = a.val / 2 ^ (k + 3) / 2 := by
      rw [Nat.div_div_eq_div_mul, ← Nat.pow_succ]
    have hbit := hodd (k + 3)
    rw [show 2 * (k + 3) + 1 = 2 * k + 7 by omega] at hbit
    omega
  have hbit : findBit (fun i => (eccBits (blockEcc page) (blockEcc (flipBit page a))).getD i 0) =
      a.val % 8 := by
    have h0 := hodd 0
    have h1 := hodd 1
    have h2 := hodd 2
    simp only [findBit, Nat.reduceMul, Nat.reduceAdd] at h0 h1 h2 ⊢
    omega
  rw [omapCompareEcc, hsum, hbyte, hbit, ← flipBit, flipBit_flipBit]
  rfl

theorem bitDistance_pos {a b : Fin 4096} (h : a ≠ b) : 0 < bitDistance a b := by
  by_contra hz
  apply h
  apply Fin.ext
  apply Nat.eq_of_testBit_eq
  intro k
  by_cases hk : k < 12
  · have htr := List.sum_eq_zero_iff_forall_eq_nat.1 (Nat.eq_zero_of_not_pos hz) _
      (mem_map_of_mem (mem_range.2 hk))
    revert htr
    cases a.val.testBit k <;> cases b.val.testBit k <;> simp
  · have hle : 4096 ≤ 2 ^ k := Nat.pow_le_pow_right (n := 2) (by decide) (show 12 ≤ k by omega)
    rw [Nat.testBit_lt_two_pow (a.isLt.trans_le hle), Nat.testBit_lt_two_pow (b.isLt.trans_le hle)]

def flipTwo (a b : Fin 4096) : Page := flipBit (flipBit page a) b

/-- Two flipped bits: what is counted is twice their distance. -/
theorem sum_eccBits_flipTwo (a b : Fin 4096) :
    (eccBits (blockEcc page) (blockEcc (flipTwo page a b))).sum = 2 * bitDistance a b := by
  have hpr (x y odd p : Bool) : (p ^^ ((p ^^ (x == odd)) ^^ (y == odd))) = (x ^^ y) := by
    cases x <;> cases y <;> cases odd <;> cases p <;> rfl
  simp only [flipTwo, eccBits_blockEcc, parity_flipBit, hpr]
  rw [sum_pairs (fun k _ => (a.val.testBit k ^^ b.val.testBit k).toNat) 12, sum_map_add, ← two_mul,
    bitDistance]

/-- **Two flipped bits** are reported unless their addresses differ in six bits, or the code of the
block is all ones. -/
theorem omapCompareEcc_detects_iff (page : Page) (a b : Fin 4096) (hne : a ≠ b) :
    omapCompareEcc (blockEcc page) (blockEcc (flipTwo page a b)) (flipTwo page a b) =
        (-1, flipTwo page a b) ↔
      bitDistance a b ≠ 6 ∧ blockEcc page ≠ ⟨0xff, 0xff, 0xff⟩ := by
  have hpos := bitDistance_pos hne
  have hleft : leftOver (blockEcc (flipTwo page a b)) = ⟨0, 0, 0⟩ := by
    simp [leftOver, takeBits_blockEcc]
  rw [omapCompareEcc, sum_eccBits_flipTwo]
  simp only [hleft]
  split
  · omega
  · omega
  · omega
  · have hsix : bitDistance a b = 6 := by omega
    simp [hsix]
  rename_i htwelve
  have hsix : bitDistance a b ≠ 6 := fun h => htwelve (by omega)
  simp [hsix]

def zeros : Page := fun _ => 0

theorem blockEcc_zeros_ne : blockEcc zeros ≠ ⟨0xff, 0xff, 0xff⟩ := by
  have hpty (n : ℕ) : parityBelow zeros 0 false n = false := by
    induction n with
    | zero => rfl
    | succ n ih => simp [parityBelow, ih, dataBit, zeros]
  intro h
  have hb : (eccResult zeros).getLsbD 0 = false :=
    (getLsbD_eccResult zeros (by decide) false).trans (hpty 4096)
  have hff := congrArg (fun e => e.b0.getLsbD 0) h
  simp [blockEcc, gpmcCalculateEcc, hb, -BitVec.getLsbD_eq_getElem] at hff

theorem omapCompareEcc_detects_neighbours :
    omapCompareEcc (blockEcc zeros) (blockEcc (flipTwo zeros 0 1)) (flipTwo zeros 0 1) =
      (-1, flipTwo zeros 0 1) :=
  (omapCompareEcc_detects_iff zeros 0 1 (by decide)).2 ⟨by decide, blockEcc_zeros_ne⟩

/-- Two bits whose addresses differ in six bits pass for one. -/
theorem omapCompareEcc_misses :
    (omapCompareEcc (blockEcc zeros) (blockEcc (flipTwo zeros 0 63))
      (flipTwo zeros 0 63)).1 = 0 := by
  have hsix : bitDistance (0 : Fin 4096) (63 : Fin 4096) = 6 := by decide
  rw [omapCompareEcc, sum_eccBits_flipTwo, hsix]
  rfl

end NestLinux.Mtd.OmapHamming
