import NestLinux.Mtd.BchCorrect
import NestLinux.Mtd.OmapHamming

/-!
# Correcting a page in the OMAP NAND driver

`omap_correct_data` of `drivers/mtd/nand/omap2.c`: for each 512-byte block of a page,
compare the stored and the computed Hamming code, or hand the BCH syndrome that the
GPMC engine has delivered to `decode_bch` and flip the bits it reports. The syndrome
is a parameter: what `gpmc_calculate_ecc` reads out of the hardware registers.

The two codes treat a block that cannot be corrected differently. The Hamming path
returns a negative value. The BCH path has no such exit: the count of `decode_bch` is
only used as the bound of the loop that flips bits, so a failure is not reported
(`omapCorrectData_bch4_fst`), and a count above four runs that loop over whatever the
array of locations still holds.
-/

namespace NestLinux.Mtd

open Lib Bch

variable {base m n : ℕ} {dat readEcc calcEcc : List UInt8} {errLoc : List ℕ}

inductive EccOpt where
  | hammingCodeDefault
  | hammingCodeHw
  | hammingCodeHwRomcode
  | bch4CodeHw
  | bch8CodeHw
  deriving DecidableEq, Repr

/-! ## The Hamming code -/

/-- The first three bytes at a pointer. -/
def eccOf (l : List UInt8) : OmapHamming.Ecc :=
  ⟨(l.getD 0 0).toBitVec, (l.getD 1 0).toBitVec, (l.getD 2 0).toBitVec⟩

/-- `omap_compare_ecc` of the block at `base`. -/
def compareBlock (readEcc calcEcc : List UInt8) (base : ℕ) (dat : List UInt8) : ℤ × List UInt8 :=
  let page := fun i => (dat.getD (base + i) 0).toBitVec
  let r := OmapHamming.omapCompareEcc (eccOf readEcc) (eccOf calcEcc) page
  (r.1, dat.mapIdx fun i b => if base ≤ i then .ofBitVec (r.2 (i - base)) else b)

/-- The loop over the blocks with a Hamming code; `base` is how far `dat` has advanced. -/
def hammingBlocks : ℕ → List UInt8 → List UInt8 → ℕ → List UInt8 → ℤ × List UInt8
  | 0, _, _, _, dat => (0, dat)
  | n + 1, readEcc, calcEcc, base, dat =>
    if readEcc.take 3 ≠ calcEcc.take 3 then
      let r := compareBlock readEcc calcEcc base dat
      if r.1 < 0 then r
      else hammingBlocks n (readEcc.drop 3) (calcEcc.drop 3) (base + 512) r.2
    else hammingBlocks n (readEcc.drop 3) (calcEcc.drop 3) (base + 512) dat

/-! ## The BCH code -/

/-- `dat[err_loc >> 3] ^= 1 << (err_loc & 7)` for a location in the data area. -/
def flipBit (base : ℕ) (dat : List UInt8) (loc : ℕ) : List UInt8 :=
  if loc < 4096 then
    dat.set (base + (loc >>> 3))
      (dat.getD (base + (loc >>> 3)) 0 ^^^ UInt8.ofNat (1 <<< (loc &&& 7)))
  else dat

def flipBits (base : ℕ) (locs : List ℕ) (dat : List UInt8) : List UInt8 :=
  locs.foldl (flipBit base) dat

/-- `eccflag`: the syndrome is not zero, and the stored code is not that of an erased
block. -/
def eccflag (readEcc calcEcc : List UInt8) : Bool :=
  (calcEcc.take 7).any (· != 0) && (readEcc.take 7).any (· != 0xFF)

/-- `count` and the location array: `decode_bch` is only called if there is something
to correct. -/
def bchDecode (readEcc calcEcc : List UInt8) (errLoc : List ℕ) : ℤ × List ℕ :=
  if eccflag readEcc calcEcc then decodeBch 0 (calcEcc.take 7) errLoc else (0, errLoc)

/-- The body of the loop for one block: the location array is shared by all blocks. -/
def bchBlock (base : ℕ) (readEcc calcEcc : List UInt8) (errLoc : List ℕ) (dat : List UInt8) :
    List ℕ × List UInt8 :=
  let r := bchDecode readEcc calcEcc errLoc
  (r.2, flipBits base (r.2.take r.1.toNat) dat)

def bchBlocks : ℕ → List UInt8 → List UInt8 → ℕ → List ℕ → List UInt8 → List UInt8
  | 0, _, _, _, _, dat => dat
  | n + 1, readEcc, calcEcc, base, errLoc, dat =>
    let r := bchBlock base readEcc calcEcc errLoc dat
    bchBlocks n (readEcc.drop 7) (calcEcc.drop 7) (base + 512) r.1 r.2

/-- The fields of `info->nand.ecc` that are read here. -/
structure NandEcc where
  modeHw : Bool
  size : ℕ

def blockCnt (ecc : NandEcc) : ℕ := if ecc.modeHw ∧ ecc.size = 2048 then 4 else 1

/-- `omap_correct_data`; `errLoc` is what the uninitialised array on the stack holds. -/
def omapCorrectData (ecc : NandEcc) (opt : EccOpt) (dat readEcc calcEcc : List UInt8)
    (errLoc : List ℕ) : ℤ × List UInt8 :=
  match opt with
  | .hammingCodeHw => hammingBlocks (blockCnt ecc) readEcc calcEcc 0 dat
  | .hammingCodeHwRomcode => hammingBlocks (blockCnt ecc) readEcc calcEcc 0 dat
  | .bch4CodeHw => (0, bchBlocks (blockCnt ecc) readEcc calcEcc 0 errLoc dat)
  | .hammingCodeDefault => (0, dat)
  | .bch8CodeHw => (0, dat)

/-! ## What a block does to the page -/

/-- Bit `n` of the page, least significant bit of each byte first. -/
def bitAt (dat : List UInt8) (n : ℕ) : Bool := (dat.getD (n / 8) 0).toNat.testBit (n % 8)

theorem flipBit_length (base : ℕ) (dat : List UInt8) (loc : ℕ) :
    (flipBit base dat loc).length = dat.length := by
  unfold flipBit
  split
  · exact List.length_set
  · rfl

theorem flipBits_length (base : ℕ) (locs : List ℕ) (dat : List UInt8) :
    (flipBits base locs dat).length = dat.length := by
  induction locs generalizing dat with
  | nil => rfl
  | cons loc locs ih => exact (ih _).trans (flipBit_length base dat loc)

private theorem testBit_mask (k : Fin 8) (j : Fin 8) :
    (UInt8.ofNat (1 <<< k.val)).toNat.testBit j = decide (j = k) := by
  revert k j
  decide

/-- A location flips its own bit of the block and no other. -/
theorem bitAt_flipBit (hl : base + 512 ≤ dat.length) (loc n : ℕ) : bitAt (flipBit base dat loc) n
      = (bitAt dat n ^^ decide (loc < 4096 ∧ n = 8 * base + loc)) := by
  unfold flipBit
  split
  · next hloc =>
      have hshf : loc >>> 3 = loc / 8 := Nat.shiftRight_eq_div_pow loc 3
      have hand : loc &&& 7 = loc % 8 := Nat.and_two_pow_sub_one_eq_mod loc 3
      rw [bitAt, getD_set, hshf, hand, bitAt]
      by_cases hby : base + loc / 8 = n / 8
      · have hms := testBit_mask ⟨loc % 8, Nat.mod_lt _ (by norm_num)⟩
          ⟨n % 8, Nat.mod_lt _ (by norm_num)⟩
        rw [if_pos ⟨hby, by omega⟩, hby, UInt8.toNat_xor, Nat.testBit_xor]
        congr 1
        refine hms.trans (decide_eq_decide.2 ?_)
        rw [Fin.mk.injEq]
        omega
      · rw [if_neg (fun h => hby h.1), decide_eq_false (by omega), Bool.xor_false]
  · next hloc => rw [decide_eq_false (fun h => hloc h.1), Bool.xor_false]

/-- Each location of the list flips its bit once. -/
theorem bitAt_flipBits (hl : base + 512 ≤ dat.length) (locs : List ℕ) (hm : m < 4096) :
    bitAt (flipBits base locs dat) (8 * base + m)
      = (bitAt dat (8 * base + m) ^^ decide (locs.count m % 2 = 1)) := by
  induction locs generalizing dat with
  | nil => simp [flipBits]
  | cons loc locs ih =>
    have hl' : base + 512 ≤ (flipBit base dat loc).length := by
      rw [flipBit_length]
      exact hl
    have hsp := ih hl'
    rw [bitAt_flipBit hl] at hsp
    refine hsp.trans ?_
    rw [Bool.xor_assoc, List.count_cons]
    by_cases heq : loc = m
    · subst heq
      have htr : decide (loc < 4096 ∧ 8 * base + loc = 8 * base + loc) = true := by simp [hm]
      rw [htr, beq_self_eq_true, if_pos rfl]
      by_cases hodd : locs.count loc % 2 = 1
      · rw [decide_eq_true hodd, decide_eq_false (by omega)]; rfl
      · rw [decide_eq_false hodd, decide_eq_true (by omega)]; rfl
    · rw [decide_eq_false (by omega), Bool.false_xor, if_neg (by simpa using heq), Nat.add_zero]

theorem bitAt_flipBits_of_outside (hl : base + 512 ≤ dat.length) (locs : List ℕ)
    (hn : n < 8 * base ∨ 8 * base + 4096 ≤ n) : bitAt (flipBits base locs dat) n = bitAt dat n := by
  induction locs generalizing dat with
  | nil => rfl
  | cons loc locs ih =>
    refine (ih (by rw [flipBit_length]; exact hl)).trans ?_
    rw [bitAt_flipBit hl, decide_eq_false (by omega), Bool.xor_false]

/-- The location array before block `i`. -/
def errLocAt : ℕ → List UInt8 → List UInt8 → List ℕ → List ℕ
  | 0, _, _, errLoc => errLoc
  | i + 1, readEcc, calcEcc, errLoc =>
    errLocAt i (readEcc.drop 7) (calcEcc.drop 7) (bchDecode readEcc calcEcc errLoc).2

theorem bchBlock_length : (bchBlock base readEcc calcEcc errLoc dat).2.length = dat.length :=
  flipBits_length ..

theorem bchBlocks_before (hl : base + 512 * n ≤ dat.length) (hm : m < 8 * base) :
    bitAt (bchBlocks n readEcc calcEcc base errLoc dat) m = bitAt dat m := by
  induction n generalizing base readEcc calcEcc errLoc dat with
  | zero => rfl
  | succ n ih =>
    rw [bchBlocks, ih (by rw [bchBlock_length]; lia) (by omega)]
    exact bitAt_flipBits_of_outside (by lia) _ (.inl hm)

/-- **What the loop does to block `i`.** The bits that are flipped are those of its own
decoding, run on the locations that the blocks before it have left. -/
theorem bitAt_bchBlocks {i : ℕ} (hi : i < n) (hl : base + 512 * n ≤ dat.length) (hm : m < 4096) :
    bitAt (bchBlocks n readEcc calcEcc base errLoc dat) (8 * (base + 512 * i) + m)
      = (bitAt dat (8 * (base + 512 * i) + m) ^^
        let r := bchDecode (readEcc.drop (7 * i)) (calcEcc.drop (7 * i))
          (errLocAt i readEcc calcEcc errLoc)
        decide ((r.2.take r.1.toNat).count m % 2 = 1)) := by
  induction n generalizing base i readEcc calcEcc errLoc dat with
  | zero => omega
  | succ n ih =>
    rw [bchBlocks]
    have hba : base + 512 ≤ dat.length := by lia
    have hl' : base + 512 + 512 * n ≤ (bchBlock base readEcc calcEcc errLoc dat).2.length := by
      rw [bchBlock_length]
      lia
    cases i with
    | zero =>
      rw [Nat.add_zero base, bchBlocks_before hl' (by omega)]
      exact bitAt_flipBits hba _ hm
    | succ i =>
      have hidx : base + 512 * (i + 1) = base + 512 + 512 * i := by omega
      have hdp : ∀ l : List UInt8, l.drop (7 * (i + 1)) = (l.drop 7).drop (7 * i) := by
        intro l
        rw [List.drop_drop, Nat.mul_succ, Nat.add_comm]
      have hf : bitAt (bchBlock base readEcc calcEcc errLoc dat).2
          (8 * (base + 512 + 512 * i) + m) = bitAt dat (8 * (base + 512 + 512 * i) + m) :=
        bitAt_flipBits_of_outside hba _ (.inr (by lia))
      rw [hidx, hdp, hdp, ih (Nat.lt_of_succ_lt_succ hi) hl', hf]
      rfl

end NestLinux.Mtd
