import NestLinux.Mtd.NandBbt

/-!
# A bad block table, written and read back

The entries of a table on the flash are 1, 2, 4 or 8 bits wide. Writing clears the bits of
each entry in turn, and reading cuts the bytes into entries again. What is read back says
of every block whether it is bad; how it got bad is lost where an entry is one bit wide.
-/

namespace NestLinux.NandBbt

open Lib Function Nat

variable {g : Chip} {td : Descr} {bbt : ℕ → Mark}

variable (n : NrBits)

/-- The number of entries in a byte. -/
def NrBits.per : ℕ := 2 ^ n.sft

theorem NrBits.per_mul_bits : n.per * n.bits = 8 := by
  cases n <;> rfl

theorem NrBits.eight_div : 8 / n.bits = n.per := by
  cases n <;> rfl

theorem NrBits.bits_pos : 0 < n.bits := by
  cases n <;> decide

theorem NrBits.per_pos : 0 < n.per := Nat.two_pow_pos _

theorem sftcnt_eq (i : ℕ) : (i <<< (3 - n.sft)) &&& n.sftmsk = i % n.per * n.bits := by
  have hms (k s : ℕ) : (i <<< s) &&& ((2 ^ k - 1) <<< s) = i % 2 ^ k * 2 ^ s := by
    rw [← shiftLeft_and_distrib, and_two_pow_sub_one_eq_mod, shiftLeft_eq]
  cases n with
  | one => exact hms 3 0
  | two => exact hms 2 1
  | four => exact hms 1 2
  | eight =>
    have hz : (i <<< 3) &&& 0 = i % 1 * 8 := by
      rw [and_zero, mod_one]
    exact hz

theorem msk_getLsbD_lt (m : Mark) {r : ℕ} (h : (msk n 0xff m).getLsbD r = true) : r < n.bits := by
  have hr : r < 8 := BitVec.lt_of_getLsbD h
  have ha : ∀ n : NrBits, ∀ m : Mark, ∀ r < 8, (msk n 0xff m).getLsbD r = true → r < n.bits := by
    intro n
    cases n <;> decide
  exact ha n m r hr h

/-- A mask at the place of an entry: the bits of the byte that it has. -/
theorem msk_shift_getLsbD (m : Mark) {j p : ℕ} (hp : p < 8) :
    (msk n 0xff m <<< (j * n.bits)).getLsbD p =
      (decide (p / n.bits = j) && (msk n 0xff m).getLsbD (p % n.bits)) := by
  rw [BitVec.getLsbD_shiftLeft]
  have hdm := div_add_mod p n.bits
  by_cases hj : p / n.bits = j
  · have hle : ¬ p < j * n.bits := by
      rw [← hj, not_lt]
      exact div_mul_le_self p n.bits
    have hsub : p - j * n.bits = p % n.bits := by
      rw [← hj, mul_comm]
      omega
    simp [hp, hle, hj, hsub]
  simp only [hj, decide_false, Bool.false_and]
  by_cases hlt : p < j * n.bits
  · simp [hlt]
  have hb : (msk n 0xff m).getLsbD (p - j * n.bits) = false := by
    by_contra hc
    have hword := msk_getLsbD_lt n m (Bool.not_eq_false _ ▸ hc)
    refine hj (Nat.div_eq_of_lt_le (by omega) ?_)
    rw [add_mul]
    omega
  rw [hb, Bool.and_false]

theorem entry_index (i k p : ℕ) (hp : p < 8) :
    k = i / n.per ∧ p / n.bits = i % n.per ↔ k * n.per + p / n.bits = i := by
  have hps := n.per_pos
  have hlt : p / n.bits < n.per := by
    rw [div_lt_iff_lt_mul n.bits_pos, n.per_mul_bits]
    exact hp
  have hdm := div_add_mod i n.per
  constructor
  · intro h
    rw [h.1, h.2, mul_comm]
    exact hdm
  intro h
  rw [← h]
  constructor
  · rw [mul_comm, mul_add_div hps, div_eq_of_lt hlt, add_zero]
  · rw [mul_comm, mul_add_mod, mod_eq_of_lt hlt]

/-- **The bits of a table.** A bit is cleared by the mask of the block it belongs to. -/
theorem tableBuf_getLsbD (hco : td.reservedBlockCode = 0) (k : ℕ) {p : ℕ} (hp : p < 8) :
    (tableBuf g td bbt k).getLsbD p =
      !(decide (k * td.nrbits.per + p / td.nrbits.bits < g.numblocks) &&
        (msk td.nrbits 0xff (bbt (k * td.nrbits.per + p / td.nrbits.bits))).getLsbD
          (p % td.nrbits.bits)) := by
  have hrl := forRange_induction (n := g.numblocks)
    (f := fun i buf =>
      let sftcnt := (i <<< (3 - td.nrbits.sft)) &&& td.nrbits.sftmsk
      let k := i >>> td.nrbits.sft
      update buf k (buf k &&& ~~~(msk td.nrbits 0xff (bbt i) <<< sftcnt)))
    (a := fun _ => (0xff : Byte))
    (fun i buf => ∀ k p, p < 8 → (buf k).getLsbD p =
      !(decide (k * td.nrbits.per + p / td.nrbits.bits < i) &&
        (msk td.nrbits 0xff (bbt (k * td.nrbits.per + p / td.nrbits.bits))).getLsbD
          (p % td.nrbits.bits)))
  have hbuf : tableBuf g td bbt = forRange g.numblocks
      (fun i buf =>
        let sftcnt := (i <<< (3 - td.nrbits.sft)) &&& td.nrbits.sftmsk
        let k := i >>> td.nrbits.sft
        update buf k (buf k &&& ~~~(msk td.nrbits 0xff (bbt i) <<< sftcnt)))
      (fun _ => 0xff) := by
    rw [tableBuf, if_pos hco]
  rw [hbuf]
  refine hrl ?_ ?_ k p hp
  · intro k p hp
    have hff : ∀ q < 8, (0xff : Byte).getLsbD q = true := by decide
    rw [hff p hp]
    simp
  intro i buf _ ih k p hp
  rw [sftcnt_eq, shiftRight_eq_div_pow]
  have hidx := entry_index td.nrbits i k p hp
  rw [NrBits.per] at hidx
  by_cases hk : k = i / 2 ^ td.nrbits.sft
  · rw [hk, update_self, ← hk, BitVec.getLsbD_and, BitVec.getLsbD_not, ih k p hp,
      msk_shift_getLsbD _ _ hp]
    by_cases hj : p / td.nrbits.bits = i % td.nrbits.per
    · have hi := hidx.1 ⟨hk, hj⟩
      rw [← NrBits.per] at hi
      rw [hi, hj]
      simp [hp]
    have hne : k * td.nrbits.per + p / td.nrbits.bits ≠ i := by
      intro hc
      exact hj (hidx.2 hc).2
    have hlt : k * td.nrbits.per + p / td.nrbits.bits < i + 1 ↔
        k * td.nrbits.per + p / td.nrbits.bits < i := by omega
    simp [hj, hp, hlt]
  · have hne : k * td.nrbits.per + p / td.nrbits.bits ≠ i := by
      intro hc
      exact hk (hidx.2 hc).1
    have hlt : k * td.nrbits.per + p / td.nrbits.bits < i + 1 ↔
        k * td.nrbits.per + p / td.nrbits.bits < i := by omega
    rw [update_of_ne hk, ih k p hp]
    simp [hlt]

/-! ## Reading -/

/-- The entry of a block in a page. -/
def entry (td : Descr) (page : Page) (block : ℕ) : Byte :=
  (page.data (block / td.nrbits.per) >>> (block % td.nrbits.per * td.nrbits.bits)) &&&
    BitVec.ofNat 8 (2 ^ td.nrbits.bits - 1)

/-- **The memory table after a table is read.** -/
theorem readBbt_apply (flash : Flash) (page : ℕ) (hd : 8 ∣ g.numblocks) (block : ℕ) :
    readBbt g flash page td bbt block =
      if block < g.numblocks then bbt block ||| entryMark td (entry td (flash page) block)
      else bbt block := by
  have hper := td.nrbits.eight_div
  have hp := td.nrbits.per_pos
  -- one byte
  have hby (i : ℕ) (b : ℕ → Mark) (block : ℕ) :
      forRange td.nrbits.per
        (fun j b =>
          let tmp := ((flash page).data i >>> (j * td.nrbits.bits)) &&&
            BitVec.ofNat 8 (2 ^ td.nrbits.bits - 1)
          let block := i * td.nrbits.per + j
          update b block (b block ||| entryMark td tmp)) b block =
      if i * td.nrbits.per ≤ block ∧ block < i * td.nrbits.per + td.nrbits.per then
        b block ||| entryMark td (entry td (flash page) block)
      else b block := by
    refine forRange_induction (fun j (c : ℕ → Mark) => ∀ block, c block =
      if i * td.nrbits.per ≤ block ∧ block < i * td.nrbits.per + j then
        b block ||| entryMark td (entry td (flash page) block)
      else b block) ?_ ?_ block
    · intro block
      rw [if_neg (by omega)]
    intro j c hj ih block
    by_cases hb : block = i * td.nrbits.per + j
    · have hdv : block / td.nrbits.per = i := by
        rw [hb, mul_comm, mul_add_div hp, div_eq_of_lt hj, add_zero]
      have hm : block % td.nrbits.per = j := by
        rw [hb, mul_comm, mul_add_mod, mod_eq_of_lt hj]
      rw [← hb, update_self, ih block, if_neg (by omega), if_pos (by omega), entry, hdv, hm]
    · rw [update_of_ne hb, ih block]
      by_cases hin : i * td.nrbits.per ≤ block ∧ block < i * td.nrbits.per + j
      · rw [if_pos hin, if_pos (by omega)]
      · rw [if_neg hin, if_neg (by omega)]
  have htot : g.numblocks * td.nrbits.bits / 8 * td.nrbits.per = g.numblocks := by
    obtain ⟨c, hc⟩ := hd
    rw [hc, mul_assoc, Nat.mul_div_cancel_left _ (by decide), mul_assoc, mul_comm td.nrbits.bits,
      td.nrbits.per_mul_bits, mul_comm]
  unfold readBbt
  rw [hper]
  have hlp := forRange_induction (n := g.numblocks * td.nrbits.bits / 8)
    (f := fun i b => forRange td.nrbits.per
      (fun j b =>
        let tmp := ((flash page).data i >>> (j * td.nrbits.bits)) &&&
          BitVec.ofNat 8 (2 ^ td.nrbits.bits - 1)
        let block := i * td.nrbits.per + j
        update b block (b block ||| entryMark td tmp)) b) (a := bbt)
    (fun i c => ∀ block, c block =
      if block < i * td.nrbits.per then bbt block ||| entryMark td (entry td (flash page) block)
      else bbt block) ?_ ?_
  · rw [htot] at hlp
    exact hlp block
  · intro block
    rw [if_neg (by omega)]
  intro i c _ ih block
  rw [hby i c block, add_mul, one_mul, ih block]
  by_cases h1 : block < i * td.nrbits.per
  · rw [if_neg (by omega), if_pos h1, if_pos (by omega)]
  by_cases h2 : block < i * td.nrbits.per + td.nrbits.per
  · rw [if_pos (by omega), if_neg h1, if_pos h2]
  · rw [if_neg (by omega), if_neg h1, if_neg h2]

/-- The entry of a block in a table that was written: all ones, without the block's mask. -/
theorem entry_tableBuf (hco : td.reservedBlockCode = 0) {page : Page}
    (hpg : ∀ i, page.data i = tableBuf g td bbt i) {block : ℕ} (hb : block < g.numblocks) :
    entry td page block =
      BitVec.ofNat 8 (2 ^ td.nrbits.bits - 1) &&& ~~~(msk td.nrbits 0xff (bbt block)) := by
  have hps := td.nrbits.bits_pos
  have hon : ∀ n : NrBits, ∀ r < 8,
      (BitVec.ofNat 8 (2 ^ n.bits - 1)).getLsbD r = decide (r < n.bits) := by
    intro n
    cases n <;> decide
  have height := td.nrbits.per_mul_bits
  have hlt := mod_lt block td.nrbits.per_pos
  refine BitVec.eq_of_getLsbD_eq ?_
  intro r hr
  rw [entry, BitVec.getLsbD_and, BitVec.getLsbD_and, hon _ r hr, BitVec.getLsbD_ushiftRight]
  by_cases hword : r < td.nrbits.bits
  · have hp : block % td.nrbits.per * td.nrbits.bits + r < 8 := by
      have hmul : (block % td.nrbits.per + 1) * td.nrbits.bits ≤ td.nrbits.per * td.nrbits.bits :=
        mul_le_mul_right _ hlt
      rw [add_mul] at hmul
      omega
    have hd : (block % td.nrbits.per * td.nrbits.bits + r) / td.nrbits.bits =
        block % td.nrbits.per := by
      rw [mul_comm, mul_add_div hps, div_eq_of_lt hword, add_zero]
    have hm : (block % td.nrbits.per * td.nrbits.bits + r) % td.nrbits.bits = r := by
      rw [mul_comm, mul_add_mod, mod_eq_of_lt hword]
    have hidx : block / td.nrbits.per * td.nrbits.per + block % td.nrbits.per = block := by
      rw [mul_comm]
      exact div_add_mod block td.nrbits.per
    rw [hpg, tableBuf_getLsbD hco _ hp, hd, hm, hidx]
    simp [hword, hb, hr]
  · simp [hword]

/-- An entry says whether its block is bad. -/
theorem isBad_entryMark (hco : td.reservedBlockCode = 0) (m : Mark) :
    isBad (entryMark td (BitVec.ofNat 8 (2 ^ td.nrbits.bits - 1) &&& ~~~(msk td.nrbits 0xff m))) =
      isBad m := by
  rw [entryMark, hco]
  revert m
  cases td.nrbits <;> decide

/-- **A table that was written and is read back** says the same of every block. -/
theorem isBad_readBbt_tableBuf (hco : td.reservedBlockCode = 0) (hd : 8 ∣ g.numblocks)
    {flash : Flash} {page : ℕ} (hpg : ∀ i, (flash page).data i = tableBuf g td bbt i) {block : ℕ}
    (hb : block < g.numblocks) :
    isBad (readBbt g flash page td (fun _ => 0) block) = isBad (bbt block) := by
  rw [readBbt_apply flash page hd, if_pos hb, entry_tableBuf hco hpg hb,
    show (0 : Mark) = 0#2 from rfl, BitVec.zero_or, isBad_entryMark hco]

end NestLinux.NandBbt
