import NestLinux.Mtd.BchFour
import NestLinux.Mtd.OmapNand

/-!
# The BCH read path

Two properties of the path from a page to its corrected data, and how far they hold.

A block that `decode_bch` cannot decode is never reported, as `omap_correct_data`
returns zero whatever the count was; so the path is free of silent failures exactly on
the pages whose blocks can all be decoded (`bchReported_iff`).

Errors in the parity bits next to errors in the data: the search counts only the roots
from `2 * ecc_bits - 1` on against the degree of the locator polynomial, so one error
below that makes the whole block fail, and without one every data bit is repaired
(`decodeBch_mixed`).
-/

namespace NestLinux.Mtd

open Lib Bch List

/-! ## Failures are not reported -/

/-- The 512 bytes of block `i`. -/
def pageBlock (i : ℕ) (dat : List UInt8) : List UInt8 := (dat.drop (512 * i)).take 512

/-- `count` of block `i` in a run over the page. -/
def bchCount (readEcc calcEcc : List UInt8) (errLoc : List ℕ) (i : ℕ) : ℤ :=
  (bchDecode (readEcc.drop (7 * i)) (calcEcc.drop (7 * i)) (errLocAt i readEcc calcEcc errLoc)).1

/-- Every block whose count is not between zero and four is left unchanged, and the
page is reported as bad. -/
def BchReported (nand : NandEcc) (dat readEcc calcEcc : List UInt8) (errLoc : List ℕ) : Prop :=
  ∀ i < blockCnt nand,
    ¬ (0 ≤ bchCount readEcc calcEcc errLoc i ∧ bchCount readEcc calcEcc errLoc i ≤ 4) →
      pageBlock i (omapCorrectData nand .bch4CodeHw dat readEcc calcEcc errLoc).2
          = pageBlock i dat ∧
        (omapCorrectData nand .bch4CodeHw dat readEcc calcEcc errLoc).1 < 0

/-- The block has no error, is erased, or has a syndrome that `decode_bch` decodes. -/
def BlockDecodable (readEcc calcEcc : List UInt8) : Prop :=
  eccflag readEcc calcEcc = true →
    0 ≤ (decodeBch 0 (calcEcc.take 7) (replicate 8 0)).1 ∧
      (decodeBch 0 (calcEcc.take 7) (replicate 8 0)).1 ≤ 4

theorem omapCorrectData_bch4_fst (nand : NandEcc) (dat re ce : List UInt8) (errLoc : List ℕ) :
    (omapCorrectData nand .bch4CodeHw dat re ce errLoc).1 = 0 := rfl

/-- The count of a block does not depend on what is left in the location array. -/
theorem bchCount_iff (re ce : List UInt8) (errLoc : List ℕ) (i : ℕ) :
    (0 ≤ bchCount re ce errLoc i ∧ bchCount re ce errLoc i ≤ 4) ↔
      BlockDecodable (re.drop (7 * i)) (ce.drop (7 * i)) := by
  rw [bchCount, bchDecode, BlockDecodable]
  split
  · next hfl =>
      rw [decodeBch_fst_congr _ (replicate 8 0)]
      exact ⟨fun h _ => h, fun h => h hfl⟩
  · next hfl => simp [hfl]

/-- **The pages on which no failure is silent.** -/
theorem bchReported_iff (nand : NandEcc) (dat readEcc calcEcc : List UInt8) (errLoc : List ℕ) :
    BchReported nand dat readEcc calcEcc errLoc ↔
      ∀ i < blockCnt nand, BlockDecodable (readEcc.drop (7 * i)) (calcEcc.drop (7 * i)) := by
  constructor
  · intro h i hi
    rw [← bchCount_iff readEcc calcEcc errLoc]
    by_contra hbad
    have hneg := (h i hi hbad).2
    exact lt_irrefl _ hneg
  · intro h i hi hbad
    exact absurd ((bchCount_iff readEcc calcEcc errLoc i).2 (h i hi)) hbad

/-- A syndrome with `S1 = S3 = 0` and `S5 ≠ 0`: the count is five, the search is not run,
and the loop flips the five bits that the location array happens to name. -/
theorem not_bchReported_page :
    bchCount (replicate 7 0) [0, 0, 0, 4, 213, 21, 75] [0, 1, 2, 3, 4, 5, 6, 7] 0 = 5 ∧
      omapCorrectData ⟨false, 512⟩ .bch4CodeHw (replicate 512 0) (replicate 7 0)
          [0, 0, 0, 4, 213, 21, 75] [0, 1, 2, 3, 4, 5, 6, 7]
        = (0, 0x1F :: replicate 511 0) ∧
      ¬ BchReported ⟨false, 512⟩ (replicate 512 0) (replicate 7 0)
        [0, 0, 0, 4, 213, 21, 75] [0, 1, 2, 3, 4, 5, 6, 7] := by
  have hcount : bchCount (replicate 7 0) [0, 0, 0, 4, 213, 21, 75] [0, 1, 2, 3, 4, 5, 6, 7] 0
      = 5 := by decide +kernel
  refine ⟨hcount, by decide +kernel, fun h => ?_⟩
  have hneg := (h 0 (by decide) (by rw [hcount]; decide)).2
  rw [omapCorrectData_bch4_fst] at hneg
  exact lt_irrefl _ hneg

/-! ## Errors in data and parity -/

/-- The count is not a failure, and the entries below 4096 are the data errors of `E`,
each once. -/
def ReportsData (select48 : ℕ) (E : Finset ℕ) (r : ℤ × List ℕ) : Prop :=
  0 ≤ r.1 ∧ ((r.2.take r.1.toNat).filter (· < 4096)).Nodup ∧
    ∀ x, (x ∈ r.2.take r.1.toNat ∧ x < 4096) ↔ ∃ p ∈ E, InData select48 p ∧
      x = dataLocation select48 p

/-- In every page, a block that is not erased and has the syndromes of `E` gets exactly
the data bits of `E` flipped. -/
def Repairs (E : Finset ℕ) : Prop :=
  ∀ (nand : NandEcc) (dat readEcc calcEcc : List UInt8) (errLoc : List ℕ),
    512 * blockCnt nand ≤ dat.length → 4 ≤ errLoc.length →
    ∀ i < blockCnt nand, HasSyndromes 0 E ((calcEcc.drop (7 * i)).take 7) →
      ((readEcc.drop (7 * i)).take 7).any (· != 0xFF) = true →
      ∀ m < 4096,
        bitAt (omapCorrectData nand .bch4CodeHw dat readEcc calcEcc errLoc).2 (8 * (512 * i) + m)
          = (bitAt dat (8 * (512 * i) + m) ^^
            decide (∃ p ∈ E, InData 0 p ∧ m = dataLocation 0 p))

theorem errLocAt_length (i : ℕ) (re ce : List UInt8) (errLoc : List ℕ) :
    (errLocAt i re ce errLoc).length = errLoc.length := by
  induction i generalizing re ce errLoc with
  | zero => rfl
  | succ i ih =>
    rw [errLocAt, ih, bchDecode]
    split
    · exact decodeBch_length _
    · rfl

/-- A block with errors has a nonzero syndrome byte. -/
theorem any_ne_zero_of_hasSyndromes {E : Finset ℕ} (hE : ∀ p ∈ E, p < nn) (hcd : E.card ≤ synT 0)
    (hne : E.Nonempty) {ecc : List UInt8} (hsn : HasSyndromes 0 E ecc) :
    ecc.any (· != 0) = true := by
  by_contra hz
  have hby : ∀ b ∈ ecc, b = 0 := by simpa using hz
  have hb : ∀ pos, eccBit ecc pos = 0 := by
    intro pos
    have hce : ecc.getD (pos / 8) 0 = 0 := getD_induction (P := (· = 0)) hby rfl _
    rw [eccBit, hce]
    simp
  have hrem : ∀ x, remEval 0 ecc x = 0 := by
    simp [remEval, hb]
  exact hne.ne_empty (eq_empty_of_remEval_eq_zero hE hsn hcd hrem)

section Mixed

variable {sel : ℕ} {E : Finset ℕ}

/-- Of the recorded locations, those below 4096 are the data bits. -/
private theorem mem_recorded_iff {hs : List ℕ} (hE : ∀ p ∈ E, p < nn)
    (hm : ∀ p, p ∈ hs ↔ p ∈ E) (x : ℕ) : (x ∈ hs.map (errLocation sel) ∧ x < 4096) ↔
      ∃ p ∈ E, InData sel p ∧ x = dataLocation sel p := by
  have hk : kkShorten = 4096 := rfl
  constructor
  · rintro ⟨hx, hlt⟩
    obtain ⟨p, hp, rfl⟩ := mem_map.1 hx
    have hpE := (hm p).1 hp
    have hda : InData sel p := by
      by_contra hn
      have := le_errLocation sel (hE p hpE) hn
      omega
    exact ⟨p, hpE, hda, errLocation_eq_dataLocation sel hda⟩
  · rintro ⟨p, hp, hda, rfl⟩
    refine ⟨?_, dataLocation_lt sel p⟩
    rw [← errLocation_eq_dataLocation sel hda]
    exact mem_map_of_mem ((hm p).2 hp)

private theorem recorded_nodup {hs : List ℕ} (hE : ∀ p ∈ E, p < nn) (hnd : hs.Nodup)
    (hm : ∀ p, p ∈ hs ↔ p ∈ E) : (hs.map (errLocation sel)).Nodup :=
  hnd.map_on fun p hp q hq h =>
    errLocation_injOn sel (hE p ((hm p).1 hp)) (hE q ((hm q).1 hq)) h

variable (hE : ∀ p ∈ E, p < nn) (hcd : E.card ≤ synT sel)
  (hcln : Clean (errSeries E) (synT sel)) (hpr : ∀ p ∈ E, 2 * eccBits sel ≤ p + 1)
include hE hcd hcln hpr

theorem reportsData_of_clean (hsel : sel ≤ 1) {ecc : List UInt8}
    (hsn : HasSyndromes sel E ecc) {errLoc : List ℕ} (hl : synT sel ≤ errLoc.length) :
    ReportsData sel E (decodeBch sel ecc errLoc) := by
  obtain ⟨hs, hnd, hc, hm, heq⟩ :=
    decodeBch_of_clean hE hcd hcln hsel hsn hpr hl
  rw [ReportsData, heq, Int.toNat_natCast, ← hc, recorded_take]
  exact ⟨Int.natCast_nonneg _, (recorded_nodup hE hnd hm).filter _, mem_recorded_iff hE hm⟩

end Mixed

/-- **A page is repaired when its errors are found.** -/
theorem repairs_of_clean {E : Finset ℕ} (hE : ∀ p ∈ E, p < nn) (hcd : E.card ≤ synT 0)
    (hne : E.Nonempty) (hcln : Clean (errSeries E) (synT 0))
    (hpr : ∀ p ∈ E, 2 * eccBits 0 ≤ p + 1) :
    Repairs E := by
  intro nand dat re ce errLoc hdat hl i hi hsn hrd m hm
  have hfl : eccflag (re.drop (7 * i)) (ce.drop (7 * i)) = true := by
    rw [eccflag, any_ne_zero_of_hasSyndromes hE hcd hne hsn, hrd]
    rfl
  have hloc : synT 0 ≤ (errLocAt i re ce errLoc).length := by
    rw [errLocAt_length]
    exact hl
  obtain ⟨hs, hnd, hc, hmm, heq⟩ :=
    decodeBch_of_clean hE hcd hcln (Nat.zero_le 1) hsn hpr hloc
  have hdec : bchDecode (re.drop (7 * i)) (ce.drop (7 * i))
      (errLocAt i re ce errLoc)
        = ((E.card : ℤ), recorded 0 hs (errLocAt i re ce errLoc)) := by
    rw [bchDecode, if_pos hfl, heq]
  have hr : bitAt (bchBlocks (blockCnt nand) re ce 0 errLoc dat) (8 * (0 + 512 * i) + m)
      = _ := bitAt_bchBlocks hi (by rw [Nat.zero_add]; exact hdat) hm
  rw [hdec] at hr
  dsimp only at hr
  rw [Int.toNat_natCast, ← hc, recorded_take, (recorded_nodup hE hnd hmm).count,
    Nat.zero_add] at hr
  refine hr.trans (congrArg _ (decide_eq_decide.2 ?_))
  rw [← mem_recorded_iff hE hmm m]
  by_cases hin : m ∈ hs.map (errLocation 0)
  · simp [hin, hm]
  · simp [hin]

/-- **Errors in data and parity.** On a clean run, with `t = 4` unless there are four
errors with `S1 = 0` and `S5 ≠ 0`, the data errors are reported and repaired exactly when no
error lies below `2 * ecc_bits - 1`. -/
theorem decodeBch_mixed {select48 : ℕ} (hsel : select48 ≤ 1) (E : Finset ℕ)
    (hcd : E.card ≤ synT select48) (hrange : ∀ p ∈ E, p < 2 * eccBits select48 + kkShorten)
    (hparity : ∃ q ∈ E, q < 2 * eccBits select48) (ecc : List UInt8)
    (hsyn : HasSyndromes select48 E ecc) (errLoc : List ℕ)
    (hlen : synT select48 ≤ errLoc.length)
    (hrun : Clean (errSeries E) (synT select48) ∨ select48 = 0 ∧
      ¬ (E.card = 4 ∧ ∑ p ∈ E, alpha ^ p = 0 ∧ ∑ p ∈ E, alpha ^ (5 * p) ≠ 0)) :
    (ReportsData select48 E (decodeBch select48 ecc errLoc) ∧ (select48 = 0 → Repairs E)) ↔
      ∀ p ∈ E, 2 * eccBits select48 - 1 ≤ p := by
  have hE : ∀ p ∈ E, p < nn := by
    intro p hp
    have hlt := hrange p hp
    have hbits := eccBits_cases select48
    have hk : kkShorten = 4096 := rfl
    have hnn : nn = 8191 := rfl
    omega
  have hcln : Clean (errSeries E) (synT select48) := by
    refine hrun.elim id ?_
    rintro ⟨rfl, hnot⟩
    by_contra h
    exact hnot ((not_clean_errors_iff hE hcd).1 h)
  constructor
  · rintro ⟨⟨hcount, -⟩, -⟩ p hp
    by_contra hskip
    have hfail := decodeBch_of_parity hE hcd hcln hsel hsyn hp (by omega) hlen
    omega
  intro hpr
  have hpar' : ∀ p ∈ E, 2 * eccBits select48 ≤ p + 1 := fun p hp => by
    have := hpr p hp
    omega
  refine ⟨reportsData_of_clean hE hcd hcln hpar' hsel hsyn hlen, ?_⟩
  rintro rfl
  obtain ⟨q, hq, -⟩ := hparity
  exact repairs_of_clean hE hcd ⟨q, hq⟩ hcln hpar'

/-- One data error next to one in the last parity bit, which the search does count. -/
theorem decodeBch_mixed_pair :
    HasSyndromes 0 [103, 104].toFinset [13, 15, 76, 185, 99, 61, 55] ∧
      ReportsData 0 [103, 104].toFinset
        (decodeBch 0 [13, 15, 76, 185, 99, 61, 55] (replicate 8 0)) ∧
      Repairs [103, 104].toFinset := by
  have hsyn : HasSyndromes 0 [103, 104].toFinset [13, 15, 76, 185, 99, 61, 55] :=
    hasSyndromes_of_words (by decide) (by decide) (by decide +kernel)
  have h := (decodeBch_mixed (by norm_num) [103, 104].toFinset (by decide) (by decide) (by decide) _
    hsyn (replicate 8 0) (by decide) (.inr ⟨rfl, fun hfour => nomatch hfour.1⟩)).2 (by decide)
  exact ⟨hsyn, h.1, h.2 rfl⟩

/-- One data error next to one in the first parity bit: the decoder fails. -/
theorem decodeBch_mixed_fails :
    HasSyndromes 0 [0, 104].toFinset [5, 196, 103, 16, 219, 84, 66] ∧
      (decodeBch 0 [5, 196, 103, 16, 219, 84, 66] (replicate 8 0)).1 = -1 ∧
      ¬ ReportsData 0 [0, 104].toFinset
        (decodeBch 0 [5, 196, 103, 16, 219, 84, 66] (replicate 8 0)) := by
  have hsyn : HasSyndromes 0 [0, 104].toFinset [5, 196, 103, 16, 219, 84, 66] :=
    hasSyndromes_of_words (by decide) (by decide) (by decide +kernel)
  have hcln : Clean (errSeries [0, 104].toFinset) 4 := by
    by_contra h
    have hfour := ((not_clean_errors_iff (by decide) (by decide)).1 h).1
    cases hfour
  have hfail : (decodeBch 0 [5, 196, 103, 16, 219, 84, 66] (replicate 8 0)).1 = -1 :=
    decodeBch_of_parity (q := 0) (by decide) (by decide) hcln (by norm_num) hsyn (by decide)
      (by decide) (by decide)
  refine ⟨hsyn, hfail, fun h => ?_⟩
  have := h.1
  omega

end NestLinux.Mtd
