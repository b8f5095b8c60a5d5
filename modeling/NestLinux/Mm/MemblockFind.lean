import NestLinux.Mm.MemblockRun
import Mathlib.Order.Bounds.Basic

/-!
# Finding a place, and asking about a range

`memblock_find_base` goes through the memory from the top down, and in each region of it
from the highest aligned place downwards, jumping below the reserved region that is in the
way. It returns the highest place there is, or an error if there is none: `Picks` says so
for one region and for all of them.

`memblock_is_region_memory` is meant to tell whether a range is memory, but it looks it up
among the reserved regions.
-/

namespace NestLinux.Mm

open Lib MemblockRegion

variable {P Q : ℕ → Prop} {r i : ℕ}

/-! ## The search for a largest number -/

/-- The outcome of a search for the largest number with a property: that number, or 0 if
there is none. -/
def Picks (P : ℕ → Prop) (r : ℕ) : Prop := (r = 0 ∧ ∀ b, ¬ P b) ∨ (r ≠ 0 ∧ IsGreatest {b | P b} r)

theorem Picks.congr (h : Picks P r) (hPQ : ∀ b, P b ↔ Q b) : Picks Q r := by
  have hPQ' : P = Q := funext fun b => propext (hPQ b)
  exact hPQ' ▸ h

theorem picks_none (h : ∀ b, ¬ P b) : Picks P 0 := Or.inl ⟨rfl, h⟩

theorem picks_some (hr : r ≠ 0) (hP : P r) (hle : ∀ b, P b → b ≤ r) :
    Picks P r := Or.inr ⟨hr, hP, hle⟩

/-- Numbers that are searched first are above the others. -/
theorem Picks.or {r' : ℕ} (h : Picks P r) (h' : r = 0 → Picks Q r')
    (habv : ∀ b c, P b → Q c → c ≤ b) : Picks (fun b => P b ∨ Q b) (if r ≠ 0 then r else r') := by
  rcases h with ⟨hr, hno⟩ | ⟨hr, hgrt⟩
  · rw [if_neg (by simpa using hr)]
    exact (h' hr).congr fun b => by simp [hno b]
  rw [if_pos hr]
  refine picks_some hr (.inl hgrt.1) ?_
  intro b hb
  rcases hb with hb | hb
  · exact hgrt.2 hb
  · exact habv r b hgrt.1 hb

theorem Picks.eq_zero_iff (h : Picks P r) : r = 0 ↔ ¬ ∃ b, P b := by
  rcases h with ⟨hr, hno⟩ | ⟨hr, hgrt⟩
  · simpa [hr] using hno
  · simpa [hr] using ⟨r, hgrt.1⟩

theorem Picks.isGreatest (h : Picks P r) (hr : r ≠ 0) :
    IsGreatest {b | P b} r := (h.resolve_left fun h0 => hr h0.1).2

/-! ## The reserved regions -/

/-- The range has no address in common with a region of the table. -/
def Free (t : MemblockType) (size b : ℕ) : Prop := ∀ j < t.cnt, Apart (t.regions j) ⟨b, size⟩

section Region

variable {t : MemblockType} {k size base start last n : ℕ}

theorem addrsOverlap_iff {r : MemblockRegion} (hb : base + size < 2 ^ 32)
    (hr : r.base + r.size < 2 ^ 32) : memblockAddrsOverlap base size r.base r.size = true ↔
      base < r.base + r.size ∧ r.base < base + size := by
  simp [memblockAddrsOverlap, add32_of_lt hb, add32_of_lt hr]

theorem overlapsRegion_none (ht : Sorted t) (hb : base + size < 2 ^ 32)
    (h : memblockOverlapsRegion t base size = none) : Free t size base := by
  intro j hj
  have hfi := List.find?_eq_none.1 h j (List.mem_range.2 hj)
  rw [addrsOverlap_iff hb (ht.bounded j hj)] at hfi
  simp only [MemblockRegion.Apart]
  omega

theorem overlapsRegion_some (ht : Sorted t) (hb : base + size < 2 ^ 32) {j : ℕ}
    (h : memblockOverlapsRegion t base size = some j) :
    j < t.cnt ∧ base < (t.regions j).base + (t.regions j).size ∧
      (t.regions j).base < base + size := by
  have hj : j < t.cnt := List.mem_range.1 (List.mem_of_find?_eq_some h)
  have hov := List.find?_some h
  exact ⟨hj, (addrsOverlap_iff hb (ht.bounded j hj)).1 hov⟩

/-- The loop finds the highest free place from `base` down to `start`. -/
theorem findRegionLoop_picks (ht : Sorted t) (hk : k < 32) (hst : 0 < start)
    (hb : base + size < 2 ^ 32) (hba : 2 ^ k ∣ base) (hn : base < n) :
    ∃ r, findRegionLoop t start size (2 ^ k) n base = some r ∧
      Picks (fun b => 2 ^ k ∣ b ∧ start ≤ b ∧ b ≤ base ∧ Free t size b) r := by
  induction n generalizing base with
  | zero => omega
  | succ n ih =>
    rw [findRegionLoop]
    by_cases hle : start ≤ base
    · rw [if_pos hle]
      cases hov : memblockOverlapsRegion t base size with
      | none =>
        exact ⟨base, rfl, picks_some (by omega)
          ⟨hba, hle, le_rfl, overlapsRegion_none ht hb hov⟩ (fun b hb => hb.2.2.1)⟩
      | some j =>
        obtain ⟨hj, hl, hhi⟩ := overlapsRegion_some ht hb hov
        -- a place up to `base` that reaches above the base of region `j` is not free
        have hbs (b : ℕ) (hbb : b ≤ base) (hrh : (t.regions j).base < b + size) :
            ¬ Free t size b := by
          intro hfe
          have hap := hfe j hj
          simp only [MemblockRegion.Apart] at hap
          omega
        simp only
        by_cases hrs : (t.regions j).base < size
        · rw [if_pos hrs]
          exact ⟨0, rfl, picks_none fun b hb => hbs b hb.2.2.1 (by omega) hb.2.2.2⟩
        have hdw : sub32 (t.regions j).base size = (t.regions j).base - size :=
          sub32_of_le (by omega) (by omega)
        have hbl : ((t.regions j).base - size) / 2 ^ k * 2 ^ k ≤
            (t.regions j).base - size := Nat.div_mul_le_self _ _
        have hsm : ((t.regions j).base - size) / 2 ^ k * 2 ^ k + size < 2 ^ 32 := by omega
        rw [if_neg hrs, hdw, alignDown32_eq hk (by omega)]
        obtain ⟨r, hr, hpk⟩ := ih hsm (dvd_mul_left _ _) (by omega)
        refine ⟨r, hr, hpk.congr ?_⟩
        intro b
        constructor
        · rintro ⟨hd, hsub, hbb, hfe⟩
          exact ⟨hd, hsub, by omega, hfe⟩
        rintro ⟨hd, hsub, hbb, hfe⟩
        refine ⟨hd, hsub, ?_, hfe⟩
        rw [le_alignDown_iff hd (Nat.two_pow_pos k)]
        by_contra hgt
        exact hbs b hbb (by omega) hfe
    · rw [if_neg hle]
      exact ⟨0, rfl, picks_none fun b hb => by omega⟩

theorem memblockFindRegion_picks (ht : Sorted t) (hk : k < 32) (start size : ℕ)
    (hla : last < 2 ^ 32) (hn : 2 ^ 32 ≤ n) :
    ∃ r, memblockFindRegion n t start last size (2 ^ k) = some r ∧
      Picks (fun b => 2 ^ k ∣ b ∧ start ≤ b ∧ (start = 0 → pageSize ≤ b) ∧ b + size ≤ last ∧
        Free t size b) r := by
  rw [memblockFindRegion]
  by_cases hhg : last < size
  · rw [if_pos hhg]
    exact ⟨0, rfl, picks_none fun b hb => by omega⟩
  have htp : sub32 last size = last - size := sub32_of_le (by omega) (by omega)
  have hbl : (last - size) / 2 ^ k * 2 ^ k ≤ last - size := Nat.div_mul_le_self _ _
  have hst : 0 < if start = 0 then pageSize else start := by
    split_ifs
    · exact Nat.succ_pos _
    · omega
  have hsm : (last - size) / 2 ^ k * 2 ^ k + size < 2 ^ 32 := by omega
  have hfl : (last - size) / 2 ^ k * 2 ^ k < n := by omega
  rw [if_neg hhg, htp, alignDown32_eq hk (by omega)]
  obtain ⟨r, hr, hpk⟩ :=
    findRegionLoop_picks ht hk hst hsm (dvd_mul_left _ _) hfl
  refine ⟨r, hr, hpk.congr ?_⟩
  intro b
  constructor
  · intro ⟨hd, hsub, hbb, hfe⟩
    refine ⟨hd, ?_, ?_, by omega, hfe⟩
    · split_ifs at hsub <;> omega
    intro h0
    rwa [if_pos h0] at hsub
  intro ⟨hd, hsub, hpg, hbb, hfe⟩
  refine ⟨hd, ?_, (le_alignDown_iff hd (Nat.two_pow_pos k)).2 (by omega), hfe⟩
  split_ifs with h0
  · exact hpg h0
  · exact hsub

end Region

/-! ## The memory -/

/-- A place for `size` bytes among the first `i` regions of memory: aligned, inside one of
them, below the limit, apart from what is reserved, and not in the first page of a region
that starts at address 0. -/
def FitsBelow (mb : Memblock) (limit size align i b : ℕ) : Prop :=
  align ∣ b ∧
    (∃ m < i, (mb.memory.regions m).base ≤ b ∧
      b + size ≤ (mb.memory.regions m).base + (mb.memory.regions m).size ∧
      ((mb.memory.regions m).base = 0 → pageSize ≤ b)) ∧
    b + size ≤ limit ∧ Free mb.reserved size b

/-- A place for `size` bytes in the memory. -/
def FitsAt (mb : Memblock) (limit size align b : ℕ) : Prop :=
  FitsBelow mb limit size align mb.memory.cnt b

/-- The size is rounded up to the alignment. -/
def roundUp (size align : ℕ) : ℕ := (size + (align - 1)) / align * align

/-- `max_addr`, where 0 stands for the current limit. -/
def limitOf (currentLimit maxAddr : ℕ) : ℕ := if maxAddr = 0 then currentLimit else maxAddr

section Memory

variable {mb : Memblock} {k size limit n : ℕ}

/-- The places among one region more are those in the new one and the others. -/
theorem fitsBelow_succ {align b : ℕ} : FitsBelow mb limit size align (i + 1) b ↔
      (align ∣ b ∧ (mb.memory.regions i).base ≤ b ∧
        ((mb.memory.regions i).base = 0 → pageSize ≤ b) ∧
        b + size ≤ min ((mb.memory.regions i).base + (mb.memory.regions i).size) limit ∧
        Free mb.reserved size b) ∨ FitsBelow mb limit size align i b := by
  simp only [le_min_iff]
  constructor
  · rintro ⟨hd, ⟨m, hm, hin⟩, hlim, hfe⟩
    rcases lt_or_eq_of_le (Nat.lt_succ_iff.1 hm) with hlt | rfl
    · exact .inr ⟨hd, ⟨m, hlt, hin⟩, hlim, hfe⟩
    · exact .inl ⟨hd, hin.1, hin.2.2, ⟨hin.2.1, hlim⟩, hfe⟩
  · rintro (⟨hd, hl, hpg, hhi, hfe⟩ | ⟨hd, ⟨m, hm, hin⟩, hlim, hfe⟩)
    · exact ⟨hd, ⟨i, Nat.lt_succ_self i, hl, hhi.1, hpg⟩, hhi.2, hfe⟩
    · exact ⟨hd, ⟨m, by omega, hin⟩, hlim, hfe⟩

/-- **Top down.** The loop over the regions finds the highest place. -/
theorem findBaseLoop_picks (hm : Sorted mb.memory) (hr : Sorted mb.reserved) (hk : k < 32)
    (hsz : 0 < size) (hn : 2 ^ 32 ≤ n) (hi : i ≤ mb.memory.cnt) :
    ∃ r, findBaseLoop n mb size (2 ^ k) 0 limit i = some r ∧
      Picks (FitsBelow mb limit size (2 ^ k) i) r := by
  induction i with
  | zero => exact ⟨0, rfl, picks_none fun b hb => by obtain ⟨_, ⟨m, hm, _⟩, _⟩ := hb; omega⟩
  | succ i ih =>
    obtain ⟨r', hr', hpk'⟩ := ih (by omega)
    have he := hm.bounded i hi
    have hsk (hno : ∀ b, (mb.memory.regions i).base ≤ b →
        ¬ b + size ≤ min ((mb.memory.regions i).base + (mb.memory.regions i).size) limit) :
        Picks (FitsBelow mb limit size (2 ^ k) (i + 1)) r' := by
      refine hpk'.congr fun b => ?_
      rw [fitsBelow_succ]
      constructor
      · exact .inr
      rintro (⟨-, hl, -, hhi, -⟩ | h)
      · exact absurd hhi (hno b hl)
      · exact h
    rw [findBaseLoop]
    simp only [add32_of_lt he, max_zero]
    by_cases hsm : (mb.memory.regions i).size < size
    · rw [if_pos hsm]
      exact ⟨r', hr', hsk fun b hl => by omega⟩
    rw [if_neg hsm, if_neg (by omega)]
    by_cases hep : min ((mb.memory.regions i).base + (mb.memory.regions i).size) limit ≤
        (mb.memory.regions i).base
    · rw [if_pos hep]
      exact ⟨r', hr', hsk fun b hl => by omega⟩
    rw [if_neg hep]
    have ht : min ((mb.memory.regions i).base + (mb.memory.regions i).size) limit <
        2 ^ 32 := by omega
    obtain ⟨found, hfnd, hpk⟩ :=
      memblockFindRegion_picks hr hk (mb.memory.regions i).base size ht hn
    refine ⟨if found ≠ 0 then found else r', ?_, ?_⟩
    · rw [hfnd]
      by_cases hf : found = 0
      · simp [hf, hr', memblockError]
      · simp [hf, memblockError]
    refine (hpk.or (fun _ => hpk') ?_).congr fun b => fitsBelow_succ.symm
    intro b c hb hc
    obtain ⟨-, ⟨m, hmi, -, he', -⟩, -⟩ := hc
    have hbf : _ ≤ _ := hm.ordered m i hmi hi
    omega

/-- **Early allocation.** `memblock_find_base` comes to an end, and returns the highest place
for the rounded size, or an error if there is none. -/
theorem memblockFindBase_greatest (mb : Memblock) (currentLimit size k maxAddr n : ℕ)
    (hm : Sorted mb.memory) (hr : Sorted mb.reserved) (hk : k < 32) (hsize : 1 ≤ size)
    (hround : size + (2 ^ k - 1) < 2 ^ 32) (hn : 2 ^ 32 ≤ n) :
    ∃ r, memblockFindBase n mb currentLimit size (2 ^ k) 0 maxAddr = some r ∧
      (r = memblockError ↔
        ¬ ∃ b, FitsAt mb (limitOf currentLimit maxAddr) (roundUp size (2 ^ k)) (2 ^ k) b) ∧
      (r ≠ memblockError → IsGreatest
        {b | FitsAt mb (limitOf currentLimit maxAddr) (roundUp size (2 ^ k)) (2 ^ k) b} r) := by
  have hpos : 0 < roundUp size (2 ^ k) := by
    have hle : size ≤ roundUp size (2 ^ k) :=
      (alignUp_le_iff (Nat.dvd_mul_left _ _) (Nat.two_pow_pos k)).1 (le_refl _)
    omega
  obtain ⟨r, hr', hpicks⟩ := findBaseLoop_picks hm hr hk hpos hn (le_refl _)
  refine ⟨r, ?_, hpicks.eq_zero_iff, hpicks.isGreatest⟩
  rw [memblockFindBase, if_neg (by omega), alignUp32_of_lt hk hround]
  exact hr'

end Memory

def oneRegion (base size : ℕ) : MemblockType :=
  { cnt := 1, max := initMemblockRegions, regions := fun _ => ⟨base, size⟩ }

/-- One region of memory, and nothing reserved. -/
def oneBank (base size : ℕ) : Memblock :=
  { memory := oneRegion base size, reserved := { oneRegion 0 0 with cnt := 0 } }

theorem sorted_oneRegion {base size : ℕ} (h : base + size < 2 ^ 32) :
    Sorted (oneRegion base size) where
  bounded _ _ := h
  ordered i j hij hj := absurd hij (by simp only [oneRegion] at hj; omega)

theorem sorted_empty (t : MemblockType) : Sorted { t with cnt := 0 } where
  bounded i hi := absurd hi (Nat.not_lt_zero i)
  ordered _ j _ hj := absurd hj (Nat.not_lt_zero j)

/-- The upper bank is too small, and the end of the lower one is reserved. -/
def twoBanks : Memblock where
  memory := { oneRegion 0x100000 0x100000 with
    cnt := 2, regions := fun i => if i = 0 then ⟨0x100000, 0x100000⟩ else ⟨0x300000, 0x1000⟩ }
  reserved := oneRegion 0x1ff000 0x1000

theorem memblockFindBase_greatest_twoBanks :
    IsGreatest {b | FitsAt twoBanks 0x400000 (roundUp 0x1800 (2 ^ 12)) (2 ^ 12) b} 0x1fd000 := by
  have hmemory : Sorted twoBanks.memory := by
    refine ⟨by decide, fun i j hij (hj : j < 2) => ?_⟩
    obtain ⟨rfl, rfl⟩ : i = 0 ∧ j = 1 := by omega
    decide
  obtain ⟨r, hr, -, hgreatest⟩ := memblockFindBase_greatest twoBanks 0 0x1800 12 0x400000 (2 ^ 32)
    hmemory (sorted_oneRegion (by decide)) (by decide) (by decide) (by decide) (le_refl _)
  cases hr.symm.trans (show _ = some 0x1fd000 by decide)
  exact hgreatest (by decide)

/-- A place below the first page is returned if the memory does not start at 0, a region
that has room for the size but not for the rounded size is passed over, and a limit of 0
is no limit of 0. -/
theorem memblockFindBase_unlike :
    (memblockFindBase 1 (oneBank 0x100 0x700) 0 0x100 0x100 0 0xffffffff = some 0x700 ∧
      0x700 < pageSize) ∧
    (memblockFindBase 1 (oneBank 0x10000 0x800) 0 0x100 0x1000 0 0xffffffff = some memblockError ∧
      0x1000 ∣ 0x10000 ∧ Inside (oneBank 0x10000 0x800).memory 0x10000 0x100) ∧
    memblockFindBase 1 (oneBank 0x10000 0x1000) 0x20000 0x100 0x100 0 0 = some 0x10f00 := by
  refine ⟨by decide, ⟨by decide, by decide, 0, by decide, by decide, by decide⟩, by decide⟩

/-! ## Asking about a range -/

section Query

variable {t : MemblockType} {base size : ℕ}

/-- The region a search returns has the address, whether the slot is counted or not. -/
theorem searchLoop_eq_some {addr left right : ℕ} (h : searchLoop t addr left right = some i) :
    i < max (left + 1) right ∧ (t.regions i).base ≤ addr ∧
      addr < add32 (t.regions i).base (t.regions i).size := by
  fun_induction searchLoop t addr left right with
  | case1 left right mid rgn hl hgo ih =>
    have hi := ih h
    omega
  | case2 => cases h
  | case3 left right mid rgn hl hhi hgo ih =>
    have hi := ih h
    omega
  | case4 => cases h
  | case5 left right mid rgn hl hhi =>
    have heq : mid = i := Option.some.inj h
    rw [← heq]
    refine ⟨?_, not_lt.1 hl, not_le.1 hhi⟩
    omega

/-- The range lies in one slot that the search can look at: the first one is always one of
them. -/
def InsideSlot (t : MemblockType) (base size : ℕ) : Prop :=
  ∃ i < max 1 t.cnt, (t.regions i).base ≤ base ∧
    base + size ≤ add32 (t.regions i).base (t.regions i).size

/-- The search finds the slot a range lies in. -/
theorem search_of_insideSlot (ht : Sorted t) (hsz : 0 < size) (hi : i < max 1 t.cnt)
    (hl : (t.regions i).base ≤ base)
    (hhi : base + size ≤ add32 (t.regions i).base (t.regions i).size) :
    memblockSearch t base = some i := by
  by_cases hc : t.cnt = 0
  · have hi0 : i = 0 := by omega
    subst hi0
    rw [memblockSearch, hc, searchLoop]
    simp only [add_zero, Nat.zero_div]
    rw [if_neg (by omega), if_neg (by omega)]
  have hi' : i < t.cnt := by omega
  rw [add32_of_lt (ht.bounded i hi')] at hhi
  have hso := (searchLoop_isSome ht (pos_of_ne_zero hc) le_rfl
    (by simp) (fun j hj hj' => absurd hj' (by omega))).2
    ⟨i, hi', hl, by omega⟩
  obtain ⟨j, hj⟩ := Option.isSome_iff_exists.1 hso
  obtain ⟨hjlt, hjl, hjh⟩ := searchLoop_eq_some hj
  have hj' : j < t.cnt := by omega
  rw [add32_of_lt (ht.bounded j hj')] at hjh
  have heq : j = i := by
    rcases lt_trichotomy j i with hlt | heq | hgt
    · have hb : _ ≤ _ := ht.ordered j i hlt hi'
      omega
    · exact heq
    have hb : _ ≤ _ := ht.ordered i j hgt hj'
    omega
  rw [memblockSearch, hj, heq]

theorem isRegionMemory_iff_insideSlot {mb : Memblock} (hr : Sorted mb.reserved) (hsz : 0 < size)
    (hlt : base + size < 2 ^ 32) :
    memblockIsRegionMemory mb base size = true ↔ InsideSlot mb.reserved base size := by
  unfold memblockIsRegionMemory
  constructor
  · intro h
    cases hs : memblockSearch mb.reserved base with
    | none => simp [hs] at h
    | some i =>
      simp only [hs, add32_of_lt hlt, decide_eq_true_eq] at h
      have hi := (searchLoop_eq_some hs).1
      exact ⟨i, by simpa using hi, h⟩
  · rintro ⟨i, hi, hl, hhi⟩
    rw [search_of_insideSlot hr hsz hi hl hhi]
    simp only [add32_of_lt hlt, decide_eq_true_eq]
    exact ⟨hl, hhi⟩

end Query

/-- **Is a range memory?** The answer is right exactly if the range lies in one region of
memory just when it lies in one reserved region. -/
theorem isRegionMemory_right_iff (mb : Memblock) (base size : ℕ) (hr : Sorted mb.reserved)
    (hsize : 0 < size) (hlt : base + size < 2 ^ 32) :
    (memblockIsRegionMemory mb base size = true ↔ Inside mb.memory base size) ↔
      (InsideSlot mb.reserved base size ↔ Inside mb.memory base size) := by
  rw [isRegionMemory_iff_insideSlot hr hsize hlt]

theorem isRegionMemory_right_oneBank :
    memblockIsRegionMemory (oneBank 0x100000 0x100000) 0x300000 0x1000 = true ↔
      Inside (oneBank 0x100000 0x100000).memory 0x300000 0x1000 := by
  refine (isRegionMemory_right_iff _ _ _ (sorted_empty _) (by decide) (by decide)).2 ?_
  refine iff_of_false ?_ ?_
  · intro ⟨_, _, _, h⟩
    have h' : 0x300000 + 0x1000 ≤ add32 0 0 := h
    exact absurd h' (by decide)
  intro ⟨_, _, _, h⟩
  have h' : 0x300000 + 0x1000 ≤ 0x100000 + 0x100000 := h
  exact absurd h' (by decide)

/-- Memory of which nothing is reserved is not memory. -/
theorem isRegionMemory_wrong :
    memblockIsRegionMemory (oneBank 0x100000 0x100000) 0x110000 0x1000 = false ∧
      Inside (oneBank 0x100000 0x100000).memory 0x110000 0x1000 := by
  refine ⟨?_, 0, by decide, by decide, by decide⟩
  rw [memblockIsRegionMemory, memblockSearch, searchLoop]
  decide

end NestLinux.Mm
