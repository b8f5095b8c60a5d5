import NestLinux.Mm.Memblock

/-!
# Runs of the early memory map

A table is exact for a set of addresses when its regions are sorted, non-empty and apart
from each other, cover that set, and when the search answers for it (`Exact`). Adding and
removing ranges keeps both tables exact for the ranges added minus those removed, as
long as no table loses its only region: then the count is zero, but the search still
looks at the first slot and finds the region that was removed.
-/

namespace NestLinux.Mm

open Lib Function List

variable {base' size' r n : ℕ} {regions : ℕ → MemblockRegion} {S M R : Set ℕ} {mb : Memblock}

/-! ## Regions -/

def span (base size : ℕ) : Set ℕ := {a | base ≤ a ∧ a < base + size}

variable {base size i : ℕ} {t : MemblockType} {v : MemblockRegion}

@[simp] theorem mem_span {a : ℕ} : a ∈ span base size ↔ base ≤ a ∧ a < base + size :=
  .rfl

namespace MemblockRegion

/-- The address is in the region. -/
def Has (a : ℕ) (r : MemblockRegion) : Prop := r.base ≤ a ∧ a < r.base + r.size

/-- The region is not empty and ends below `2 ^ 32`. -/
def Valid (r : MemblockRegion) : Prop := 0 < r.size ∧ r.base + r.size < 2 ^ 32

/-- There is a gap between two regions. -/
def Before (r s : MemblockRegion) : Prop := r.base + r.size < s.base

/-- The regions have no address in common. -/
def Apart (r s : MemblockRegion) : Prop := r.base + r.size ≤ s.base ∨ s.base + s.size ≤ r.base

end MemblockRegion

open MemblockRegion

/-- The address is in a region of the table. -/
def Covers (t : MemblockType) (a : ℕ) : Prop := ∃ i < t.cnt, Has a (t.regions i)

/-- The table holds regions, sorted and with gaps between them, and is not full. -/
structure Tiled (t : MemblockType) : Prop where
  pos : 0 < t.cnt
  lt_max : t.cnt < t.max
  max_eq : t.max = initMemblockRegions
  valid : ∀ i < t.cnt, Valid (t.regions i)
  ordered : Ordered Before t.regions t.cnt

/-- The table holds the first, empty region only. -/
structure Dummy (t : MemblockType) : Prop where
  cnt_eq : t.cnt = 1
  max_eq : t.max = initMemblockRegions
  region : t.regions 0 = ⟨0, 0⟩

/-! ## Adjacent ranges -/

theorem adjacent_pos_iff (h : base + size < 2 ^ 32) :
    0 < memblockAddrsAdjacent base size base' size' ↔ base' = base + size := by
  unfold memblockAddrsAdjacent
  rw [add32_of_lt h]
  split_ifs <;> simp_all

theorem adjacent_eq_zero_iff (h : base + size < 2 ^ 32) (h' : base' + size' < 2 ^ 32) :
    memblockAddrsAdjacent base size base' size' = 0 ↔
      base' ≠ base + size ∧ base ≠ base' + size' := by
  unfold memblockAddrsAdjacent
  rw [add32_of_lt h, add32_of_lt h']
  split_ifs <;> simp_all

/-! ## Writing one region -/

section Replace

theorem Tiled.lt (h : Tiled t) {j : ℕ} (hij : i < j) (hj : j < t.cnt) :
    (t.regions i).base + (t.regions i).size < (t.regions j).base := h.ordered i j hij hj

theorem Tiled.replace (h : Tiled t) (hv : Valid v) (hl : ∀ j < i, Before (t.regions j) v)
    (hhi : ∀ j, i < j → j < t.cnt → Before v (t.regions j)) :
    Tiled { t with regions := update t.regions i v } where
  pos := h.pos
  lt_max := h.lt_max
  max_eq := h.max_eq
  valid := forall_update hv h.valid
  ordered := h.ordered.update hl hhi

/-- The addresses of the other regions are apart from those of region `i`. -/
theorem Tiled.covers_split (h : Tiled t) (hi : i < t.cnt) (a : ℕ) :
    (∃ j < t.cnt, j ≠ i ∧ Has a (t.regions j)) ↔ Covers t a ∧ ¬ Has a (t.regions i) := by
  constructor
  · rintro ⟨j, hj, hne, ha⟩
    refine ⟨⟨j, hj, ha⟩, ?_⟩
    intro hai
    simp only [Has] at ha hai
    rcases lt_or_gt_of_ne hne with hlt | hgt
    · have hb := h.lt hlt hi
      omega
    have hb := h.lt hgt hj
    omega
  · rintro ⟨⟨j, hj, ha⟩, hn⟩
    refine ⟨j, hj, ?_, ha⟩
    rintro rfl
    exact hn ha

theorem covers_replace (h : Tiled t) (hi : i < t.cnt) (a : ℕ) :
    Covers { t with regions := update t.regions i v } a ↔
      Has a v ∨ Covers t a ∧ ¬ Has a (t.regions i) := by
  have hex := exists_update (P := Has a) (f := t.regions) (v := v) hi
  rw [h.covers_split hi] at hex
  exact hex

/-- A region that grows by a range covers the range too. -/
theorem covers_grow (h : Tiled t) (hi : i < t.cnt)
    (hv : ∀ a, Has a v ↔ a ∈ span base size ∨ Has a (t.regions i)) (a : ℕ) :
    Covers { t with regions := update t.regions i v } a ↔ a ∈ span base size ∨ Covers t a := by
  rw [covers_replace h hi, hv]
  have hc : Has a (t.regions i) → Covers t a := fun ha => ⟨i, hi, ha⟩
  grind

end Replace

/-! ## Removing a region -/

theorem memblockRemoveRegion_eq (hr : r < t.cnt) (hc : t.cnt < 2 ^ 32) :
    memblockRemoveRegion t r =
      { t with regions := removeAt t.regions t.cnt r, cnt := t.cnt - 1 } := by
  have hsub : sub32 t.cnt 1 = t.cnt - 1 := sub32_of_le (by omega) (by omega)
  have hln : r + (t.cnt - 1 - r) + 1 = t.cnt := by omega
  rw [memblockRemoveRegion, hsub, moveDown_eq, hln]

theorem Tiled.cnt_lt (h : Tiled t) : t.cnt < 2 ^ 32 := by
  have h1 := h.lt_max
  have h2 : t.max = 128 := h.max_eq
  omega

theorem Tiled.removeRegion (h : Tiled t) (hr : r < t.cnt)
    (hc : 1 < t.cnt) : Tiled (memblockRemoveRegion t r) := by
  rw [memblockRemoveRegion_eq hr h.cnt_lt]
  have hm := h.lt_max
  exact ⟨by simp only; omega, by simp only; omega, h.max_eq, forall_removeAt hr h.valid,
    h.ordered.removeAt⟩

theorem covers_removeRegion (h : Tiled t) (hr : r < t.cnt) (a : ℕ) :
    Covers (memblockRemoveRegion t r) a ↔ Covers t a ∧ ¬ Has a (t.regions r) := by
  rw [memblockRemoveRegion_eq hr h.cnt_lt]
  have hex := exists_removeAt (P := Has a) (f := t.regions) hr
  constructor
  · rintro ⟨i, hi, ha⟩
    rw [← h.covers_split hr]
    simp only at hi ha
    by_cases hir : i < r
    · rw [removeAt_of_lt hir] at ha
      exact ⟨i, by omega, by omega, ha⟩
    rw [removeAt_of_le (by omega) (by omega)] at ha
    exact ⟨i + 1, by omega, by omega, ha⟩
  · exact fun hc => (hex.1 hc.1).resolve_left hc.2

/-! ## Inserting a region -/

/-- Where a region of a given base belongs among the first `n`. -/
def slotOf (regions : ℕ → MemblockRegion) (base : ℕ) : ℕ → ℕ
  | 0 => 0
  | i + 1 => if base < (regions i).base then slotOf regions base i else i + 1

theorem slotOf_le (regions : ℕ → MemblockRegion) (base n : ℕ) : slotOf regions base n ≤ n := by
  fun_induction slotOf regions base n with
  | case1 => exact le_refl 0
  | case2 i hlt ih => omega
  | case3 i hlt => exact le_rfl

theorem base_le_of_lt_slotOf (hord : Ordered Before regions n)
    (hi : i < slotOf regions base n) : (regions i).base ≤ base := by
  induction n with
  | zero => cases hi
  | succ n ih =>
    rw [slotOf] at hi
    split_ifs at hi with hlt
    · exact ih (fun i j hij hj => hord i j hij (by omega)) hi
    rcases lt_or_eq_of_le (Nat.lt_succ_iff.1 hi) with hin | rfl
    · have hb : _ < _ := hord i n hin (Nat.lt_succ_self n)
      omega
    · omega

theorem lt_base_of_slotOf_le (hi : slotOf regions base n ≤ i) (hin : i < n) :
    base < (regions i).base := by
  induction n with
  | zero => omega
  | succ n ih =>
    rw [slotOf] at hi
    split_ifs at hi with hlt
    · rcases lt_or_eq_of_le (Nat.lt_succ_iff.1 hin) with hin' | rfl
      · exact ih hi hin'
      · exact hlt
    · omega

theorem slotOf_update {k : ℕ}
    (h : n ≤ k) : slotOf (update regions k v) base n = slotOf regions base n := by
  induction n with
  | zero => rfl
  | succ n ih =>
    have hne : n ≠ k := by omega
    rw [slotOf, slotOf, ih (by omega), update_of_ne hne]

/-- What the loop that makes room leaves. Where no region is below the new one, it does
not write the new one. -/
theorem moveUp_apply (rgn : MemblockRegion) (n : ℕ) (regions : ℕ → MemblockRegion) (j : ℕ) :
    moveUp rgn n regions j = if j < slotOf regions rgn.base n ∨ n < j then regions j
      else if j = slotOf regions rgn.base n then (if j = 0 then regions 0 else rgn)
      else regions (j - 1) := by
  induction n generalizing regions with
  | zero =>
    rw [moveUp]
    by_cases hj : j = 0
    · simp [hj]
    · rw [if_pos (by omega)]
  | succ n ih =>
    have hsl := slotOf_le regions rgn.base n
    rw [moveUp, slotOf]
    by_cases hlt : rgn.base < (regions n).base
    · rw [if_pos hlt, if_pos hlt, ih, slotOf_update (Nat.le_succ n)]
      by_cases hj : j = n + 1
      · subst hj
        rw [if_pos (by omega), if_neg (by omega), if_neg (by omega), update_self]
        rfl
      rw [update_of_ne hj, update_of_ne (by omega)]
      by_cases hj1 : j < slotOf regions rgn.base n ∨ n < j
      · rw [if_pos hj1, if_pos (by omega)]
      have hj2 : ¬ (j < slotOf regions rgn.base n ∨ n + 1 < j) := by omega
      rw [if_neg hj1, if_neg hj2, update_of_ne (by omega)]
    · rw [if_neg hlt, if_neg hlt]
      by_cases hj : j = n + 1
      · rw [hj, update_self, if_neg (by omega), if_pos rfl, if_neg (by omega)]
      · rw [update_of_ne hj, if_pos (by omega)]

/-- **Making room.** The new region stands where it belongs, and the regions from there on
are one slot further. -/
theorem insertRegion_eq (h : Tiled t) : insertRegion t base size = { t with
        regions := insertAt t.regions t.cnt (slotOf t.regions base t.cnt) ⟨base, size⟩
        cnt := t.cnt + 1 } := by
  have hc := h.lt_max
  have hm : t.max = 128 := h.max_eq
  have ha : add32 t.cnt 1 = t.cnt + 1 := add32_of_lt (by omega)
  have hsl := slotOf_le t.regions base t.cnt
  have hmv := moveUp_apply ⟨base, size⟩ t.cnt t.regions
  simp only at hmv
  rw [insertRegion]
  congr 1
  -- the test after the loop asks whether the loop ran out of regions
  have hz : moveUp ⟨base, size⟩ t.cnt t.regions 0 = t.regions 0 := by
    rw [hmv]
    by_cases hs : 0 < slotOf t.regions base t.cnt
    · rw [if_pos (.inl hs)]
    · rw [if_neg (by omega), if_pos (by omega), if_pos rfl]
  rw [hz]
  funext j
  by_cases hs : slotOf t.regions base t.cnt = 0
  · have hlt : base < (t.regions 0).base := lt_base_of_slotOf_le (le_of_eq hs) h.pos
    rw [if_pos hlt, hs]
    by_cases hj : j = 0
    · rw [hj, update_self, insertAt_self]
    rw [update_of_ne hj, hmv, hs]
    by_cases hjn : t.cnt < j
    · simp [insertAt, hj, hjn]
    · simp [insertAt, hj, not_lt.1 hjn]
  have hle : ¬ base < (t.regions 0).base :=
    not_lt.2 (base_le_of_lt_slotOf h.ordered (pos_of_ne_zero hs))
  rw [if_neg hle, hmv, insertAt]
  by_cases hj1 : j < slotOf t.regions base t.cnt
  · rw [if_pos (.inl hj1), if_pos hj1]
  rw [if_neg hj1]
  by_cases hj2 : j = slotOf t.regions base t.cnt
  · rw [if_neg (by omega), if_pos hj2, if_neg (by omega), if_pos hj2]
  rw [if_neg hj2, if_neg hj2]
  by_cases hjn : t.cnt < j
  · rw [if_pos (.inr hjn), if_neg (by omega)]
  · rw [if_neg (by omega), if_pos (by omega)]

/-! ## Adding a range -/

/-- What adding a range to a table must leave. -/
def Added (t t' : MemblockType) (base size : ℕ) : Prop :=
  Tiled t' ∧ ∀ a, Covers t' a ↔ a ∈ span base size ∨ Covers t a

section Add

variable (h : Tiled t) (hv : Valid ⟨base, size⟩)
  (hap : ∀ i < t.cnt, Apart (t.regions i) ⟨base, size⟩)

theorem firstAdjacent_eq_none (hv : Valid ⟨base, size⟩) (h : Tiled t)
    (hno : firstAdjacent t base size = none) (i : ℕ) (hi : i < t.cnt) :
    (t.regions i).base ≠ base + size ∧ base ≠ (t.regions i).base + (t.regions i).size := by
  have hfi := find?_eq_none.1 hno i (mem_range.2 hi)
  simp only [decide_eq_true_eq, not_or, not_not] at hfi
  exact (adjacent_eq_zero_iff hv.2 (h.valid i hi).2).1 hfi.2

include h hv hap

/-- A range that touches no region is inserted. -/
theorem Tiled.insert (hfe : ∀ i < t.cnt,
      (t.regions i).base ≠ base + size ∧ base ≠ (t.regions i).base + (t.regions i).size)
    (hrm : t.cnt + 1 < t.max) : Added t (insertRegion t base size) base size := by
  rw [insertRegion_eq h]
  have hsl := slotOf_le t.regions base t.cnt
  constructor
  · refine ⟨Nat.succ_pos _, hrm, h.max_eq, forall_insertAt hsl hv h.valid,
      h.ordered.insertAt hsl ?_ ?_⟩
    · intro i hi
      have hle := base_le_of_lt_slotOf h.ordered hi
      have hi' : i < t.cnt := by omega
      have hf := hfe i hi'
      have ha := hap i hi'
      simp only [MemblockRegion.Apart, Before] at ha ⊢
      omega
    · intro i hi hi'
      have hlt := lt_base_of_slotOf_le hi hi'
      have hf := hfe i hi'
      have ha := hap i hi'
      simp only [MemblockRegion.Apart, Before] at ha ⊢
      omega
  · intro a
    exact exists_insertAt hsl

omit hv in
/-- Region `i` begins where the range ends: it grows downwards. -/
theorem Tiled.growDown (hi : i < t.cnt) (hba : (t.regions i).base = base + size)
    (hfe : ∀ j < i, base ≠ (t.regions j).base + (t.regions j).size) :
    Added t { t with regions := update t.regions i ⟨base, (t.regions i).size + size⟩ }
      base size := by
  have hvi := h.valid i hi
  simp only [Valid] at hvi
  constructor
  · refine h.replace ⟨?_, ?_⟩ ?_ ?_
    · simp only
      omega
    · simp only
      omega
    · intro j hj
      have hb := h.lt hj hi
      have hf := hfe j hj
      have ha := hap j (by omega)
      simp only [MemblockRegion.Apart, Before] at ha ⊢
      omega
    · intro j hij hj
      have hb := h.lt hij hj
      simp only [Before] at hb ⊢
      omega
  · refine covers_grow h hi fun a => ?_
    simp only [Has, mem_span]
    omega

/-- The range begins where region `i` ends, and ends before the next one: region `i` grows
upwards. -/
theorem Tiled.growUp (hi : i < t.cnt) (hba : base = (t.regions i).base + (t.regions i).size)
    (hfe : i + 1 < t.cnt → base + size ≠ (t.regions (i + 1)).base) :
    Added t { t with regions := update t.regions i ⟨(t.regions i).base, (t.regions i).size + size⟩ }
      base size := by
  have hvi := h.valid i hi
  have he : base + size < 2 ^ 32 := hv.2
  simp only [Valid] at hvi
  constructor
  · refine h.replace ⟨?_, ?_⟩ ?_ ?_
    · simp only
      omega
    · simp only
      omega
    · intro j hj
      exact h.ordered j i hj hi
    intro j hij hj
    have hnx : base + size < (t.regions (i + 1)).base := by
      have hb := h.lt (Nat.lt_add_one i) (by omega)
      have ha := hap (i + 1) (by omega)
      simp only [MemblockRegion.Apart] at ha
      omega
    have hle : (t.regions (i + 1)).base ≤ (t.regions j).base := by
      rcases Nat.lt_or_eq_of_le hij with hlt | heq
      · have hb := h.lt (i := i + 1) hlt hj
        omega
      · exact le_of_eq (by rw [← heq])
    simp only [Before]
    omega
  · refine covers_grow h hi fun a => ?_
    simp only [Has, mem_span]
    omega

omit hap in
/-- The range fills the gap between regions `i` and `i + 1`: both become one. -/
theorem Tiled.fill (hi : i + 1 < t.cnt) (hba : base = (t.regions i).base + (t.regions i).size)
    (hnx : (t.regions (i + 1)).base = base + size) : Added t { t with
      regions := update (removeAt t.regions t.cnt (i + 1)) i
        ⟨(t.regions i).base, (t.regions i).size + (size + (t.regions (i + 1)).size)⟩
      cnt := t.cnt - 1 } base size := by
  have hsz : 0 < size := hv.1
  have hv' := (h.valid (i + 1) hi).2
  have ht' : Tiled (memblockRemoveRegion t (i + 1)) := h.removeRegion hi (by omega)
  have hc' := covers_removeRegion h hi
  rw [memblockRemoveRegion_eq hi h.cnt_lt] at ht' hc'
  have hsm : removeAt t.regions t.cnt (i + 1) i = t.regions i := removeAt_of_lt (Nat.lt_succ_self i)
  refine ⟨ht'.replace ⟨by simp only; omega, by simp only; omega⟩ ?_ ?_, fun a => ?_⟩
  · intro j hj
    simp only [removeAt_of_lt (Nat.lt_succ_of_lt hj)]
    exact h.ordered j i hj (by omega)
  · intro j hij hj
    simp only at hj ⊢
    rw [removeAt_of_le (by omega) (by omega)]
    have hb := h.lt (i := i + 1) (j := j + 1) (by omega) (by omega)
    simp only [Before]
    omega
  · rw [covers_replace ht' (by simp only; omega), hc']
    simp only [hsm]
    have hhas : Has a ⟨(t.regions i).base, (t.regions i).size + (size + (t.regions (i + 1)).size)⟩ ↔
        a ∈ span base size ∨ Has a (t.regions i) ∨ Has a (t.regions (i + 1)) := by
      simp only [Has, mem_span]
      omega
    have hleft : Has a (t.regions i) → Covers t a := fun ha => ⟨i, by omega, ha⟩
    have hright : Has a (t.regions (i + 1)) → Covers t a := fun ha => ⟨i + 1, hi, ha⟩
    rw [hhas]
    grind

omit hap in
theorem growRegion_down (hi : i < t.cnt) (haft : (t.regions i).base = base + size) :
    growRegion t i base size =
      { t with regions := update t.regions i ⟨base, (t.regions i).size + size⟩ } := by
  have hvi := (h.valid i hi).2
  simp only [growRegion]
  rw [if_pos ((adjacent_pos_iff hv.2).2 haft), sub32_of_le (by omega) (by omega),
    add32_of_lt (by omega), haft, Nat.add_sub_cancel]

omit h hap in
theorem growRegion_up (hbf : base = (t.regions i).base + (t.regions i).size) :
    growRegion t i base size = { t with
      regions := update t.regions i ⟨(t.regions i).base, (t.regions i).size + size⟩ } := by
  have hsz : 0 < size := hv.1
  have he : base + size < 2 ^ 32 := hv.2
  simp only [growRegion]
  rw [if_neg (by rw [adjacent_pos_iff he]; omega), add32_of_lt (by omega)]

omit hv hap in
/-- Whether the region written at `i` touches the next one. -/
theorem regionsAdjacent_update (hlt : i + 1 < t.cnt) (hb : v.base < (t.regions (i + 1)).base)
    (he : v.base + v.size < 2 ^ 32) :
    memblockRegionsAdjacent { t with regions := update t.regions i v } i (i + 1) = 0 ↔
      (t.regions (i + 1)).base ≠ v.base + v.size := by
  rw [memblockRegionsAdjacent]
  simp only [update_self, update_of_ne (by omega : i + 1 ≠ i)]
  rw [adjacent_eq_zero_iff he (h.valid (i + 1) hlt).2]
  omega

/-- The first region that touches the range grows, and becomes one with the next region where
it touches that too. -/
theorem Tiled.growRegion (hi : i < t.cnt) (hst : (t.regions i).base = base + size ∨
      base = (t.regions i).base + (t.regions i).size)
    (hfe : ∀ j < i, base ≠ (t.regions j).base + (t.regions j).size) :
    Added t (if i < t.cnt - 1 ∧ memblockRegionsAdjacent (growRegion t i base size) i (i + 1) ≠ 0
      then memblockCoalesceRegions (growRegion t i base size) i (i + 1)
      else growRegion t i base size) base size := by
  have hvi := (h.valid i hi).2
  have he : base + size < 2 ^ 32 := hv.2
  rcases hst with haft | hbf
  · rw [growRegion_down h hv hi haft, if_neg]
    · exact h.growDown hap hi haft hfe
    rintro ⟨hlt, hadj⟩
    have hb := h.lt (Nat.lt_add_one i) (by omega)
    refine hadj ((regionsAdjacent_update h (by omega) ?_ ?_).2 ?_) <;> simp only <;> omega
  rw [growRegion_up hv hbf]
  have hadj (hlt : i + 1 < t.cnt) : memblockRegionsAdjacent { t with
      regions := update t.regions i ⟨(t.regions i).base, (t.regions i).size + size⟩ }
        i (i + 1) = 0 ↔
        (t.regions (i + 1)).base ≠ base + size := by
    have hb := h.lt (Nat.lt_add_one i) hlt
    rw [regionsAdjacent_update h hlt (by simp only; omega) (by simp only; omega)]
    simp only
    omega
  by_cases hfl : i + 1 < t.cnt ∧ (t.regions (i + 1)).base = base + size
  · have hvn := (h.valid (i + 1) hfl.1).2
    rw [if_pos ⟨by omega, by rw [ne_eq, hadj hfl.1, not_not]; exact hfl.2⟩, memblockCoalesceRegions]
    simp only [update_self, update_of_ne (by omega : i + 1 ≠ i), update_idem]
    rw [memblockRemoveRegion_eq (by simpa using hfl.1) (by simpa using h.cnt_lt)]
    simp only
    rw [removeAt_update (Nat.lt_succ_self i), add32_of_lt (by omega), Nat.add_assoc]
    exact h.fill hv hfl.1 hbf hfl.2
  · rw [if_neg]
    · exact h.growUp hv hap hi hbf fun hlt heq => hfl ⟨hlt, heq.symm⟩
    rintro ⟨hlt, hn⟩
    have hlt' : i + 1 < t.cnt := by omega
    exact hn ((hadj hlt').2 fun heq => hfl ⟨hlt', heq⟩)

/-- **Adding a range.** A range that is not empty, ends below `2 ^ 32` and is apart from the
regions of the table is added to what the table covers. -/
theorem memblockAddRegion_added (hok : (memblockAddRegion t base size).1 ≠ -1) :
    Added t (memblockAddRegion t base size).2 base size := by
  have hps := h.pos
  have hm := h.lt_max
  have hsub : sub32 t.cnt 1 = t.cnt - 1 := sub32_of_le hps (by have := h.cnt_lt; omega)
  have hdm : ¬ (t.cnt = 1 ∧ (t.regions 0).size = 0) := by
    have := (h.valid 0 hps).1
    omega
  have hne (i : ℕ) (hi : i < t.cnt) : t.regions i ≠ ⟨base, size⟩ := by
    intro heq
    have hsz : 0 < size := hv.1
    have ha := hap i hi
    rw [heq] at ha
    simp only [MemblockRegion.Apart] at ha
    omega
  unfold memblockAddRegion at hok ⊢
  rw [if_neg hdm] at hok ⊢
  simp only [hsub] at hok ⊢
  cases hfnd : firstAdjacent t base size with
  | none =>
    have hfe := firstAdjacent_eq_none hv h hfnd
    rw [hfnd] at hok
    simp only [Option.mem_def, reduceCtorEq, false_and, exists_false, if_false, Option.getD_none,
      Option.isSome_none, Bool.false_eq_true, ne_eq, not_true] at hok ⊢
    have hla : ¬ (t.cnt < t.cnt - 1 ∧ ¬ memblockRegionsAdjacent t t.cnt (t.cnt + 1) = 0) := by
      omega
    rw [if_neg hla, if_neg (by omega)] at hok ⊢
    have hc : (insertRegion t base size).cnt = t.cnt + 1 := by rw [insertRegion_eq h]
    have hmI : (insertRegion t base size).max = t.max := rfl
    by_cases hfu : (insertRegion t base size).cnt = (insertRegion t base size).max
    · rw [if_pos hfu] at hok
      exact absurd rfl hok
    rw [if_neg hfu]
    exact h.insert hv hap hfe (by omega)
  | some i =>
    have hsc := find?_range_eq_some.1 hfnd
    have hi : i < t.cnt := mem_range.1 hsc.2.1
    have hfe (j : ℕ) (hj : j < i) : base ≠ (t.regions j).base + (t.regions j).size := by
      have hno := hsc.2.2 j hj
      simp only [hne j (by omega), false_or, Bool.not_eq_true', decide_eq_false_iff_not,
        not_not] at hno
      exact ((adjacent_eq_zero_iff hv.2 (h.valid j (by omega)).2).1 hno).2
    have hst : (t.regions i).base = base + size ∨
        base = (t.regions i).base + (t.regions i).size := by
      have hadj := hsc.1
      simp only [hne i hi, false_or, decide_eq_true_eq] at hadj
      rwa [ne_eq, adjacent_eq_zero_iff hv.2 (h.valid i hi).2, not_and_or, not_not, not_not] at hadj
    have hsm : ¬ ∃ j ∈ some i, t.regions j = ⟨base, size⟩ := by
      simpa using hne i hi
    have hgr := h.growRegion hv hap hi hst hfe
    rw [if_neg hsm]
    simp only [Option.getD_some, Option.isSome_some, if_true]
    by_cases hco : i < t.cnt - 1 ∧ memblockRegionsAdjacent (growRegion t i base size) i (i + 1) ≠ 0
    · rw [if_pos hco] at hgr ⊢
      exact hgr
    rw [if_neg hco] at hgr
    rw [if_neg hco, if_pos (by decide)]
    exact hgr

end Add

/-! ## Removing a range -/

/-- What removing a range from a table must leave. -/
def Removed (t t' : MemblockType) (base size : ℕ) : Prop :=
  Tiled t' ∧ ∀ a, Covers t' a ↔ Covers t a ∧ a ∉ span base size

section Remove

variable (h : Tiled t) (hi : i < t.cnt)

include h hi

section

variable (hps : 0 < size') (hl : (t.regions i).base ≤ base')
  (hhi : base' + size' ≤ (t.regions i).base + (t.regions i).size)

include hps hl hhi

/-- Region `i` is cut to a part of it. -/
theorem Tiled.cut : Tiled { t with regions := update t.regions i ⟨base', size'⟩ } := by
  have hvi := (h.valid i hi).2
  refine h.replace ⟨hps, by simp only; omega⟩ ?_ ?_
  · intro j hj
    have hb := h.lt hj hi
    simp only [Before]
    omega
  intro j hij hj
  have hb := h.lt hij hj
  simp only [Before]
  omega

/-- A part of region `i` is left, and the rest of it is the range. -/
theorem Tiled.trim (hrs : ∀ a, Has a ⟨base', size'⟩ ↔ Has a (t.regions i) ∧ a ∉ span base size)
    (hin : ∀ a ∈ span base size, Has a (t.regions i)) :
    Removed t { t with regions := update t.regions i ⟨base', size'⟩ } base size := by
  refine ⟨h.cut hi hps hl hhi, ?_⟩
  intro a
  rw [covers_replace h hi, hrs]
  have hc : Has a (t.regions i) → Covers t a := fun ha => ⟨i, hi, ha⟩
  have hspan := hin a
  grind

end

/-- Region `i` is cut before the range, and what is behind it is added again. -/
theorem Tiled.split {b s : ℕ} {r : ℤ × MemblockType}
    (hr : memblockAddRegion { t with regions := update t.regions i ⟨b, base - b⟩ } (base + size)
      (b + s - (base + size)) = r) (hreg : t.regions i = ⟨b, s⟩) (hlo : b < base)
    (hhi : base + size < b + s) (hok : r.1 ≠ -1) : Removed t r.2 base size := by
  subst hr
  have hvi := h.valid i hi
  simp only [Valid, hreg] at hvi
  have hct := h.cut hi (show 0 < base - b by omega) (by rw [hreg]) (by simp only [hreg]; omega)
  have hrs : Valid ⟨base + size, b + s - (base + size)⟩ :=
    ⟨by simp only; omega, by simp only; omega⟩
  have had := memblockAddRegion_added hct hrs ?_ hok
  · refine ⟨had.1, fun a => ?_⟩
    rw [had.2, covers_replace h hi, hreg]
    have hcv : Has a ⟨b, s⟩ → Covers t a := fun ha => ⟨i, hi, hreg ▸ ha⟩
    simp only [Has, mem_span] at hcv ⊢
    grind
  intro j hj
  rcases Nat.lt_trichotomy j i with hlt | rfl | hgt
  · have hb := h.lt hlt hi
    simp only [update_of_ne hlt.ne, MemblockRegion.Apart]
    simp only [hreg] at hb
    omega
  · simp only [update_self, MemblockRegion.Apart]
    omega
  · have hb := h.lt hgt hj
    simp only [update_of_ne hgt.ne', MemblockRegion.Apart]
    simp only [hreg] at hb
    omega

end Remove

/-- The range lies inside one region. -/
def Inside (t : MemblockType) (base size : ℕ) : Prop :=
  ∃ i < t.cnt, (t.regions i).base ≤ base ∧
    base + size ≤ (t.regions i).base + (t.regions i).size

/-- The range is all there is in the table: the slot behind the removed region is not one
of the table, and nothing is moved over it. -/
def EmptiesTable (t : MemblockType) (base size : ℕ) : Prop :=
  t.cnt = 1 ∧ t.regions 0 = ⟨base, size⟩

/-- **Removing a range.** A range inside one region is taken from what the table covers,
unless that leaves no region. -/
theorem memblockRemoveRange_removed (h : Tiled t) (hin : Inside t base size)
    (hkp : ¬ EmptiesTable t base size) (hok : (memblockRemoveRange t base size).1 ≠ -1) :
    Removed t (memblockRemoveRange t base size).2 base size := by
  have hla : add32 base size = base + size := by
    obtain ⟨i, hi, -, hle⟩ := hin
    have := (h.valid i hi).2
    exact add32_of_lt (by omega)
  unfold memblockRemoveRange at hok ⊢
  simp only [hla] at hok ⊢
  cases hfi : (range t.cnt).find? fun i => (t.regions i).base ≤ base ∧
      base + size ≤ add32 (t.regions i).base (t.regions i).size with
  | none =>
    rw [hfi] at hok
    exact absurd rfl hok
  | some i =>
    have hsc := find?_range_eq_some.1 hfi
    have hi : i < t.cnt := mem_range.1 hsc.2.1
    have hvi := h.valid i hi
    have he : add32 (t.regions i).base (t.regions i).size =
        (t.regions i).base + (t.regions i).size := add32_of_lt hvi.2
    have hcn := hsc.1
    simp only [he, decide_eq_true_eq] at hcn
    simp only [Valid] at hvi
    have hsp (a : ℕ) (ha : a ∈ span base size) : Has a (t.regions i) := by
      simp only [mem_span, Has] at ha ⊢
      omega
    rw [hfi] at hok
    simp only [he] at hok ⊢
    by_cases hwh : (t.regions i).base = base ∧
        (t.regions i).base + (t.regions i).size = base + size
    · rw [if_pos hwh]
      have hreg : t.regions i = ⟨base, size⟩ := by
        rcases hri : t.regions i with ⟨b, s⟩
        rw [hri] at hwh
        simp only [MemblockRegion.mk.injEq] at hwh ⊢
        omega
      have hc : 1 < t.cnt := by
        by_contra hn
        have hi0 : i = 0 := by omega
        exact hkp ⟨by omega, hi0 ▸ hreg⟩
      refine ⟨h.removeRegion hi hc, ?_⟩
      intro a
      rw [covers_removeRegion h hi, hreg]
      rfl
    rw [if_neg hwh] at hok ⊢
    by_cases hfrt : (t.regions i).base = base
    · rw [if_pos hfrt, sub32_of_le (by omega) (by omega)]
      refine h.trim hi (by omega) (by omega) (by omega) (fun a => ?_) hsp
      simp only [Has, mem_span]
      omega
    rw [if_neg hfrt] at hok ⊢
    by_cases hbk : (t.regions i).base + (t.regions i).size = base + size
    · rw [if_pos hbk, sub32_of_le (by omega) (by omega)]
      refine h.trim hi (by omega) le_rfl (by omega) (fun a => ?_) hsp
      simp only [Has, mem_span]
      omega
    rw [if_neg hbk] at hok ⊢
    rw [sub32_of_le (a := base) (by omega) (by omega), sub32_of_le (by omega) (by omega)]
      at hok ⊢
    exact h.split hi rfl rfl (by omega) (by omega) hok

/-! ## The search -/

/-- The regions follow each other; they may touch and be empty. -/
structure Sorted (t : MemblockType) : Prop where
  bounded : ∀ i < t.cnt, (t.regions i).base + (t.regions i).size < 2 ^ 32
  ordered : Ordered (fun r s => r.base + r.size ≤ s.base) t.regions t.cnt

theorem Tiled.sorted (h : Tiled t) : Sorted t where
  bounded i hi := (h.valid i hi).2
  ordered i j hij hj := le_of_lt (h.ordered i j hij hj)

/-- The search between two bounds finds a region that has the address, if the regions
outside the bounds do not have it. -/
theorem searchLoop_isSome (h : Sorted t) {addr left right : ℕ} (hlr : left < right)
    (hr : right ≤ t.cnt) (hbl : ∀ i < left, (t.regions i).base + (t.regions i).size ≤ addr)
    (habv : ∀ i, right ≤ i → i < t.cnt → addr < (t.regions i).base) :
    (searchLoop t addr left right).isSome = true ↔ Covers t addr := by
  have hb' {m : ℕ} (hm : m < t.cnt)
      (hle : add32 (t.regions m).base (t.regions m).size ≤ addr) (i : ℕ) (hi : i < m + 1) :
      (t.regions i).base + (t.regions i).size ≤ addr := by
    rw [add32_of_lt (h.bounded m hm)] at hle
    rcases lt_or_eq_of_le (Nat.lt_succ_iff.1 hi) with hlt | rfl
    · have hb : _ ≤ _ := h.ordered i m hlt hm
      omega
    · exact hle
  have habv' {m : ℕ} (hlt : addr < (t.regions m).base) (i : ℕ) (hi : m ≤ i) (hit : i < t.cnt) :
      addr < (t.regions i).base := by
    rcases lt_or_eq_of_le hi with hgt | rfl
    · have hb : _ ≤ _ := h.ordered m i hgt hit
      omega
    · exact hlt
  have hnn (k : ℕ) (hl : ∀ i < k, (t.regions i).base + (t.regions i).size ≤ addr)
      (hhi : ∀ i, k ≤ i → i < t.cnt → addr < (t.regions i).base) : ¬ Covers t addr := by
    rintro ⟨i, hi, ha⟩
    simp only [Has] at ha
    by_cases hik : i < k
    · have := hl i hik
      omega
    have := hhi i (by omega) hi
    omega
  fun_induction searchLoop t addr left right with
  | case1 left right mid rgn hl hgo ih => exact ih hgo (by omega) hbl (habv' hl)
  | case2 left right mid rgn hl hgo =>
    have hno := hnn left hbl fun i hi => habv' hl i (by omega)
    simp [hno]
  | case3 left right mid rgn hl hhi hgo ih => exact ih hgo hr (hb' (by omega) hhi) habv
  | case4 left right mid rgn hl hhi hgo =>
    have hno := hnn right (fun i hi => hb' (by omega) hhi i (by omega)) habv
    simp [hno]
  | case5 left right mid rgn hl hhi =>
    have hmid : mid < t.cnt := by omega
    rw [add32_of_lt (h.bounded mid hmid)] at hhi
    simp only [Option.isSome_some, true_iff]
    exact ⟨mid, hmid, not_lt.1 hl, not_le.1 hhi⟩

theorem Tiled.search (h : Tiled t) (addr : ℕ) :
    (memblockSearch t addr).isSome = true ↔ Covers t addr := by
  refine searchLoop_isSome h.sorted h.pos le_rfl ?_ ?_
  · intro i hi
    omega
  · omega

/-! ## Exact tables -/

/-- The table is sound and covers a set of addresses, for which the search answers. -/
structure Exact (t : MemblockType) (S : Set ℕ) : Prop where
  shape : Dummy t ∨ Tiled t
  covers : ∀ a, Covers t a ↔ a ∈ S
  answers : ∀ a, (memblockSearch t a).isSome = true ↔ a ∈ S

theorem Tiled.exact (h : Tiled t) (hc : ∀ a, Covers t a ↔ a ∈ S) : Exact t S where
  shape := .inr h
  covers := hc
  answers a := (h.search a).trans (hc a)

theorem Dummy.not_covers (h : Dummy t) (a : ℕ) : ¬ Covers t a := by
  rintro ⟨i, hi, ha⟩
  have hi0 : i = 0 := by
    have := h.cnt_eq
    omega
  rw [hi0, h.region] at ha
  exact Nat.not_lt_zero a ha.2

theorem Dummy.search (h : Dummy t) (a : ℕ) : memblockSearch t a = none := by
  rw [memblockSearch, h.cnt_eq, searchLoop]
  simp [h.region, add32]

theorem Dummy.exact (h : Dummy t) : Exact t ∅ where
  shape := .inl h
  covers a := by simp [h.not_covers a]
  answers a := by simp [h.search a]

theorem initTable_exact : Exact (initTable regions) ∅ :=
  Dummy.exact ⟨rfl, rfl, by simp [initTable]⟩

theorem Exact.add (h : Exact t S)
    (hv : Valid ⟨base, size⟩) (hap : ∀ i < t.cnt, Apart (t.regions i) ⟨base, size⟩)
    (hok : (memblockAddRegion t base size).1 ≠ -1) :
    Exact (memblockAddRegion t base size).2 (S ∪ span base size) := by
  cases h.shape with
  | inl hd =>
    have hm : t.max = 128 := hd.max_eq
    rw [memblockAddRegion, if_pos ⟨hd.cnt_eq, by rw [hd.region]⟩]
    have hreg : update t.regions 0 ⟨base, size⟩ 0 = (⟨base, size⟩ : MemblockRegion) :=
      update_self 0 _ _
    refine Tiled.exact ⟨?_, ?_, hd.max_eq, ?_, ?_⟩ ?_
    · simp [hd.cnt_eq]
    · simp [hd.cnt_eq, hm]
    · intro i hi
      simp only [hd.cnt_eq] at hi
      have hi0 : i = 0 := by omega
      rw [hi0]
      simpa using hv
    · intro i j hij hj
      simp only [hd.cnt_eq] at hj
      omega
    intro a
    have hS : a ∉ S := fun ha => hd.not_covers a ((h.covers a).2 ha)
    simp only [Covers, hd.cnt_eq, Nat.lt_one_iff, exists_eq_left, Set.mem_union, hS, false_or]
    rfl
  | inr ht =>
    have had := memblockAddRegion_added ht hv hap hok
    refine had.1.exact ?_
    intro a
    rw [had.2, h.covers, Set.mem_union, or_comm]

/-- Removing a range from an exact table that does not lose its only region. -/
theorem Exact.remove (h : Exact t S) (hin : Inside t base size)
    (hkp : ¬ EmptiesTable t base size) (hok : (memblockRemoveRange t base size).1 ≠ -1) :
    Exact (memblockRemoveRange t base size).2 (S \ span base size) := by
  cases h.shape with
  | inl hd =>
    exfalso
    obtain ⟨i, hi, hba, he⟩ := hin
    have hi0 : i = 0 := by
      have := hd.cnt_eq
      omega
    rw [hi0, hd.region] at hba he
    simp only at hba he
    refine hkp ⟨hd.cnt_eq, ?_⟩
    rw [hd.region]
    congr 1 <;> omega
  | inr ht =>
    have hrem := memblockRemoveRange_removed ht hin hkp hok
    refine hrem.1.exact ?_
    intro a
    rw [hrem.2, h.covers, Set.mem_sdiff]

/-- A table that loses its only region still answers for it. -/
theorem not_exact_of_emptiesTable (h : Tiled t)
    (hps : 0 < size) (he : EmptiesTable t base size) :
    ¬ Exact (memblockRemoveRange t base size).2 (S \ span base size) := by
  have hv := h.valid 0 h.pos
  rw [he.2] at hv
  have hed : add32 base size = base + size := add32_of_lt hv.2
  have hrs : (memblockRemoveRange t base size).2 = { t with
      regions := removeAt t.regions 1 0, cnt := 0 } := by
    have hfi : ((range t.cnt).find? fun i => (t.regions i).base ≤ base ∧
        base + size ≤ add32 (t.regions i).base (t.regions i).size) = some 0 := by
      rw [he.1]
      simp [he.2, hed]
    unfold memblockRemoveRange
    simp only [hed]
    rw [hfi]
    simp only [he.2, hed, and_self, if_true]
    rw [memblockRemoveRegion_eq h.pos h.cnt_lt, he.1]
  intro hex
  have hans := hex.answers base
  rw [hrs, memblockSearch, searchLoop] at hans
  have hst : removeAt t.regions 1 0 0 = ⟨base, size⟩ := by
    rw [← he.2]
    rfl
  simp [hst] at hans
  exact absurd hans.2 (by omega)

/-! ## Runs -/

/-- The calls that change the tables. -/
inductive Request
  | add (base size : ℕ)
  | reserve (base size : ℕ)
  | remove (base size : ℕ)
  | free (base size : ℕ)

namespace Request

/-- Make the call: its value and the tables. -/
def call : Request → Memblock → Option (ℤ × Memblock)
  | .add base size, mb => some (memblockAdd base size mb)
  | .reserve base size, mb => memblockReserve base size mb
  | .remove base size, mb => some (memblockRemove base size mb)
  | .free base size, mb => some (memblockFree base size mb)

/-- An added range is not empty, ends below `2 ^ 32` and is apart from the regions of its
table; a removed range is inside one region of its table. -/
def Permitted : Request → Memblock → Prop
  | .add base size, mb => Valid ⟨base, size⟩ ∧
      ∀ i < mb.memory.cnt, Apart (mb.memory.regions i) ⟨base, size⟩
  | .reserve base size, mb => Valid ⟨base, size⟩ ∧
      ∀ i < mb.reserved.cnt, Apart (mb.reserved.regions i) ⟨base, size⟩
  | .remove base size, mb => Inside mb.memory base size
  | .free base size, mb => Inside mb.reserved base size

/-- The call does not remove the only region of a table. -/
def Keeps : Request → Memblock → Prop
  | .add _ _, _ => True
  | .reserve _ _, _ => True
  | .remove base size, mb => ¬ EmptiesTable mb.memory base size
  | .free base size, mb => ¬ EmptiesTable mb.reserved base size

def NonEmpty : Request → Prop
  | .add _ size | .reserve _ size | .remove _ size | .free _ size => 0 < size

/-- What is memory after the call. -/
def memoryAfter : Request → Set ℕ → Set ℕ
  | .add base size, M => M ∪ span base size
  | .remove base size, M => M \ span base size
  | _, M => M

/-- What is reserved after the call. -/
def reservedAfter : Request → Set ℕ → Set ℕ
  | .reserve base size, R => R ∪ span base size
  | .free base size, R => R \ span base size
  | _, R => R

end Request

def ExactBoth (mb : Memblock) (M R : Set ℕ) : Prop := Exact mb.memory M ∧ Exact mb.reserved R

/-- Runs from `memblock_init` of permitted calls, none of which overflows a table or
removes its only region, with the sets of the addresses added and not removed. -/
inductive Run : Memblock → Set ℕ → Set ℕ → Prop
  | init (memory reserved : ℕ → MemblockRegion) : Run (memblockInit memory reserved) ∅ ∅
  | call {mb mb' : Memblock} {M R : Set ℕ} {v : ℤ} (rq : Request) :
      Run mb M R → rq.Permitted mb → rq.Keeps mb → rq.call mb = some (v, mb') → v ≠ -1 →
        Run mb' (rq.memoryAfter M) (rq.reservedAfter R)

/-- **One call.** -/
theorem ExactBoth.call {mb' : Memblock} {v : ℤ} {rq : Request} (h : ExactBoth mb M R)
    (hp : rq.Permitted mb) (hk : rq.Keeps mb) (hca : rq.call mb = some (v, mb')) (hv : v ≠ -1) :
    ExactBoth mb' (rq.memoryAfter M) (rq.reservedAfter R) := by
  cases rq with
  | add base size =>
    cases hca
    exact ⟨h.1.add hp.1 hp.2 hv, h.2⟩
  | reserve base size =>
    have hps : size ≠ 0 := pos_iff_ne_zero.1 hp.1.1
    rw [Request.call, memblockReserve, if_neg hps] at hca
    cases hca
    exact ⟨h.1, h.2.add hp.1 hp.2 hv⟩
  | remove base size =>
    cases hca
    exact ⟨h.1.remove hp hk hv, h.2⟩
  | free base size =>
    cases hca
    exact ⟨h.1, h.2.remove hp hk hv⟩

theorem Run.exactBoth (h : Run mb M R) : ExactBoth mb M R := by
  induction h with
  | init memory reserved => exact ⟨initTable_exact, initTable_exact⟩
  | call rq _ hp hk hca hv ih => exact ih.call hp hk hca hv

/-- The range of a table that loses a region which is not empty. -/
theorem Exact.not_of_emptiesTable (h : Exact t S)
    (hps : 0 < size) (he : EmptiesTable t base size) :
    ¬ Exact (memblockRemoveRange t base size).2 (S \ span base size) := by
  cases h.shape with
  | inl hd =>
    have hr := he.2
    rw [hd.region] at hr
    simp only [MemblockRegion.mk.injEq] at hr
    omega
  | inr ht => exact not_exact_of_emptiesTable ht hps he

/-- **The early memory map is exact as long as no table is emptied.** In every state that
a run reaches without a call that removes the only region of a table, the regions of both
tables are sorted, not empty and apart, they cover the ranges added minus those removed,
and `memblock_search` answers for these sets. From such a state, a call on a range that is
not empty leaves it so exactly when it does not remove the only region of its table. -/
theorem run_exact_iff {mb : Memblock} {M R : Set ℕ} (h : Run mb M R) :
    ExactBoth mb M R ∧
      (∀ a, memblockIsMemory mb a = true ↔ a ∈ M) ∧
      (∀ a, memblockIsReserved mb a = true ↔ a ∈ R) ∧
      ∀ (rq : Request) (v : ℤ) (mb' : Memblock), rq.Permitted mb → rq.NonEmpty →
        rq.call mb = some (v, mb') → v ≠ -1 →
          (ExactBoth mb' (rq.memoryAfter M) (rq.reservedAfter R) ↔ rq.Keeps mb) := by
  have hexact := h.exactBoth
  refine ⟨hexact, hexact.1.answers, hexact.2.answers, ?_⟩
  intro rq v mb' hp hps hcall hv
  refine ⟨?_, fun hk => hexact.call hp hk hcall hv⟩
  intro hafter
  cases rq with
  | add base size => trivial
  | reserve base size => trivial
  | remove base size =>
    cases hcall
    exact fun hempty => hexact.1.not_of_emptiesTable hps hempty hafter.1
  | free base size =>
    cases hcall
    exact fun hempty => hexact.2.not_of_emptiesTable hps hempty hafter.2

/-- The tables after `memblock_init` on zeroed arrays, as they are in the image. -/
def bootMemblock : Memblock := memblockInit (fun _ => ⟨0, 0⟩) (fun _ => ⟨0, 0⟩)

def bootReserved : Memblock :=
  ((memblockReserve 0x1000 0x1000 bootMemblock).getD (0, bootMemblock)).2

theorem run_exact_iff_reserve :
    Run bootReserved ∅ (∅ ∪ span 0x1000 0x1000) ∧
      ExactBoth bootReserved ∅ (∅ ∪ span 0x1000 0x1000) := by
  have hrun : Run bootReserved ∅ (∅ ∪ span 0x1000 0x1000) := by
    refine Run.call (v := 0) (.reserve 0x1000 0x1000) (.init _ _) ⟨?_, ?_⟩ trivial rfl (by decide)
    · simp [Valid]
    intro i hi
    have hi0 : i = 0 := Nat.lt_one_iff.1 hi
    rw [hi0]
    exact .inl (by simp [memblockInit, initTable])
  exact ⟨hrun, (run_exact_iff hrun).1⟩

/-- The range freed again: the table is empty. -/
def bootFreed : Memblock := (memblockFree 0x1000 0x1000 bootReserved).2

def bootAgain : Memblock := ((memblockReserve 0x3000 0x1000 bootFreed).getD (0, bootFreed)).2

/-- Reserve a range and free it, and reserve another. The calls are permitted and succeed,
but the second range is not written, and the first one is in the table again. -/
theorem reserve_after_free :
    (Request.free 0x1000 0x1000).Permitted bootReserved ∧
      (Request.free 0x1000 0x1000).call bootReserved = some (0, bootFreed) ∧
      (Request.reserve 0x3000 0x1000).Permitted bootFreed ∧
      (Request.reserve 0x3000 0x1000).call bootFreed = some (0, bootAgain) ∧
      Covers bootAgain.reserved 0x1000 ∧ ¬ Covers bootAgain.reserved 0x3000 := by
  refine ⟨⟨0, ?_, ?_, ?_⟩, ?_, ⟨?_, ?_⟩, ?_, ⟨0, ?_, ?_, ?_⟩, ?_⟩
  · decide
  · decide
  · decide
  · rfl
  · simp [Valid]
  · intro i hi
    exact absurd hi (Nat.not_lt_zero i)
  · rfl
  · decide
  · decide
  · decide
  rintro ⟨i, hi, ha⟩
  have hi0 : i = 0 := Nat.lt_one_iff.1 hi
  subst hi0
  exact absurd ha.2 (by decide)

end NestLinux.Mm
