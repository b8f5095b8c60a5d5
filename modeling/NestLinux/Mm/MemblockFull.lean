import NestLinux.Mm.MemblockRun

/-!
# Adding a range to a full table

A table that gets full and may not be resized is meant to be left as it was: the insertion
is undone by counting one region less. But the regions have been moved up by then, so that
only an insertion behind the last region is undone; any other one puts the new region into
the table and drops the last one from it.
-/

namespace NestLinux.Mm

open Lib MemblockRegion

variable {t : MemblockType} {base size : ℕ}

/-- The tables hold the same regions in the same order. -/
def SameRegions (t t' : MemblockType) : Prop :=
  t'.cnt = t.cnt ∧ ∀ i < t.cnt, t'.regions i = t.regions i

theorem memblockAddRegion_failed (h : (memblockAddRegion t base size).1 = -1) :
    (t.max ≤ t.cnt ∧ (memblockAddRegion t base size).2 = t) ∨
      (t.cnt < t.max ∧ add32 t.cnt 1 = t.max ∧ (memblockAddRegion t base size).2 =
        { insertRegion t base size with cnt := sub32 (add32 t.cnt 1) 1 }) := by
  revert h
  unfold memblockAddRegion
  by_cases he : t.cnt = 1 ∧ (t.regions 0).size = 0
  · simp [he]
  cases hfnd : firstAdjacent t base size with
  | some i =>
    simp only [Option.isSome_some, if_true, ne_eq, one_ne_zero, not_false_eq_true]
    split_ifs <;> simp
  | none =>
    simp only [Option.isSome_none, Bool.false_eq_true, if_false]
    split_ifs with hsm hnx hgrn hfu hc
    · simp
    · simp
    · exact absurd rfl hgrn
    · exact fun _ => Or.inl ⟨hfu, rfl⟩
    · exact fun _ => Or.inr ⟨Nat.not_le.1 hfu, hc, rfl⟩
    · simp

/-- The loop that makes room does not write the first slot. -/
theorem moveUp_zero (rgn : MemblockRegion) (n : ℕ) (regions : ℕ → MemblockRegion) :
    moveUp rgn n regions 0 = regions 0 := by
  rw [moveUp_apply]
  by_cases hs : 0 < slotOf regions rgn.base n
  · rw [if_pos (Or.inl hs)]
  · rw [if_neg (by omega), if_pos (by omega), if_pos rfl]

/-- **Undoing an insertion.** The regions counted before it are in their places exactly if
the new one went behind them. -/
theorem insertRegion_same_iff (hps : 0 < t.cnt) :
    (∀ i < t.cnt, (insertRegion t base size).regions i = t.regions i) ↔
      (t.regions (t.cnt - 1)).base ≤ base ∧ (t.regions 0).base ≤ base := by
  have hmv := moveUp_apply ⟨base, size⟩ t.cnt t.regions
  simp only [insertRegion, moveUp_zero]
  constructor
  · intro hsm
    have hf : (t.regions 0).base ≤ base := by
      by_contra hlt
      have h0 := hsm 0 hps
      rw [if_pos (by omega)] at h0
      rw [← h0] at hlt
      exact hlt (le_refl _)
    refine ⟨?_, hf⟩
    by_contra hlt
    -- the new region stands before the last one, in the place of one with a larger base
    have hsl : slotOf t.regions base t.cnt < t.cnt := by
      obtain ⟨n, hn⟩ : ∃ n, t.cnt = n + 1 := ⟨t.cnt - 1, by omega⟩
      rw [hn] at hlt ⊢
      rw [slotOf, if_pos (by simpa using hlt)]
      exact Nat.lt_succ_of_le (slotOf_le _ _ n)
    have hba := lt_base_of_slotOf_le (le_refl (slotOf t.regions base t.cnt)) hsl
    have hne : slotOf t.regions base t.cnt ≠ 0 := by
      intro h0
      rw [h0] at hba
      omega
    have hp := hsm _ hsl
    rw [if_neg (by omega), hmv, if_neg (by simp only; omega), if_pos rfl, if_neg hne] at hp
    rw [← hp] at hba
    exact Nat.lt_irrefl _ hba
  · intro hbs i hi
    have hsl : slotOf t.regions base t.cnt = t.cnt := by
      obtain ⟨n, hn⟩ : ∃ n, t.cnt = n + 1 := ⟨t.cnt - 1, by omega⟩
      rw [hn] at hbs ⊢
      rw [slotOf, if_neg (by simpa using hbs.1)]
    rw [if_neg (by omega), hmv, hsl, if_pos (Or.inl hi)]

/-- **A failed insertion.** It leaves the regions of the table as they were exactly if the
table was full before, or if the new region belongs behind all of them. -/
theorem memblockAddRegion_failed_same_iff (t : MemblockType) (base size : ℕ) (hpos : 0 < t.cnt)
    (hmax : t.max < 2 ^ 32) (h : (memblockAddRegion t base size).1 = -1) :
    SameRegions t (memblockAddRegion t base size).2 ↔
      t.max ≤ t.cnt ∨ (t.regions (t.cnt - 1)).base ≤ base ∧ (t.regions 0).base ≤ base := by
  rcases memblockAddRegion_failed h with ⟨hfull, heq⟩ | ⟨hroom, hcnt, heq⟩
  · rw [heq]
    exact iff_of_true ⟨rfl, fun i _ => rfl⟩ (Or.inl hfull)
  have hundo : sub32 (add32 t.cnt 1) 1 = t.cnt := by
    rw [add32_of_lt (by omega), sub32_of_le (by omega) (by omega), Nat.add_sub_cancel]
  have hnot : ¬ t.max ≤ t.cnt := Nat.not_le.2 hroom
  rw [heq, hundo, SameRegions, insertRegion_same_iff hpos]
  simp [hnot]

/-- A table of 127 regions of a page each, 16 pages apart from each other. -/
def crowdedTable : MemblockType where
  cnt := 127
  max := initMemblockRegions
  regions i := ⟨0x10000 * (i + 1), 0x1000⟩

theorem memblockAddRegion_failed_behind :
    (memblockAddRegion crowdedTable 0x900000 0x1000).1 = -1 ∧
      SameRegions crowdedTable (memblockAddRegion crowdedTable 0x900000 0x1000).2 := by
  have h : (memblockAddRegion crowdedTable 0x900000 0x1000).1 = -1 := by decide +kernel
  exact ⟨h, (memblockAddRegion_failed_same_iff _ _ _ (by decide) (by decide) h).2
    (Or.inr (by decide))⟩

/-- A range below all regions stands in the first slot after the call has failed. -/
theorem memblockAddRegion_failed_first :
    (∀ i < crowdedTable.cnt, Apart (crowdedTable.regions i) ⟨0x1000, 0x1000⟩) ∧
      (memblockAddRegion crowdedTable 0x1000 0x1000).1 = -1 ∧
      (memblockAddRegion crowdedTable 0x1000 0x1000).2.regions 0 = ⟨0x1000, 0x1000⟩ ∧
      ¬ SameRegions crowdedTable (memblockAddRegion crowdedTable 0x1000 0x1000).2 := by
  have hfirst : (memblockAddRegion crowdedTable 0x1000 0x1000).2.regions 0 = ⟨0x1000, 0x1000⟩ := by
    decide +kernel
  refine ⟨?_, by decide +kernel, hfirst, ?_⟩
  · intro i _
    simp only [crowdedTable, MemblockRegion.Apart]
    omega
  intro h
  have h0 := h.2 0 (by decide)
  rw [hfirst] at h0
  cases h0

end NestLinux.Mm
