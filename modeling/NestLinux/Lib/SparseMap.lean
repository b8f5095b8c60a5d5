import Mathlib.Data.List.Basic

/-!
# Entries of a sparse map in order

A map from numbers to values that is empty almost everywhere is read in order, some
entries at a time. `entries m lo hi` lists the values of the numbers from `lo` below `hi`;
a scan that stops and goes on later appends what it finds.
-/

namespace NestLinux.Lib

open List

variable {α : Type*} {m m' : ℕ → Option α} {lo mid hi : ℕ}

/-- The values of the map from `lo` below `hi`, in order. -/
def entries (m : ℕ → Option α) (lo hi : ℕ) : List α := (range' lo (hi - lo)).filterMap m

@[simp] theorem entries_self : entries m lo lo = [] := by
  simp [entries]

theorem entries_append (h1 : lo ≤ mid) (h2 : mid ≤ hi) :
    entries m lo hi = entries m lo mid ++ entries m mid hi := by
  have hl : hi - lo = (mid - lo) + (hi - mid) := by omega
  have hmid : lo + (mid - lo) = mid := by omega
  rw [entries, entries, entries, ← filterMap_append, hl, ← range'_append_1, hmid]

theorem entries_eq_nil (h : ∀ j, lo ≤ j → j < hi → m j = none) : entries m lo hi = [] := by
  rw [entries, filterMap_eq_nil_iff]
  intro j hj
  rw [mem_range'_1] at hj
  exact h j hj.1 (by omega)

theorem entries_congr (h : ∀ j, lo ≤ j → j < hi → m j = m' j) :
    entries m lo hi = entries m' lo hi := by
  refine filterMap_congr ?_
  intro j hj
  rw [mem_range'_1] at hj
  exact h j hj.1 (by omega)

theorem entries_cons (h : lo < hi) : entries m lo hi = (m lo).toList ++ entries m (lo + 1) hi := by
  rw [entries_append (Nat.le_succ lo) h]
  cases hm : m lo <;> simp [entries, hm]

theorem mem_entries {a : α} : a ∈ entries m lo hi ↔ ∃ j, lo ≤ j ∧ j < hi ∧ m j = some a := by
  rw [entries, mem_filterMap]
  refine exists_congr fun j => ?_
  rw [mem_range'_1]
  constructor
  · intro hj
    exact ⟨hj.1.1, by omega, hj.2⟩
  intro hj
  exact ⟨⟨hj.1, by omega⟩, hj.2.2⟩

/-- What is found up to some number is the first part of what is there. -/
theorem take_entries {n : ℕ} (h1 : lo ≤ mid) (h2 : mid ≤ hi) (hl : (entries m lo mid).length = n ∨
      (entries m lo mid).length ≤ n ∧ entries m mid hi = []) :
    (entries m lo hi).take n = entries m lo mid := by
  rw [entries_append h1 h2]
  cases hl with
  | inl heq => exact take_left' heq
  | inr hle => rw [hle.2, append_nil, take_of_length_le hle.1]

end NestLinux.Lib
