import NestLinux.RadixTree.Map

/-!
# Gang lookup

`__lookup` walks down to one bottom node and takes what it finds there, so one call covers
a range of indices that it chooses itself: from the index it is given up to the index it
stops at, which wraps at `2 ^ 32`. `radix_tree_gang_lookup` goes on from there until it
has enough. What it collects is the values of the map in order (`entries`).

A tree of height 0 is a case apart: its item is returned whatever the number of items
wanted.
-/

namespace NestLinux.RadixTree

open Lib

variable {α : Type*} {index h room first max n : ℕ}

/-- The items found are those of a range that starts at an index, is not longer than a
bound, and whose end is where the search goes on. -/
def Covered (m : ℕ → Option α) (room index bound : ℕ) (r : List α × ℕ) : Prop :=
  ∃ n, index < n ∧ n ≤ 2 ^ 32 ∧ n ≤ bound ∧ r.2 = n % 2 ^ 32 ∧ r.1 = entries m index n ∧
    r.1.length ≤ room

/-- Indices with no item can be put before a range. -/
theorem Covered.skip {m m' : ℕ → Option α} {b b' : ℕ} {r : List α × ℕ} (hc : Covered m' room n b r)
    (hle : index ≤ n) (hn : entries m index n = []) (hb : b ≤ b')
    (hm : ∀ j, n ≤ j → j < b → m j = m' j) : Covered m room index b' r := by
  obtain ⟨k, k1, k2, k3, k4, k5, k6⟩ := hc
  refine ⟨k, by omega, k2, by omega, k4, ?_, k6⟩
  rw [entries_append hle k1.le, hn, k5]
  exact (entries_congr fun j h1 h2 => hm j h1 (by omega)).symm

theorem offset_of_lt_nextBlock {j : ℕ} (h1 : n ≤ j) (h2 : j < nextBlock mapSize h n) :
    offset j h = offset n h := by
  rw [offset, offset, div_eq_of_lt_nextBlock mapSize_pos h1 h2]

/-! ## Bottom nodes -/

/-- A block of an index below `2 ^ 32` ends at `2 ^ 32` or before it. -/
theorem nextBlock_le (hi : index < 2 ^ 32) (hh : h < maxPath) :
    nextBlock mapSize h index ≤ 2 ^ 32 := by
  have hh' : h ≤ 5 := Nat.lt_succ_iff.1 hh
  have hd : mapSize ^ h ∣ 2 ^ 32 := by
    have h64 : mapSize = 2 ^ 6 := by decide
    rw [h64, ← pow_mul]
    exact pow_dvd_pow 2 (by omega)
  have hp : 0 < mapSize ^ h := Nat.pow_pos mapSize_pos
  obtain ⟨c, hc⟩ := hd
  rw [nextBlock_eq]
  have hlt : index / mapSize ^ h < c := by
    rw [Nat.div_lt_iff_lt_mul hp, mul_comm, ← hc]
    exact hi
  rw [hc, mul_comm]
  exact Nat.mul_le_mul_left _ hlt

/-! ## Inner nodes -/

/-- The slots passed over have nothing below them, and the search goes on below the first slot
that is not. -/
theorem covered_skipTo {m : ℕ → Option α} {p : ℕ → Bool} (below : ℕ → ℕ → List α × ℕ)
    (hh : h < maxPath) (hi : index < 2 ^ 32) (hm : ∀ j, p (offset j h) = false → m j = none)
    (hbelow : ∀ n < 2 ^ 32, p (offset n h) = true →
      Covered m room n (nextBlock mapSize (h + 1) n) (below (offset n h) n)) :
    Covered m room index (nextBlock mapSize (h + 1) index)
      (match skipTo (2 ^ 32) mapSize p h (mapSize - offset index h) index with
        | (none, index) => ([], index)
        | (some i, index) => below i index) := by
  have hlt := offset_lt index h
  obtain ⟨n, h1, h2, h3, h4, h5, h6⟩ := skipTo_spec mapSize_pos (fun i hi => nextBlock_le hi hh) p
    hi (show offset index h + (mapSize - offset index h) = mapSize by omega)
  have hn : entries m index n = [] := entries_eq_nil fun j hj1 hj2 => hm j (h4 j hj1 hj2)
  rcases hsk : skipTo (2 ^ 32) mapSize p h (mapSize - offset index h) index with ⟨found, index'⟩
  rw [hsk] at h5 h6
  simp only at h5 h6
  cases h6 with
  | inl he =>
    rw [he.1]
    exact ⟨n, he.2, h2, h3, h5, hn.symm, Nat.zero_le _⟩
  | inr hsl =>
    rw [hsl.1, h5, Nat.mod_eq_of_lt hsl.2.2.1]
    exact (hbelow n hsl.2.2.1 hsl.2.1).skip h1 hn (nextBlock_congr hsl.2.2.2).le fun _ _ _ => rfl

/-- The search below a slot, seen from the node. -/
theorem Covered.up {m m' : ℕ → Option α} {r : List α × ℕ}
    (hc : Covered m' room n (nextBlock mapSize h n) r)
    (hm : ∀ j, offset j h = offset n h → m j = m' j) :
    Covered m room n (nextBlock mapSize (h + 1) n) r :=
  hc.skip le_rfl entries_self (nextBlock_le_succ mapSize_pos h n)
    fun _ h1 h2 => hm _ (offset_of_lt_nextBlock h1 h2)

/-- **One call of `__lookup`** covers a range of the indices of a tree. -/
theorem lookupNode_covered (hrm : 0 < room) (hh : h < maxPath) {s : Slot α} (hi : index < 2 ^ 32) :
    Covered (fun j => lookupWalk j (h + 1) s) room index (nextBlock mapSize (h + 1) index)
      (lookupNode room (h + 1) s index) := by
  induction h generalizing s index with
  | zero => exact takeFrom_covered mapSize_pos hi (nextBlock_le hi (by decide)) _ hrm
  | succ h ih =>
    refine covered_skipTo (fun i => lookupNode room (h + 1) (s.child i)) hh hi ?_ fun n hn _ => ?_
    · intro j hp
      rw [Bool.not_eq_false', isNull_iff] at hp
      rw [lookupWalk, hp, lookupWalk_null]
    · refine (ih (by omega) hn).up fun j hj => ?_
      rw [lookupWalk, hj]

/-! ## The loop -/

/-- The block of an index in a tree is the whole tree. -/
theorem nextBlock_of_lt {i : ℕ} (hi : i < mapSize ^ h) : nextBlock mapSize h i = mapSize ^ h := by
  rw [nextBlock_eq, Nat.div_eq_of_lt hi, Nat.one_mul]

/-- **The loop of a gang lookup**, from what one search of the tree covers. -/
theorem collect_of_covered {m w : ℕ → Option α} {search : ℕ → ℕ → List α × ℕ}
    (hm : ∀ j < 2 ^ 32, m j = if j < mapSize ^ (h + 1) then w j else none)
    (hsea : ∀ room index, 0 < room → index < 2 ^ 32 →
      Covered w room index (nextBlock mapSize (h + 1) index) (search room index))
    (hf : first < 2 ^ 32) (hn : 2 ^ 32 < n) :
    collect search (radixTreeMaxindex (h + 1)) max n [] first =
      some ((entries m first (2 ^ 32)).take max) := by
  refine collect_eq ?_ ?_ (le_refl first) hf (by simp) (Nat.zero_le _) (by omega)
  · intro j h1 h2
    rw [maxindex_lt_iff h2] at h1
    rw [hm j h2, if_neg (by omega)]
  intro room cur hrm hcur hle
  rw [← not_lt, maxindex_lt_iff hcur, not_le] at hle
  obtain ⟨k, k1, k2, k3, k4, k5, k6⟩ := hsea room cur hrm hcur
  rw [nextBlock_of_lt hle] at k3
  refine ⟨k, k1, k2, k4, ?_, k6⟩
  rw [k5]
  refine entries_congr ?_
  intro j _ hj
  rw [hm j (by omega), if_pos (by omega)]

/-- What a gang lookup is meant to return. -/
def firstItems (m : ℕ → Option α) (first max : ℕ) : List α := (entries m first (2 ^ 32)).take max

theorem SoundRoot.height_item {root : Root α} (hr : SoundRoot root) {a : α}
    (hnode : root.rnode = .item a) : root.height = 0 := by
  have hsd := hr.sound
  cases hht : root.height with
  | zero => rfl
  | succ h =>
    rw [hht, hnode] at hsd
    obtain ⟨_, _, _, heq, -⟩ := hsd.node rfl
    cases heq

/-- A root that is a node has the height of the node. -/
theorem SoundRoot.height_node {root : Root α} (hr : SoundRoot root) {height count : ℕ}
    {tags : Tag → ℕ → Bool} {slots : ℕ → Slot α}
    (hnode : root.rnode = .node height count tags slots) :
    ∃ h < maxPath, root.height = h + 1 ∧ height = h + 1 := by
  have hs := hr.sound
  have hle := hr.height_le
  cases hht : root.height with
  | zero =>
    rw [hht, hnode] at hs
    cases hs with
    | inl hnl => cases hnl
    | inr hit => cases hit.choose_spec
  | succ h =>
    rw [hht, hnode] at hs
    obtain ⟨_, _, _, heq, -⟩ := hs.node rfl
    cases heq
    exact ⟨h, by omega, rfl, rfl⟩

/-- What is returned for a map with one value, at 0, is right where something is wanted. -/
theorem direct_eq_firstItems_iff {m : ℕ → Option α} {a : α}
    (hm : ∀ j, m j = if j < 1 then some a else none) :
    (if 0 < first then [] else [a]) = firstItems m first max ↔ ¬ (first = 0 ∧ max = 0) := by
  have hrs {lo : ℕ} (hlo : 1 ≤ lo) : entries m lo (2 ^ 32) = [] := by
    refine entries_eq_nil ?_
    intro j hj _
    rw [hm, if_neg (by omega)]
  by_cases hz : 0 < first
  · rw [if_pos hz, firstItems, hrs hz, List.take_nil]
    simp only [true_iff]
    omega
  have hzr : first = 0 := by omega
  subst hzr
  rw [firstItems, entries_cons (by decide), hrs (le_refl 1), hm]
  cases max <;> simp

/-- **Gang lookup.** It comes to an end, and returns the first items of the map from an
index on. Only a tree that is an item returns it where none is wanted. -/
theorem SoundRoot.gangLookup {root : Root α} (hr : SoundRoot root)
    (hf : first < 2 ^ 32) (hn : 2 ^ 32 < n) : radixTreeGangLookup n root first max = some (
      match root.rnode with
      | .item a => if 0 < first then [] else [a]
      | _ => firstItems (rootMap root) first max) := by
  unfold radixTreeGangLookup firstItems
  cases hnode : root.rnode with
  | null =>
    have hnl : entries (rootMap root) first (2 ^ 32) = [] := by
      refine entries_eq_nil ?_
      simp [rootMap, hnode]
    rw [hnl, List.take_nil]
  | item a =>
    split_ifs <;> rfl
  | node height count tags slots =>
    obtain ⟨h, hh, hht, rfl⟩ := hr.height_node hnode
    refine collect_of_covered ?_ (fun _ _ h1 h2 => lookupNode_covered h1 hh h2) hf hn
    intro j _
    rw [rootMap, hht, hnode]

end NestLinux.RadixTree
