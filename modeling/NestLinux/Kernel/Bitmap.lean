import NestLinux.Lib.Align
import NestLinux.Lib.BitScan

/-!
# Bitmaps

A model of parts of `lib/bitmap.c`. A search for an area of clear bits goes from a clear bit to
the next aligned one, and on from behind the last set bit that it finds in the way.
-/

namespace NestLinux.Bitmap

open Lib

/-- The loop of `bitmap_find_next_zero_area`, for less than `fuel` turns. -/
def findArea (map : ℕ → Bool) (size nr alignMask : ℕ) : ℕ → ℕ → Option ℕ
  | 0, _ => none
  | fuel + 1, start =>
    let index := alignUp32 (nextZero map size start) (alignMask + 1)
    let last := add32 index nr
    if size < last then some last
    else
      let i := nextZero (fun j => !map j) last index
      if i < last then findArea map size nr alignMask fuel (i + 1) else some index

def bitmapFindNextZeroArea (map : ℕ → Bool) (size start nr alignMask : ℕ) : Option ℕ :=
  findArea map size nr alignMask (size + 1) start

/-- An aligned area of clear bits. -/
structure Area (map : ℕ → Bool) (size nr a start index : ℕ) : Prop where
  start_le : start ≤ index
  aligned : a ∣ index
  inside : index + nr ≤ size
  clear : ∀ j, index ≤ j → j < index + nr → map j = false

variable {map : ℕ → Bool} {size nr a k start index i fuel : ℕ}

/-- The first aligned index from a clear bit on: no area starts before it. -/
theorem alignUp32_nextZero (hnr : 0 < nr) (hk : k < 32) (hword : size + (2 ^ k - 1) < 2 ^ 32)
    (hst : start ≤ size) {z : ℕ} (hz : alignUp32 (nextZero map size start) (2 ^ k) = z) :
    start ≤ z ∧ 2 ^ k ∣ z ∧ z ≤ size + (2 ^ k - 1) ∧
      ∀ j, Area map size nr (2 ^ k) start j → z ≤ j := by
  have hp := Nat.two_pow_pos k
  have hcases := nextZero_cases map size start
  have hd : 2 ^ k ∣ z := hz ▸ dvd_alignUp32 hk
  rw [alignUp32_of_lt hk (by omega)] at hz
  have hge := (alignUp_le_iff hd hp).1 hz.le
  have hle := Nat.div_mul_le_self (nextZero map size start + (2 ^ k - 1)) (2 ^ k)
  refine ⟨by omega, hd, by omega, fun j hj => ?_⟩
  rw [← hz, alignUp_le_iff hj.aligned hp]
  by_contra hlt
  have hse := getBit_of_lt_nextZero hj.start_le (Nat.lt_of_not_le hlt) (by omega)
  simp [hj.clear j le_rfl (by omega)] at hse

/-- What is to be returned: the first area, or a value beyond the bitmap if there is none. -/
def IsFirst (map : ℕ → Bool) (size nr a start r : ℕ) : Prop :=
  (∀ j, Area map size nr a start j → Area map size nr a start r ∧ r ≤ j) ∧
    ((∀ j, ¬ Area map size nr a start j) → size < r)

/-- No area is over a set bit, so the search goes on behind it. -/
theorem IsFirst.of_succ {r : ℕ} (h : IsFirst map size nr a (i + 1) r) (hi : map i = true)
    (hle : start ≤ i) (hf : ∀ j, Area map size nr a start j → i < j + nr) :
    IsFirst map size nr a start r := by
  have hsk (j : ℕ) (hj : Area map size nr a start j) : Area map size nr a (i + 1) j := by
    refine ⟨?_, hj.aligned, hj.inside, hj.clear⟩
    by_contra hlt
    simp [hj.clear i (by omega) (hf j hj)] at hi
  have hbk {j : ℕ} (hj : Area map size nr a (i + 1) j) : Area map size nr a start j :=
    ⟨by have := hj.start_le; omega, hj.aligned, hj.inside, hj.clear⟩
  refine ⟨fun j hj => ?_, fun hno => h.2 fun j hj => hno j (hbk hj)⟩
  obtain ⟨hr, hle⟩ := h.1 j (hsk j hj)
  exact ⟨hbk hr, hle⟩

theorem findArea_spec (hnr : 0 < nr) (hk : k < 32) (hword : size + nr + (2 ^ k - 1) < 2 ^ 32)
    (hstart : start ≤ size) (hfuel : size - start < fuel) :
    ∃ r, findArea map size nr (2 ^ k - 1) fuel start = some r ∧
      IsFirst map size nr (2 ^ k) start r := by
  induction fuel generalizing start with
  | zero => omega
  | succ fuel ih =>
    rw [findArea, Nat.sub_add_cancel (Nat.two_pow_pos k)]
    generalize hz : alignUp32 (nextZero map size start) (2 ^ k) = z
    obtain ⟨hge, hd, hle, hf⟩ := alignUp32_nextZero hnr hk (by omega) hstart hz
    dsimp only
    rw [add32_of_lt (by omega)]
    split
    · rename_i hlt
      exact ⟨_, rfl, fun j hj => absurd (hf j hj) (by have := hj.inside; omega), fun _ => hlt⟩
    have hcases := nextZero_cases (fun j => !map j) (z + nr) z
    split
    · rename_i hlt
      obtain ⟨-, hi, hset⟩ := hcases.resolve_left hlt.ne
      obtain ⟨r, hrun, hr⟩ :=
        ih (show nextZero (fun j => !map j) (z + nr) z + 1 ≤ size by omega) (by omega)
      refine ⟨r, hrun, hr.of_succ (by simpa using hset) (by omega) fun j hj => ?_⟩
      have := hf j hj
      omega
    · have harea : Area map size nr (2 ^ k) start z := by
        refine ⟨hge, hd, by omega, fun j hj hlt => ?_⟩
        have he : j < nextZero (fun j => !map j) (z + nr) z := by omega
        simpa using getBit_of_lt_nextZero hj he hlt
      exact ⟨z, rfl, fun j hj => ⟨harea, hf j hj⟩, fun hno => absurd harea (hno z)⟩

/-- **`bitmap_find_next_zero_area` finds the first aligned area of clear bits.** -/
theorem bitmapFindNextZeroArea_first (map : ℕ → Bool) (hstart : start ≤ size) (hnr : 0 < nr)
    (hword : size + nr + (2 ^ k - 1) < 2 ^ 32) :
    ∃ r, bitmapFindNextZeroArea map size start nr (2 ^ k - 1) = some r ∧
      IsFirst map size nr (2 ^ k) start r := by
  have hk : k < 32 := (Nat.pow_lt_pow_iff_right (by decide)).1 (show 2 ^ k < 2 ^ 32 by omega)
  exact findArea_spec hnr hk hword hstart (by omega)

theorem bitmapFindNextZeroArea_first_aligned :
    ∃ r, bitmapFindNextZeroArea (fun i => i == 4) 16 1 3 (2 ^ 2 - 1) = some r ∧
      IsFirst (fun i => i == 4) 16 3 (2 ^ 2) 1 r :=
  bitmapFindNextZeroArea_first _ (by decide) (by decide) (by decide)

end NestLinux.Bitmap
