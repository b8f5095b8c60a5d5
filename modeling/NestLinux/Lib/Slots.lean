import Mathlib.Algebra.BigOperators.Group.Finset.Piecewise
import NestLinux.Lib.Loops

/-!
# Tables in an array

A table is the first `n` slots of an array that goes on behind them; what stands there is
stale, and a program that reads it reads something. So the array is a function and `n` is
apart from it. The programs move slots up to make room and down to close a gap, one copy
at a time; `insertAt` and `removeAt` say what such a loop leaves.
-/

namespace NestLinux.Lib

open Function Finset

variable {α : Type*}

/-- The first `n` slots with a value put before slot `p`. -/
def insertAt (f : ℕ → α) (n p : ℕ) (v : α) : ℕ → α := fun j =>
  if j < p then f j else if j = p then v else if j ≤ n then f (j - 1) else f j

/-- The first `n` slots without slot `r`. -/
def removeAt (f : ℕ → α) (n r : ℕ) : ℕ → α := fun j =>
  if r ≤ j ∧ j + 1 < n then f (j + 1) else f j

/-- Every slot of the first `n` is related to those after it. -/
def Ordered (R : α → α → Prop) (f : ℕ → α) (n : ℕ) : Prop := ∀ i j, i < j → j < n → R (f i) (f j)

section Slots

variable {R : α → α → Prop} {P : α → Prop} {f : ℕ → α} {n p r : ℕ} {v : α}

theorem insertAt_self : insertAt f n p v p = v := by
  simp [insertAt]

theorem insertAt_of_lt {j : ℕ} (h : j < p) : insertAt f n p v j = f j := by
  simp [insertAt, h]

theorem insertAt_succ {j : ℕ} (hp : p ≤ j) (hj : j < n) :
    insertAt f n p v (j + 1) = f j := by
  have h1 : ¬ j + 1 < p := by omega
  have h2 : ¬ j + 1 = p := by omega
  simp [insertAt, h1, h2, Nat.succ_le_of_lt hj]

theorem removeAt_of_lt {j : ℕ} (h : j < r) : removeAt f n r j = f j := by
  have h' : ¬ (r ≤ j ∧ j + 1 < n) := by omega
  simp [removeAt, h']

theorem removeAt_of_le {j : ℕ} (h : r ≤ j) (hj : j + 1 < n) :
    removeAt f n r j = f (j + 1) := by
  simp [removeAt, h, hj]

theorem removeAt_update {i : ℕ} (h : i < r) :
    removeAt (update f i v) n r = update (removeAt f n r) i v := by
  funext j
  by_cases hji : j = i
  · subst hji
    rw [update_self, removeAt_of_lt h, update_self]
  rw [update_of_ne hji]
  unfold removeAt
  by_cases hj : r ≤ j ∧ j + 1 < n
  · rw [if_pos hj, if_pos hj, update_of_ne (by omega)]
  · rw [if_neg hj, if_neg hj, update_of_ne hji]

/-- A slot of the longer table is the new one or an old one. -/
theorem exists_insertAt (hp : p ≤ n) :
    (∃ i < n + 1, P (insertAt f n p v i)) ↔ P v ∨ ∃ i < n, P (f i) := by
  constructor
  · rintro ⟨i, hi, h⟩
    rcases Nat.lt_trichotomy i p with hlt | heq | hgt
    · rw [insertAt_of_lt hlt] at h
      exact .inr ⟨i, by omega, h⟩
    · rw [heq, insertAt_self] at h
      exact .inl h
    cases i with
    | zero => omega
    | succ i =>
      rw [insertAt_succ (by omega) (by omega)] at h
      exact .inr ⟨i, by omega, h⟩
  · rintro (h | ⟨i, hi, h⟩)
    · exact ⟨p, by omega, by rwa [insertAt_self]⟩
    by_cases hip : i < p
    · exact ⟨i, by omega, by rwa [insertAt_of_lt hip]⟩
    · exact ⟨i + 1, by omega, by rwa [insertAt_succ (by omega) hi]⟩

/-- A slot of the longer table is the removed one or one that is left. -/
theorem exists_removeAt (hr : r < n) :
    (∃ i < n, P (f i)) ↔ P (f r) ∨ ∃ i < n - 1, P (removeAt f n r i) := by
  constructor
  · rintro ⟨i, hi, h⟩
    rcases Nat.lt_trichotomy i r with hlt | heq | hgt
    · exact .inr ⟨i, by omega, by rwa [removeAt_of_lt hlt]⟩
    · exact .inl (heq ▸ h)
    cases i with
    | zero => omega
    | succ i => exact .inr ⟨i, by omega, by rwa [removeAt_of_le (by omega) hi]⟩
  rintro (h | ⟨i, hi, h⟩)
  · exact ⟨r, hr, h⟩
  by_cases hir : i < r
  · rw [removeAt_of_lt hir] at h
    exact ⟨i, by omega, h⟩
  rw [removeAt_of_le (by omega) (by omega)] at h
  exact ⟨i + 1, by omega, h⟩

/-- A slot of a table with one slot written is the new one or another. -/
theorem exists_update (hr : r < n) :
    (∃ i < n, P (update f r v i)) ↔ P v ∨ ∃ i < n, i ≠ r ∧ P (f i) := by
  constructor
  · rintro ⟨i, hi, h⟩
    by_cases hir : i = r
    · subst hir
      rw [update_self] at h
      exact .inl h
    · rw [update_of_ne hir] at h
      exact .inr ⟨i, hi, hir, h⟩
  · rintro (h | ⟨i, hi, hir, h⟩)
    · exact ⟨r, hr, by rwa [update_self]⟩
    · exact ⟨i, hi, by rwa [update_of_ne hir]⟩

theorem forall_insertAt (hp : p ≤ n) (hv : P v) (h : ∀ i < n, P (f i)) :
    ∀ i < n + 1, P (insertAt f n p v i) := by
  by_contra hc
  simp only [not_forall] at hc
  obtain ⟨i, hi, hn⟩ := hc
  rcases (exists_insertAt (P := fun x => ¬ P x) hp).1 ⟨i, hi, hn⟩ with hv' | ⟨j, hj, hj'⟩
  · exact hv' hv
  · exact hj' (h j hj)

theorem forall_removeAt (hr : r < n) (h : ∀ i < n, P (f i)) :
    ∀ i < n - 1, P (removeAt f n r i) := by
  intro i hi
  by_cases hir : i < r
  · rw [removeAt_of_lt hir]
    exact h i (by omega)
  rw [removeAt_of_le (by omega) (by omega)]
  exact h _ (by omega)

theorem forall_update (hv : P v) (h : ∀ i < n, P (f i)) : ∀ i < n, P (update f r v i) := by
  intro i hi
  by_cases hir : i = r
  · subst hir
    rwa [update_self]
  rw [update_of_ne hir]
  exact h i hi

theorem Ordered.insertAt (h : Ordered R f n) (hp : p ≤ n) (hl : ∀ i < p, R (f i) v)
    (hhi : ∀ i, p ≤ i → i < n → R v (f i)) : Ordered R (insertAt f n p v) (n + 1) := by
  intro i j hij hj
  rcases Nat.lt_trichotomy j p with hlt | heq | hgt
  · rw [insertAt_of_lt hlt, insertAt_of_lt (by omega)]
    exact h i j hij (by omega)
  · subst heq
    rw [insertAt_self, insertAt_of_lt hij]
    exact hl i hij
  cases j with
  | zero => omega
  | succ j =>
    rw [insertAt_succ (by omega) (by omega)]
    rcases Nat.lt_trichotomy i p with hlt | heq | hgt'
    · rw [insertAt_of_lt hlt]
      exact h i j (by omega) (by omega)
    · rw [heq, insertAt_self]
      exact hhi j (by omega) (by omega)
    cases i with
    | zero => omega
    | succ i =>
      rw [insertAt_succ (by omega) (by omega)]
      exact h i j (by omega) (by omega)

theorem Ordered.removeAt (h : Ordered R f n) : Ordered R (removeAt f n r) (n - 1) := by
  intro i j hij hj
  by_cases hj' : j < r
  · rw [removeAt_of_lt hj', removeAt_of_lt (by omega)]
    exact h i j hij (by omega)
  rw [removeAt_of_le (j := j) (by omega) (by omega)]
  by_cases hi : i < r
  · rw [removeAt_of_lt hi]
    exact h i (j + 1) (by omega) (by omega)
  rw [removeAt_of_le (j := i) (by omega) (by omega)]
  exact h (i + 1) (j + 1) (by omega) (by omega)

theorem Ordered.update (h : Ordered R f n) (hl : ∀ i < r, R (f i) v)
    (hhi : ∀ i, r < i → i < n → R v (f i)) : Ordered R (update f r v) n := by
  intro i j hij hj
  by_cases hir : i = r
  · subst hir
    rw [update_self, update_of_ne (by omega)]
    exact hhi j hij hj
  rw [update_of_ne hir]
  by_cases hjr : j = r
  · subst hjr
    rw [update_self]
    exact hl i hij
  · rw [update_of_ne hjr]
    exact h i j hij hj

end Slots

/-! ## Counting -/

variable (P : α → Prop)

/-- How many of the first `n` slots satisfy `P`. -/
def used [DecidablePred P] (f : ℕ → α) (n : ℕ) : ℕ :=
  ((range n).filter fun i => P (f i)).card

theorem used_update [DecidablePred P] {f : ℕ → α} {n r : ℕ} (hr : r < n) (v : α) :
    used P (update f r v) n + (if P (f r) then 1 else 0) = used P f n + if P v then 1 else 0 := by
  have hm : r ∈ range n := mem_range.2 hr
  simp only [used, card_filter]
  rw [← add_sum_erase _ _ hm, ← add_sum_erase (range n) (fun i =>
    if P (f i) then 1 else 0) hm, update_self]
  have hrs : ∑ i ∈ (range n).erase r, (if P (update f r v i) then 1 else 0) =
      ∑ i ∈ (range n).erase r, if P (f i) then 1 else 0 := by
    refine sum_congr rfl ?_
    intro i hi
    rw [update_of_ne (ne_of_mem_erase hi)]
  omega

theorem used_eq_zero_iff [DecidablePred P] (f : ℕ → α) (n : ℕ) :
    used P f n = 0 ↔ ∀ i < n, ¬ P (f i) := by
  simp [used]

theorem used_eq_iff [DecidablePred P] (f : ℕ → α) (n : ℕ) : used P f n = n ↔ ∀ i < n, P (f i) := by
  have h := card_filter_eq_iff (s := range n) (p := fun i => P (f i))
  simpa [used] using h

theorem eq_of_used_eq_one [DecidablePred P] {f : ℕ → α} {n i j : ℕ}
    (h : used P f n = 1) (hi : i < n) (hj : j < n) (hPi : P (f i)) (hPj : P (f j)) : i = j := by
  have ho := card_eq_one.1 h
  obtain ⟨a, ha⟩ := ho
  have hi' : i ∈ ({a} : Finset ℕ) := ha ▸ mem_filter.2 ⟨mem_range.2 hi, hPi⟩
  have hj' : j ∈ ({a} : Finset ℕ) := ha ▸ mem_filter.2 ⟨mem_range.2 hj, hPj⟩
  rw [mem_singleton.1 hi', mem_singleton.1 hj']

/-! ## Closing a gap -/

/-- `for (i = r; i < r + k; i++) f[i] = f[i + 1]`. -/
def moveDown (r k : ℕ) (f : ℕ → α) : ℕ → α :=
  forRange k (fun i g => update g (r + i) (g (r + i + 1))) f

/-- The loop reads every slot before it writes it. -/
theorem moveDown_eq (r k : ℕ) (f : ℕ → α) : moveDown r k f = removeAt f (r + k + 1) r := by
  have key : ∀ j, moveDown r k f j = if r ≤ j ∧ j < r + k then f (j + 1) else f j := by
    refine forRange_induction
      (fun m (g : ℕ → α) => ∀ j, g j = if r ≤ j ∧ j < r + m then f (j + 1) else f j) ?_ ?_
    · intro j
      rw [if_neg (by omega)]
    intro i g _ hg j
    by_cases hj : j = r + i
    · subst hj
      have hrd : ¬ (r ≤ r + i + 1 ∧ r + i + 1 < r + i) := by omega
      rw [update_self, hg, if_neg hrd, if_pos (by omega)]
    rw [update_of_ne hj, hg]
    congr 1
    apply propext
    omega
  funext j
  rw [key]
  congr 1
  apply propext
  omega

end NestLinux.Lib
