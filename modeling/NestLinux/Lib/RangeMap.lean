import Mathlib.Data.List.Basic
import Mathlib.Data.List.Pairwise
import Mathlib.Data.List.TakeWhile
import Mathlib.Algebra.Order.Group.Int

/-!
# Lists of ranges with values

A list of ranges of integers, each with a value, that stand for a partial function: the
value of a point is that of the range that holds it. The ranges are in order, do not
overlap, and touch only where their values differ, so every such function has one list.
Further down, lists whose elements are grouped by a key, such as ranges by their owner.
-/

namespace NestLinux.Lib

open List

section Ranges

variable {α V : Type*} (lo hi : α → ℤ) (val : α → V)

/-- The range `x` ends before `y`, and does not touch it if they have the same value. -/
def Apart (x y : α) : Prop := hi x < lo y ∧ (val x = val y → hi x + 1 < lo y)

/-- A range has the value `v` at the point `b`. -/
def HasAt (L : List α) (b : ℤ) (v : V) : Prop := ∃ x ∈ L, lo x ≤ b ∧ b ≤ hi x ∧ val x = v

variable {lo hi val} {x : α} {A B L : List α} {b : ℤ} {v : V}

@[simp] theorem hasAt_cons :
    HasAt lo hi val (x :: L) b v ↔ lo x ≤ b ∧ b ≤ hi x ∧ val x = v ∨ HasAt lo hi val L b v := by
  simp [HasAt]

/-- Ranges that all start after a point do not hold it. -/
theorem not_hasAt_of_lt (h : ∀ x ∈ L, b < lo x) : ¬ HasAt lo hi val L b v := by
  rintro ⟨x, hx, hlo, -⟩
  have := h x hx
  omega

end Ranges

section Grouped

variable {α κ : Type*} {key : α → κ} {A B L P W W' Q : List α} {k : κ}

/-- Between two elements of a key there are only elements of that key. -/
def Grouped (key : α → κ) (L : List α) : Prop :=
  ∀ x y z, [x, y, z].Sublist L → key x = key z → key y = key x

theorem grouped_nil : Grouped key ([] : List α) := by
  intro x y z h
  cases h

theorem Grouped.sublist (h : Grouped key L) (hsub : A.Sublist L) : Grouped key A :=
  fun x y z hs => h x y z (hs.trans hsub)

theorem grouped_of_eq (h : ∀ x ∈ L, key x = k) : Grouped key L := by
  intro x y z hs _
  rw [h y (hs.subset (by simp)), h x (hs.subset (by simp))]

theorem Grouped.append (hA : Grouped key A) (hB : Grouped key B)
    (hne : ∀ x ∈ A, ∀ y ∈ B, key x ≠ key y) : Grouped key (A ++ B) := by
  intro x y z hs hkey
  obtain ⟨l1, l2, heq, h1, h2⟩ := sublist_append_iff.1 hs
  match l1, heq with
  | [], heq => exact hB x y z (heq ▸ h2) hkey
  | [a], heq =>
    obtain ⟨rfl, rfl⟩ := cons_eq_cons.1 heq
    exact absurd hkey (hne _ (h1.subset (by simp)) _ (h2.subset (by simp)))
  | [a, b], heq =>
    obtain ⟨rfl, rfl, rfl⟩ := heq
    exact absurd hkey (hne _ (h1.subset (by simp)) _ (h2.subset (by simp)))
  | a :: b :: c :: l, heq =>
    simp only [cons_append, cons.injEq, nil_eq, append_eq_nil_iff] at heq
    obtain ⟨rfl, rfl, rfl, rfl, -⟩ := heq
    exact hA _ _ _ h1 hkey

/-- After the elements of a key and one of another, no element of the key follows. -/
theorem Grouped.not_mem_of_ne {w q : α} (h : Grouped key (P ++ w :: W ++ q :: Q))
    (hq : key q ≠ key w) : ∀ y ∈ q :: Q, key y ≠ key w := by
  intro y hy
  rcases mem_cons.1 hy with rfl | hy
  · exact hq
  intro heq
  apply hq
  apply h w q y _ heq.symm
  have hW : [w].Sublist (P ++ w :: W) := singleton_sublist.2 (by simp)
  have hQ : [q, y].Sublist (q :: Q) := (singleton_sublist.2 hy).cons_cons q
  exact hW.append hQ

/-- The elements of a key, as a search from the front finds them. -/
theorem Grouped.exists_block [BEq κ] [LawfulBEq κ] (h : Grouped key L) (k : κ) :
    ∃ P W Q, L = P ++ W ++ Q ∧ (L.takeWhile fun x => !(k == key x)) = P ∧
      (L.dropWhile fun x => !(k == key x)) = W ++ Q ∧
      (∀ x ∈ P, key x ≠ k) ∧ (∀ x ∈ W, key x = k) ∧ (∀ x ∈ Q, key x ≠ k) ∧ (W = [] → Q = []) := by
  induction L with
  | nil => exact ⟨[], [], [], by simp⟩
  | cons x L ih =>
    by_cases hx : k = key x
    · have hp : (k == key x) = true := beq_iff_eq.2 hx
      set W := L.takeWhile fun y => k == key y with hW
      set Q := L.dropWhile fun y => k == key y with hQ
      have hL : L = W ++ Q := (takeWhile_append_dropWhile ..).symm
      refine ⟨[], x :: W, Q, ?_, ?_, ?_, by simp, ?_, ?_, by simp⟩
      · rw [nil_append, cons_append, ← hL]
      · rw [takeWhile_cons_of_neg (by rw [hp]; simp)]
      · rw [dropWhile_cons_of_neg (by rw [hp]; simp), cons_append, ← hL]
      · rw [forall_mem_cons]
        refine ⟨hx.symm, fun y hy => ?_⟩
        have hy' := mem_takeWhile_imp (p := fun z => k == key z) (l := L) hy
        exact (beq_iff_eq.1 hy').symm
      cases hQc : Q with
      | nil => simp
      | cons q Q' =>
        have hq := head?_dropWhile_not (fun y => k == key y) L
        rw [← hQ, hQc] at hq
        have hqk : key q ≠ k := fun heq => by simp [heq] at hq
        have hg : Grouped key ([] ++ x :: W ++ q :: Q') := by
          rw [nil_append, cons_append, ← hQc, ← hL]
          exact h
        rw [hx] at hqk ⊢
        exact hg.not_mem_of_ne hqk
    · have hneg : (k == key x) = false := beq_eq_false_iff_ne.2 hx
      obtain ⟨P, W, Q, hL, hP, hR, hPk, hWk, hQk, hn⟩ :=
        ih (h.sublist (sublist_cons_self x L))
      refine ⟨x :: P, W, Q, ?_, ?_, ?_, ?_, hWk, hQk, hn⟩
      · rw [cons_append, cons_append, ← hL]
      · rw [takeWhile_cons_of_pos (by rw [hneg]; rfl), hP]
      · rw [dropWhile_cons_of_pos (by rw [hneg]; rfl), hR]
      rw [forall_mem_cons]
      exact ⟨Ne.symm hx, hPk⟩

/-- **Changing the elements of one key.** Where there were none, the new ones are at the end. -/
theorem Grouped.replace (h : Grouped key (P ++ W ++ Q)) (hP : ∀ x ∈ P, key x ≠ k)
    (hW : ∀ x ∈ W, key x = k) (hQ : ∀ x ∈ Q, key x ≠ k) (hn : W = [] → Q = [])
    (hW' : ∀ x ∈ W', key x = k) : Grouped key (P ++ W' ++ Q) := by
  have hPW' : Grouped key (P ++ W') := by
    refine (h.sublist ?_).append (grouped_of_eq hW') fun x hx y hy heq =>
      hP x hx (heq.trans (hW' y hy))
    rw [append_assoc]
    exact sublist_append_left _ _
  apply hPW'.append (h.sublist (sublist_append_right _ _))
  intro x hx y hy heq
  rcases mem_append.1 hx with hx | hx
  · cases W with
    | nil =>
      rw [hn rfl] at hy
      cases hy
    | cons w W =>
      have hs : ([x] ++ [w] ++ [y]).Sublist (P ++ w :: W ++ Q) :=
        ((singleton_sublist.2 hx).append (singleton_sublist.2 (by simp))).append
          (singleton_sublist.2 hy)
      have hw := h x w y hs heq
      rw [hW w (by simp)] at hw
      exact hP x hx hw.symm
  · exact hQ y hy (heq ▸ hW' x hx)

end Grouped

end NestLinux.Lib
