import Mathlib.Data.List.Basic
import Mathlib.Order.Nat

/-!
# Contiguous extents

A list of extents that lie one after another without a gap, each with a start, a
positive length and whatever else its type holds. Such a list gives every point of its
range exactly one extent, which is found in the part of the list the point belongs to.
-/

namespace NestLinux.Lib

open List

variable {α : Type*} (lo len : α → ℕ)

/-- Non-empty extents, the first at `s` and each next one where the last one ends. -/
def Contig : ℕ → List α → Prop
  | _, [] => True
  | s, x :: L => lo x = s ∧ 0 < len x ∧ Contig (s + len x) L

/-- The end of the extents `L` laid out from `s` on. -/
def extent : ℕ → List α → ℕ
  | s, [] => s
  | s, x :: L => extent (s + len x) L

/-- Whether an extent holds the point `b`. -/
def holds (b : ℕ) (x : α) : Bool := decide (lo x ≤ b) && decide (b < lo x + len x)

/-- The extent that holds the point `b`. -/
def extentAt (b : ℕ) (L : List α) : Option α := L.find? (holds lo len b)

variable {lo len} {s b : ℕ} {x : α} {A B L : List α}

@[simp] theorem contig_nil : Contig lo len s [] := trivial

@[simp] theorem contig_cons :
    Contig lo len s (x :: L) ↔ lo x = s ∧ 0 < len x ∧ Contig lo len (s + len x) L := Iff.rfl

@[simp] theorem extent_nil : extent len s [] = s := rfl

@[simp] theorem extent_cons : extent len s (x :: L) = extent len (s + len x) L := rfl

@[simp] theorem extent_append : extent len s (A ++ B) = extent len (extent len s A) B := by
  induction A generalizing s with
  | nil => rfl
  | cons x A ih => simp [ih]

@[simp] theorem contig_append :
    Contig lo len s (A ++ B) ↔ Contig lo len s A ∧ Contig lo len (extent len s A) B := by
  induction A generalizing s with
  | nil => simp
  | cons x A ih => simp [ih, and_assoc]

theorem length_add_le_extent (h : Contig lo len s L) : s + L.length ≤ extent len s L := by
  induction L generalizing s with
  | nil => simp
  | cons x L ih =>
    have hL := ih h.2.2
    have hx := h.2.1
    rw [length_cons, extent_cons]
    omega

theorem le_extent (len : α → ℕ) (s : ℕ) (L : List α) : s ≤ extent len s L := by
  induction L generalizing s with
  | nil => exact le_refl s
  | cons x L ih => exact le_trans (Nat.le_add_right s (len x)) (ih (s + len x))

theorem Contig.bounds (h : Contig lo len s L) (hx : x ∈ L) :
    s ≤ lo x ∧ 0 < len x ∧ lo x + len x ≤ extent len s L := by
  obtain ⟨A, B, rfl⟩ := append_of_mem hx
  obtain ⟨-, hlo, hp, -⟩ := contig_append.1 h
  have hs := le_extent len s A
  have he := le_extent len (extent len s A + len x) B
  rw [extent_append, extent_cons]
  omega

/-- Every point of the range is in an extent. -/
theorem Contig.exists_of_lt (h : Contig lo len s L) (hs : s ≤ b) (hb : b < extent len s L) :
    ∃ A x B, L = A ++ x :: B ∧ lo x ≤ b ∧ b < lo x + len x := by
  induction L generalizing s with
  | nil => exact absurd hb (Nat.not_lt.2 hs)
  | cons y L ih =>
    by_cases hy : b < s + len y
    · exact ⟨[], y, L, rfl, h.1.trans_le hs, h.1 ▸ hy⟩
    obtain ⟨A, x, B, rfl, hx⟩ := ih h.2.2 (Nat.not_lt.1 hy) hb
    exact ⟨y :: A, x, B, rfl, hx⟩

theorem extentAt_cons : extentAt lo len b (x :: L) =
      if lo x ≤ b ∧ b < lo x + len x then some x else extentAt lo len b L := by
  rw [extentAt]
  by_cases hb : lo x ≤ b ∧ b < lo x + len x
  · simp [holds, hb]
  have hx : holds lo len b x = false := by simpa [holds] using hb
  simp [hx, hb, extentAt]

/-- No extent holds a point outside the range. -/
theorem Contig.extentAt_eq_none (h : Contig lo len s L) (hb : b < s ∨ extent len s L ≤ b) :
    extentAt lo len b L = none := by
  rw [extentAt, find?_eq_none]
  intro x hx
  have hbds := h.bounds hx
  simp only [holds, Bool.and_eq_true, decide_eq_true_eq]
  omega

/-- The extent at a point of a list cut in two. -/
theorem Contig.extentAt_append (h : Contig lo len s (A ++ B)) : extentAt lo len b (A ++ B) =
      if b < extent len s A then extentAt lo len b A else extentAt lo len b B := by
  rw [contig_append] at h
  rw [extentAt, find?_append]
  change (extentAt lo len b A).or (extentAt lo len b B) = _
  split_ifs with hb
  · rw [h.2.extentAt_eq_none (.inl hb), Option.or_none]
  · rw [h.1.extentAt_eq_none (.inr (Nat.not_lt.1 hb)), Option.none_or]

end NestLinux.Lib
