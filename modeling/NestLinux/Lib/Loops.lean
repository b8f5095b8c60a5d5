import Mathlib.Data.List.Basic

/-!
# Counted loops over cells

The one loop shape most of the modelled C code takes: a body run once per index,
threading an accumulator, where the accumulator often holds arrays whose cells are
read and written by index. `forRange` is `for (i = 0; i < n; i++)`, and
`forRange_induction` is its loop invariant rule.

An array is a list; reading outside it gives the default and writing outside it
changes nothing, so a bound that matters has to be proved, not assumed.
-/

namespace NestLinux.Lib

open List

variable {α : Type*}

/-- `for (i = 0; i < n; i++) a = f i a`. -/
def forRange : ℕ → (ℕ → α → α) → α → α
  | 0, _, a => a
  | n + 1, f, a => f n (forRange n f a)

@[simp] theorem forRange_zero (f : ℕ → α → α) (a : α) : forRange 0 f a = a := rfl

theorem forRange_succ (n : ℕ) (f : ℕ → α → α) (a : α) :
    forRange (n + 1) f a = f n (forRange n f a) := rfl

/-- **Induction along a loop.** What holds at the start and is kept by every turn of
the body holds at the end. -/
theorem forRange_induction {n : ℕ} {f : ℕ → α → α} {a : α} (P : ℕ → α → Prop) (h0 : P 0 a)
    (hsp : ∀ i x, i < n → P i x → P (i + 1) (f i x)) : P n (forRange n f a) := by
  induction n with
  | zero => exact h0
  | succ n ih =>
    refine hsp n _ (Nat.lt_succ_self n) (ih ?_)
    intro i x hi
    exact hsp i x (Nat.lt_succ_of_lt hi)

theorem getD_set (l : List α) (i j : ℕ) (v d : α) :
    (l.set i v).getD j d = if i = j ∧ j < l.length then v else l.getD j d := by
  by_cases hij : i = j
  · subst hij
    by_cases hi : i < l.length <;> simp [hi]
  · simp [hij]

/-- What holds of every cell and of the default holds of whatever is read. -/
theorem getD_induction {P : α → Prop} {l : List α} {d : α} (hl : ∀ x ∈ l, P x) (hd : P d) (i : ℕ) :
    P (l.getD i d) := by
  rw [getD_eq_getElem?_getD]
  cases hi : l[i]? with
  | none => exact hd
  | some x => exact hl x (mem_of_getElem? hi)

end NestLinux.Lib
