import Mathlib.Data.List.Basic

/-!
# A list laid over a function

A memory is a function from addresses to values, and copying a list into it changes the
values from an address on. Two copies, one after the other, are one copy of both lists.
-/

namespace NestLinux.Lib

variable {β γ : Type*} {f : ℕ → β} {lo a : ℕ} {v w : List β}

/-- The function with the values of a list from `lo` on. -/
def overlay (f : ℕ → β) (lo : ℕ) (v : List β) (a : ℕ) : β :=
  if lo ≤ a then (v[a - lo]?).getD (f a) else f a

@[simp] theorem overlay_nil : overlay f lo [] = f := by
  funext a
  simp [overlay]

theorem overlay_of_lt (h : a < lo) : overlay f lo v a = f a := if_neg (Nat.not_le.2 h)

theorem overlay_of_le (h : lo + v.length ≤ a) : overlay f lo v a = f a := by
  have hno : v[a - lo]? = none := List.getElem?_eq_none (by omega)
  rw [overlay, hno]
  split_ifs <;> rfl

theorem overlay_of_mem (h1 : lo ≤ a) (h2 : a < lo + v.length) :
    v[a - lo]? = some (overlay f lo v a) := by
  have hlt : a - lo < v.length := by omega
  rw [overlay, if_pos h1, List.getElem?_eq_getElem hlt, Option.getD_some]

/-- A value is from the list, or it is that of the function. -/
theorem overlay_cases :
    (lo ≤ a ∧ a < lo + v.length ∧ v[a - lo]? = some (overlay f lo v a)) ∨
      (¬ (lo ≤ a ∧ a < lo + v.length) ∧ overlay f lo v a = f a) := by
  by_cases h1 : lo ≤ a
  · by_cases h2 : a < lo + v.length
    · exact .inl ⟨h1, h2, overlay_of_mem h1 h2⟩
    · exact .inr ⟨fun hc => h2 hc.2, overlay_of_le (by omega)⟩
  · exact .inr ⟨fun hc => h1 hc.1, overlay_of_lt (by omega)⟩

theorem overlay_append (f : ℕ → β) (lo : ℕ) (v w : List β) :
    overlay (overlay f lo v) (lo + v.length) w = overlay f lo (v ++ w) := by
  funext a
  by_cases h1 : a < lo + v.length
  · rw [overlay_of_lt h1]
    by_cases h2 : lo ≤ a
    · rw [overlay, overlay, if_pos h2, if_pos h2, List.getElem?_append_left (by omega)]
    · rw [overlay_of_lt (by omega), overlay_of_lt (by omega)]
  · have hsub : a - (lo + v.length) = a - lo - v.length := by omega
    rw [overlay, if_pos (by omega), overlay_of_le (by omega), overlay, if_pos (by omega),
      List.getElem?_append_right (by omega), hsub]

end NestLinux.Lib
