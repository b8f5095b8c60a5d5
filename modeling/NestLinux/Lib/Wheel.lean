import Mathlib.Algebra.Order.Ring.Nat
import Mathlib.Order.Nat

/-!
# One level of a timing wheel

A wheel has `n` slots, each of which stands for `d` consecutive points of time. The slots
are visited in turn, the slot of the times from `t` to `t + d - 1` at `t`, and again one
full turn, `d * n`, later. What is put into the slot of a time `e` less than a turn ahead
is therefore met at the first point of the slot, and at no visit before.
-/

namespace NestLinux.Lib

variable {d n now i e : ℕ}

/-- The first point of time of the slot of `e`. -/
def slotStart (d e : ℕ) : ℕ := d * (e / d)

theorem slotStart_le : slotStart d e ≤ e := Nat.mul_div_le e d

theorem lt_slotStart_add (hd : 0 < d) (e : ℕ) : e < slotStart d e + d := Nat.lt_mul_div_succ e hd

theorem dvd_slotStart : d ∣ slotStart d e := dvd_mul_right d (e / d)

@[simp] theorem slotStart_one : slotStart 1 e = e := by simp [slotStart]

/-- The time `e` is in the slot `i` of the wheel, and the wheel meets it at the start of its
slot. -/
structure OnWheel (d n now i e : ℕ) : Prop where
  slot : i = e / d % n
  le : now ≤ slotStart d e
  lt : slotStart d e < now + d * n

theorem lt_slotStart (hd : 0 < d) (hle : now + d ≤ e) : now < slotStart d e := by
  have := lt_slotStart_add hd e
  omega

/-- A time more than a slot, and less than a turn, ahead has its place on the wheel. -/
theorem onWheel_of_lt (hd : 0 < d) (hle : now + d ≤ e) (hlt : e < now + d * n) :
    OnWheel d n now (e / d % n) e :=
  ⟨rfl, (lt_slotStart hd hle).le, (slotStart_le).trans_lt hlt⟩

/-- Where every slot is one point of time, the present has its place too. -/
theorem onWheel_one (hle : now ≤ e) (hlt : e < now + n) : OnWheel 1 n now (e % n) e := by
  refine ⟨by rw [Nat.div_one], ?_, ?_⟩
  · rwa [slotStart_one]
  · rwa [slotStart_one, one_mul]

theorem OnWheel.le_time (h : OnWheel d n now i e) : now ≤ e := h.le.trans (slotStart_le)

theorem OnWheel.succ (h : OnWheel d n now i e) (hne : slotStart d e ≠ now) :
    OnWheel d n (now + 1) i e := by
  refine ⟨h.slot, ?_, ?_⟩
  · have := h.le
    omega
  have := h.lt
  omega

/-- The slot visited now holds the times whose slot starts now. -/
theorem OnWheel.slot_iff (h : OnWheel d n now i e) (hd : 0 < d) (hn : d ∣ now) :
    i = now / d % n ↔ slotStart d e = now := by
  obtain ⟨q, rfl⟩ := hn
  rw [Nat.mul_div_cancel_left q hd, slotStart, Nat.mul_right_inj hd.ne', h.slot]
  have hle : q ≤ e / d := Nat.le_of_mul_le_mul_left h.le hd
  have hlt : e / d < q + n := by
    apply Nat.lt_of_mul_lt_mul_left (a := d)
    rw [mul_add]
    exact h.lt
  constructor
  · intro hm
    have hdd : n ∣ e / d - q := Nat.dvd_of_mod_eq_zero (Nat.sub_mod_eq_zero_of_mod_eq hm)
    have hz := Nat.eq_zero_of_dvd_of_lt hdd (by omega)
    omega
  · intro heq
    rw [heq]

/-- Only the first point of a slot meets it. -/
theorem slotStart_ne_of_not_dvd (hn : ¬ d ∣ now) : slotStart d e ≠ now := by
  intro h
  exact hn (h ▸ dvd_slotStart)

/-- The next, coarser, level is visited when this one comes round to its first slot. -/
theorem mul_dvd_iff_slot (hn : d ∣ now) : d * n ∣ now ↔ now / d % n = 0 := by
  rw [← Nat.dvd_iff_mod_eq_zero, Nat.dvd_div_iff_mul_dvd hn]

end NestLinux.Lib
