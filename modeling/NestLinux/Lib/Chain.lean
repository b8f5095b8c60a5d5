import Mathlib.Data.List.Nodup

/-!
# Linked lists

A linked list is a start and a function from each node to the next one. It is followed in
segments, so that a list can be cut where nodes go in or out. The walk along a list takes a
bound on its turns.
-/

namespace NestLinux.Lib

open List

variable {P : Type*} {next next' : P → Option P} {s t m n prev : Option P} {l l1 l2 : List P}
  {p : P}

/-- The nodes from `s` on are those of `l`, and then comes `t`. -/
def Chain (next : P → Option P) : Option P → List P → Option P → Prop
  | s, [], t => s = t
  | s, p :: l, t => s = some p ∧ Chain next (next p) l t

@[simp] theorem chain_nil : Chain next s [] t ↔ s = t := Iff.rfl

@[simp] theorem chain_cons : Chain next s (p :: l) t ↔ s = some p ∧ Chain next (next p) l t :=
  Iff.rfl

theorem chain_append : Chain next s (l1 ++ l2) t ↔ ∃ m, Chain next s l1 m ∧ Chain next m l2 t := by
  induction l1 generalizing s with
  | nil => simp
  | cons p l1 ih => simp [ih, and_assoc]

theorem Chain.head (h : Chain next s l none) : s = l.head? := by
  cases l with
  | nil => exact h
  | cons p l => exact h.1

/-- The start of the second part is its first node. -/
theorem Chain.split (h : Chain next s (l1 ++ l2) none) :
    Chain next s l1 l2.head? ∧ Chain next l2.head? l2 none := by
  obtain ⟨m, h1, h2⟩ := chain_append.1 h
  rw [← h2.head]
  exact ⟨h1, h2⟩

theorem Chain.unique (h1 : Chain next s l1 none) (h2 : Chain next s l2 none) : l1 = l2 := by
  induction l1 generalizing s l2 with
  | nil =>
    cases l2 with
    | nil => rfl
    | cons p l2 => exact absurd (h1.symm.trans h2.1) (by simp)
  | cons p l1 ih =>
    cases l2 with
    | nil => exact absurd (h1.1.symm.trans h2) (by simp)
    | cons q l2 =>
      have hpq : p = q := Option.some.inj (h1.1.symm.trans h2.1)
      rw [← hpq] at h2 ⊢
      rw [ih h1.2 h2.2]

/-- What comes after a list comes after its last node. -/
theorem Chain.next_getLast (h : Chain next s l m) (hp : l.getLast? = some p) : next p = m := by
  obtain ⟨l', rfl⟩ := getLast?_eq_some_iff.1 hp
  obtain ⟨m', _, h2⟩ := chain_append.1 h
  exact h2.2

/-! ## Change of a link -/

variable [DecidableEq P]

/-- Let the node after `prev` be `n`; without `prev` it is the start. -/
def relink (start : Option P) (next : P → Option P) (prev n : Option P) :
    Option P × (P → Option P) :=
  match prev with
  | none => (n, next)
  | some p => (start, Function.update next p n)

/-- A list does not depend on the other nodes. -/
theorem Chain.update {a : P} {x : Option P} (h : Chain next s l t) (ha : a ∉ l) :
    Chain (Function.update next a x) s l t := by
  induction l generalizing s with
  | nil => exact h
  | cons p l ih =>
    rw [mem_cons, not_or] at ha
    refine ⟨h.1, ?_⟩
    rw [Function.update_of_ne (Ne.symm ha.1)]
    exact ih h.2 ha.2

/-- The list up to `prev` goes on at another node. -/
theorem Chain.relink (h : Chain next s l m) (hnd : l.Nodup) (n : Option P) :
    Chain (relink s next l.getLast? n).2 (Lib.relink s next l.getLast? n).1 l n := by
  rcases eq_nil_or_concat l with hl | ⟨l', p, hl⟩
  · rw [hl]
    rfl
  rw [concat_eq_append] at hl
  subst hl
  obtain ⟨m', h1, h2⟩ := chain_append.1 h
  have hp : p ∉ l' := by
    intro hp
    exact (nodup_append.1 hnd).2.2 p hp p mem_cons_self rfl
  rw [getLast?_append]
  exact chain_append.2 ⟨m', h1.update hp, h2.1, Function.update_self _ _ _⟩

/-- A list without `prev` stays as it is. -/
theorem Chain.relink_frame (h : Chain next s l t) {start : Option P}
    (hpv : ∀ p ∈ l, prev ≠ some p) : Chain (Lib.relink start next prev n).2 s l t := by
  cases prev with
  | none => exact h
  | some q => exact h.update fun hq => hpv q hq rfl

/-- A list is put together from what comes up to `prev` and another list. -/
theorem Chain.splice (h1 : Chain next s l1 m) (h2 : Chain next n l2 t) (hnd : (l1 ++ l2).Nodup) :
    Chain (Lib.relink s next l1.getLast? n).2 (Lib.relink s next l1.getLast? n).1 (l1 ++ l2) t := by
  have hpts := nodup_append.1 hnd
  refine chain_append.2 ⟨n, h1.relink hpts.1 n, h2.relink_frame ?_⟩
  intro p hp hla
  exact hpts.2.2 p (mem_of_getLast? hla) p hp rfl

/-! ## Walk -/

/-- Go on until a node fits: the node before it and the node, if there are any. -/
def walkTo (next : P → Option P) (fits : P → Bool) :
    ℕ → Option P → Option P → Option (Option P × Option P)
  | 0, _, _ => none
  | _ + 1, prev, none => some (prev, none)
  | fuel + 1, prev, some p =>
    if fits p then some (prev, some p) else walkTo next fits fuel (some p) (next p)

/-- The walk stops at the first node that fits. -/
theorem walkTo_eq {fits : P → Bool} {fuel : ℕ} (h : Chain next s (l1 ++ l2) none)
    (h1 : ∀ p ∈ l1, fits p = false) (h2 : ∀ p, l2.head? = some p → fits p = true)
    (hfl : (l1 ++ l2).length < fuel) :
    walkTo next fits fuel prev s = some (l1.getLast?.or prev, l2.head?) := by
  induction l1 generalizing s fuel prev with
  | nil =>
    have hs := h.head
    cases fuel with
    | zero => omega
    | succ fuel =>
      cases l2 with
      | nil =>
        rw [hs]
        rfl
      | cons p l2 =>
        rw [hs]
        exact if_pos (h2 p rfl)
  | cons p l1 ih =>
    cases fuel with
    | zero => omega
    | succ fuel =>
      rw [h.1]
      simp only [walkTo, h1 p mem_cons_self]
      have hl : (l1 ++ l2).length < fuel := by
        simp only [cons_append, length_cons] at hfl
        omega
      rw [ih h.2 (fun q hq => h1 q (mem_cons_of_mem p hq)) hl, getLast?_cons]
      cases l1.getLast? <;> rfl

end NestLinux.Lib
