import Mathlib.Algebra.Order.Ring.Nat
import Mathlib.Data.Nat.Bitwise
import Mathlib.Data.Set.Lattice
import Mathlib.Order.CompletePartialOrder

/-!
# Blocks of a buddy system

A block of order `o` is `2 ^ o` cells from a multiple of `2 ^ o` on. Its buddy is the block of
the same order that makes a block of the next order with it. A set of free blocks keeps them
disjoint, and never holds a block together with its buddy, except at the highest order.
-/

namespace NestLinux.Lib

open Set Nat

/-- The cells of the block at `p` of order `o`. -/
def cells (p o : ℕ) : Set ℕ := Set.Ico p (p + 2 ^ o)

variable {p o M x : ℕ} {B : Set (ℕ × ℕ)} {F : Set ℕ}

theorem mem_cells : x ∈ cells p o ↔ p ≤ x ∧ x < p + 2 ^ o := mem_Ico

theorem self_mem_cells : p ∈ cells p o :=
  mem_cells.2 ⟨le_rfl, Nat.lt_add_of_pos_right (Nat.two_pow_pos o)⟩

/-! ### Buddies -/

theorem testBit_two_pow_mul_self (o k : ℕ) : (2 ^ o * k).testBit o = decide (k % 2 = 1) := by
  rw [testBit_two_pow_mul]
  simp

theorem mul_xor_two_pow (o k : ℕ) : (2 ^ o * k) ^^^ 2 ^ o = 2 ^ o * (k ^^^ 1) := by
  have hshf (n : ℕ) : 2 ^ o * n = n <<< o := by rw [shiftLeft_eq, mul_comm]
  rw [hshf, hshf, shiftLeft_xor_distrib, one_shiftLeft]

/-- The buddy of a block is the block before it or the one behind it. -/
theorem xor_two_pow (h : 2 ^ o ∣ p) :
    p ^^^ 2 ^ o = if p.testBit o then p - 2 ^ o else p + 2 ^ o := by
  obtain ⟨k, rfl⟩ := h
  rw [mul_xor_two_pow, testBit_two_pow_mul_self]
  rcases Nat.even_or_odd k with hk | hk
  · rw [Nat.xor_one_of_even hk, if_neg (by simp [Nat.even_iff.1 hk]), Nat.mul_add, Nat.mul_one]
  · rw [Nat.xor_one_of_odd hk, if_pos (by simp [Nat.odd_iff.1 hk]), Nat.mul_sub, Nat.mul_one]

/-- The start of a block together with its buddy. -/
theorem ldiff_two_pow : ldiff p (2 ^ o) = if p.testBit o then p ^^^ 2 ^ o else p := by
  apply eq_of_testBit_eq
  intro i
  split
  · rename_i hb
    by_cases hi : o = i
    · subst hi
      simp [hb]
    · simp [hi]
  rename_i hb
  by_cases hi : o = i
  · subst hi
    simp [hb]
  · simp [hi]

theorem two_pow_le_of_testBit (h : p.testBit o = true) : 2 ^ o ≤ p := ge_two_pow_of_testBit h

theorem xor_two_pow_ne : p ^^^ 2 ^ o ≠ p := by
  intro h
  have hb := congrArg (fun n => n.testBit o) h
  simp at hb

theorem dvd_ldiff_two_pow (h : 2 ^ o ∣ p) : 2 ^ (o + 1) ∣ ldiff p (2 ^ o) := by
  obtain ⟨k, rfl⟩ := h
  rw [ldiff_two_pow, mul_xor_two_pow, testBit_two_pow_mul_self]
  rcases even_or_odd k with hk | hk
  · rw [if_neg (by simp [even_iff.1 hk])]
    exact mul_dvd_mul_left _ hk.two_dvd
  rw [if_pos (by simp [odd_iff.1 hk]), xor_one_of_odd hk]
  refine mul_dvd_mul_left _ ?_
  have := odd_iff.1 hk
  omega

/-- A block and its buddy are the two halves of a block. -/
theorem cells_ldiff (h : 2 ^ o ∣ p) :
    cells (ldiff p (2 ^ o)) (o + 1) = cells p o ∪ cells (p ^^^ 2 ^ o) o := by
  ext x
  rw [ldiff_two_pow, xor_two_pow h, mem_union, mem_cells, mem_cells, mem_cells]
  split
  · rename_i hb
    have := two_pow_le_of_testBit hb
    omega
  · omega

theorem half_xor (h : 2 ^ (o + 1) ∣ p) : (p + 2 ^ o) ^^^ 2 ^ o = p ∧ 2 ^ o ∣ p + 2 ^ o := by
  obtain ⟨k, rfl⟩ := h
  have hmul : 2 ^ (o + 1) * k + 2 ^ o = 2 ^ o * (2 * k + 1) := by
    rw [Nat.pow_succ, Nat.mul_add, Nat.mul_assoc, Nat.mul_one]
  refine ⟨?_, hmul ▸ Nat.dvd_mul_right _ _⟩
  rw [hmul, mul_xor_two_pow, Nat.xor_one_of_odd ⟨k, rfl⟩, Nat.pow_succ]
  rw [Nat.add_sub_cancel, Nat.mul_assoc]

/-! ### Buddies by an index modulo the largest block -/

section Index

variable (h : 2 ^ o ∣ p) (ho : o < M)

include ho

theorem testBit_mod : (p % 2 ^ M).testBit o = p.testBit o := by
  simp [ho]

omit ho in
theorem ldiff_mod : ldiff (p % 2 ^ M) (2 ^ o) = ldiff p (2 ^ o) % 2 ^ M := by
  apply eq_of_testBit_eq
  intro i
  simp [Bool.and_assoc]

include h

theorem dvd_mod : 2 ^ o ∣ p % 2 ^ M :=
  (dvd_mod_iff (pow_dvd_pow 2 ho.le)).2 h

theorem add_xor_sub : p + (p % 2 ^ M ^^^ 2 ^ o) - p % 2 ^ M = p ^^^ 2 ^ o := by
  rw [xor_two_pow h, xor_two_pow (dvd_mod h ho), testBit_mod ho]
  split
  · rename_i hb
    have := two_pow_le_of_testBit ((testBit_mod ho).trans hb)
    omega
  · omega

theorem add_ldiff_sub : p + Nat.ldiff (p % 2 ^ M) (2 ^ o) - p % 2 ^ M = Nat.ldiff p (2 ^ o) := by
  rw [ldiff_two_pow, ldiff_two_pow, testBit_mod ho]
  split
  · exact add_xor_sub h ho
  · exact Nat.add_sub_cancel _ _

end Index

/-! ### Free blocks -/

def covered (B : Set (ℕ × ℕ)) : Set ℕ := {x | ∃ b ∈ B, x ∈ cells b.1 b.2}

/-- Free blocks of the orders below `M`. -/
structure FreeBlocks (M : ℕ) (B : Set (ℕ × ℕ)) : Prop where
  lt : ∀ b ∈ B, b.2 < M
  dvd : ∀ b ∈ B, 2 ^ b.2 ∣ b.1
  disjoint : ∀ b ∈ B, ∀ c ∈ B, b ≠ c → Disjoint (cells b.1 b.2) (cells c.1 c.2)
  maximal : ∀ b ∈ B, b.2 + 1 < M → (b.1 ^^^ 2 ^ b.2, b.2) ∉ B

/-- The free blocks `B` and the block at `p` of order `o` make up the cells `F`. -/
structure InHand (M : ℕ) (B : Set (ℕ × ℕ)) (p o : ℕ) (F : Set ℕ) : Prop where
  free : FreeBlocks M B
  lt : o < M
  dvd : 2 ^ o ∣ p
  disjoint : Disjoint (cells p o) (covered B)
  union : covered B ∪ cells p o = F

theorem freeBlocks_empty : FreeBlocks M ∅ := ⟨by simp, by simp, by simp, by simp⟩

theorem covered_empty : covered ∅ = ∅ := by simp [covered]

theorem covered_insert :
    covered (insert (p, o) B) = covered B ∪ cells p o := by
  ext x
  simp only [covered, mem_insert_iff, or_and_right, exists_or, exists_eq_left]
  exact or_comm

theorem FreeBlocks.mono {C : Set (ℕ × ℕ)} (h : FreeBlocks M B) (hC : C ⊆ B) : FreeBlocks M C :=
  ⟨fun b hb => h.lt b (hC hb), fun b hb => h.dvd b (hC hb),
    fun b hb c hc => h.disjoint b (hC hb) c (hC hc),
    fun b hb hlt hm => h.maximal b (hC hb) hlt (hC hm)⟩

/-- **Taking a block out.** -/
theorem FreeBlocks.take (h : FreeBlocks M B) (hp : (p, o) ∈ B) :
    InHand M (B \ {(p, o)}) p o (covered B) where
  free := h.mono sdiff_subset
  lt := h.lt _ hp
  dvd := h.dvd _ hp
  disjoint := by
    rw [disjoint_left]
    rintro x hx ⟨b, hb, hxb⟩
    exact disjoint_left.1 (h.disjoint _ hp b hb.1 fun heq => hb.2 heq.symm) hx hxb
  union := by
    rw [← covered_insert, insert_sdiff_singleton, insert_eq_of_mem hp]

theorem InHand.covered_eq (h : InHand M B p o F) : covered B = F \ cells p o := by
  rw [← h.union, union_sdiff_right, sdiff_eq_left.2 h.disjoint.symm]

theorem InHand.not_mem (h : InHand M B p o F) {b : ℕ × ℕ} (hb : b.1 ∈ cells p o) : b ∉ B :=
  fun hm => disjoint_left.1 h.disjoint hb ⟨b, hm, self_mem_cells⟩

/-- **Growing**: the buddy of the block is free, and is taken out too. -/
theorem InHand.merge (h : InHand M B p o F) (ho : o + 1 < M) (hbud : (p ^^^ 2 ^ o, o) ∈ B) :
    InHand M (B \ {(p ^^^ 2 ^ o, o)}) (ldiff p (2 ^ o)) (o + 1) F where
  free := h.free.mono sdiff_subset
  lt := ho
  dvd := dvd_ldiff_two_pow h.dvd
  disjoint := by
    rw [cells_ldiff h.dvd, disjoint_union_left]
    refine ⟨h.disjoint.mono_right ?_, (h.free.take hbud).disjoint⟩
    rintro x ⟨b, hb, hx⟩
    exact ⟨b, hb.1, hx⟩
  union := by
    have htk := (h.free.take hbud).union
    rw [cells_ldiff h.dvd, union_comm (cells p o), ← union_assoc, htk, h.union]

/-- **Putting the block back**, if its buddy is not free. -/
theorem InHand.put (h : InHand M B p o F) (hbud : o + 1 < M → (p ^^^ 2 ^ o, o) ∉ B) :
    FreeBlocks M (insert (p, o) B) ∧ covered (insert (p, o) B) = F := by
  refine ⟨⟨?_, ?_, ?_, ?_⟩, by rw [covered_insert, h.union]⟩
  · exact forall_mem_insert.2 ⟨h.lt, h.free.lt⟩
  · exact forall_mem_insert.2 ⟨h.dvd, h.free.dvd⟩
  · have hfar (c : ℕ × ℕ) (hc : c ∈ B) : Disjoint (cells p o) (cells c.1 c.2) :=
      h.disjoint.mono_right fun x hx => show x ∈ covered B from ⟨c, hc, hx⟩
    rintro b (rfl | hb) c (rfl | hc) hne
    · exact absurd rfl hne
    · exact hfar c hc
    · exact (hfar b hb).symm
    · exact h.free.disjoint b hb c hc hne
  rintro b (rfl | hb) hlt (heq | hm)
  · exact xor_two_pow_ne (congrArg Prod.fst heq)
  · exact hbud hlt hm
  · -- the block is the buddy of one that is free
    have hf : b.1 ^^^ 2 ^ b.2 = p := congrArg Prod.fst heq
    have hsd : b.2 = o := congrArg Prod.snd heq
    apply hbud (hsd ▸ hlt)
    rw [← hf, ← hsd, Nat.xor_assoc, Nat.xor_self, Nat.xor_zero]
    exact hb
  · exact h.free.maximal b hb hlt hm

/-- **Cutting in halves**: the upper half goes back, since the lower one stays. -/
theorem InHand.split (h : InHand M B p (o + 1) F) : InHand M (insert (p + 2 ^ o, o) B) p o F := by
  obtain ⟨hbud, hd⟩ := half_xor h.dvd
  have hcel : cells p (o + 1) = cells p o ∪ cells (p + 2 ^ o) o := by
    ext x
    rw [mem_union, mem_cells, mem_cells, mem_cells]
    omega
  have hhl : Disjoint (cells p o) (cells (p + 2 ^ o) o) := by
    rw [disjoint_left]
    intro x hx hx'
    rw [mem_cells] at hx hx'
    omega
  have hup : InHand M B (p + 2 ^ o) o (covered B ∪ cells (p + 2 ^ o) o) := by
    refine ⟨h.free, (lt_succ_self o).trans h.lt, hd, h.disjoint.mono_left ?_, rfl⟩
    rw [hcel]
    exact subset_union_right
  obtain ⟨hfe, hc⟩ := hup.put fun _ => by
    rw [hbud]
    exact h.not_mem (b := (p, o)) (self_mem_cells)
  refine ⟨hfe, (lt_succ_self o).trans h.lt, ?_, ?_, ?_⟩
  · exact (pow_dvd_pow 2 (le_succ o)).trans h.dvd
  · rw [hc, disjoint_union_right]
    refine ⟨h.disjoint.mono_left ?_, hhl⟩
    rw [hcel]
    exact subset_union_left
  · rw [hc, union_assoc, union_comm (cells (p + 2 ^ o) o), ← hcel, h.union]

end NestLinux.Lib
