import Mathlib.Data.Tree.Basic
import Mathlib.Data.List.Basic

/-!
# Linked search trees by their in-order walk

A search tree as C code with node pointers uses it: the caller walks the tree with its
own comparisons, links a node into the empty place it ended at, and calls the library
to rebalance. A value stands for a node, a predicate that one value satisfies for a
pointer to it, and what every operation does is said about the in-order walk.

How a tree is rebalanced depends on colours that no caller reads. `Rotations` is any
sequence of reshapes that keep the in-order walk, one for each call of the rebalancing
code, so a result proved for every `Rotations` holds for red-black trees and for any
other balancing.
-/

namespace NestLinux.Lib

open BinaryTree
open List hiding nil

variable {α : Type*}

/-- The values of a tree from left to right. -/
def inorder : BinaryTree α → List α
  | nil => []
  | node x l r => inorder l ++ x :: inorder r

@[simp] theorem inorder_nil : inorder (nil : BinaryTree α) = [] := rfl

@[simp] theorem inorder_node (x : α) (l r : BinaryTree α) :
    inorder (node x l r) = inorder l ++ x :: inorder r := rfl

@[simp] theorem inorder_map {β : Type*} (f : α → β) : inorder (t.map f) = (inorder t).map f := by
  induction t with
  | nil => rfl
  | node x l r ihl ihr => simp [BinaryTree.map, ihl, ihr]

theorem numNodes_eq_length : t.numNodes = (inorder t).length := by
  induction t with
  | nil => rfl
  | node x l r ihl ihr =>
    simp only [BinaryTree.numNodes, inorder_node, length_append, length_cons]
    omega

/-- A comparison that holds up to some place of a sorted list cuts it in two. -/
theorem exists_cut {q : α → Prop} {L : List α} (h : L.Pairwise fun y z => q z → q y) :
    ∃ P Q, L = P ++ Q ∧ (∀ z ∈ P, q z) ∧ ∀ z ∈ Q, ¬ q z := by
  induction L with
  | nil => exact ⟨[], [], rfl, by simp, by simp⟩
  | cons z L ih =>
    rw [pairwise_cons] at h
    by_cases hz : q z
    · obtain ⟨P, Q, rfl, hP, hQ⟩ := ih h.2
      exact ⟨z :: P, Q, rfl, forall_mem_cons.2 ⟨hz, hP⟩, hQ⟩
    · exact ⟨[], z :: L, rfl, by simp, forall_mem_cons.2 ⟨hz, fun w hw hq => hz (h.1 w hw hq)⟩⟩

/-! ### Neighbours -/

/-- The value after the first one that satisfies `p`. -/
def nextAfter (p : α → Bool) : List α → Option α
  | [] => none
  | x :: xs => if p x then xs.head? else nextAfter p xs

/-- The value before the last one that satisfies `p`. -/
def prevBefore (p : α → Bool) (l : List α) : Option α := nextAfter p l.reverse

variable {p : α → Bool} {t : BinaryTree α}

variable {x : α} {A B : List α}

theorem nextAfter_append (hA : ∀ y ∈ A, p y = false)
    (hx : p x = true) : nextAfter p (A ++ x :: B) = B.head? := by
  induction A with
  | nil => simp [nextAfter, hx]
  | cons y A ih =>
    rw [forall_mem_cons] at hA
    simp [nextAfter, hA.1, ih hA.2]

theorem prevBefore_append (hB : ∀ y ∈ B, p y = false)
    (hx : p x = true) : prevBefore p (A ++ x :: B) = A.getLast? := by
  have hrev : (A ++ x :: B).reverse = B.reverse ++ x :: A.reverse := by simp
  rw [prevBefore, hrev, nextAfter_append (by simpa using hB) hx, head?_reverse]

/-! ### Pointers by a key -/

section Key

variable {β : Type*} [DecidableEq β] (key : α → β)

/-- Whether `y` is the node `x`, told by a key that no two nodes share. -/
def sameKey (x y : α) : Bool := decide (key y = key x)

theorem sameKey_self (x : α) : sameKey key x x = true := decide_eq_true rfl

variable {key} (h : ((A ++ x :: B).map key).Nodup)

include h

/-- No other node has the key of `x`. -/
theorem sameKey_of_nodup :
    (∀ y ∈ A, sameKey key x y = false) ∧ ∀ y ∈ B, sameKey key x y = false := by
  rw [map_append, map_cons, nodup_append, nodup_cons] at h
  obtain ⟨-, ⟨hxB, -⟩, hdj⟩ := h
  constructor
  · intro y hy
    exact decide_eq_false (hdj (key y) (mem_map_of_mem hy) (key x) mem_cons_self)
  intro y hy
  exact decide_eq_false fun hkey => hxB (hkey ▸ mem_map_of_mem hy)

theorem nextAfter_sameKey : nextAfter (sameKey key x) (A ++ x :: B) = B.head? :=
  nextAfter_append (sameKey_of_nodup h).1 (sameKey_self key x)

theorem prevBefore_sameKey : prevBefore (sameKey key x) (A ++ x :: B) = A.getLast? :=
  prevBefore_append (sameKey_of_nodup h).2 (sameKey_self key x)

/-- Storing `y` in the place of `x`. -/
theorem map_sameKey (y : α) :
    (A ++ x :: B).map (fun z => if sameKey key x z then y else z) = A ++ y :: B := by
  obtain ⟨hA, hB⟩ := sameKey_of_nodup h
  have hkp : ∀ l : List α, (∀ z ∈ l, sameKey key x z = false) →
      l.map (fun z => if sameKey key x z then y else z) = l := by
    intro l hl
    have hid := map_congr_left (f := fun z => if sameKey key x z then y else z) (g := id)
      (l := l) fun z hz => by simp [hl z hz]
    rw [hid, map_id]
  rw [map_append, map_cons, hkp A hA, hkp B hB, if_pos (sameKey_self key x)]

/-- Removing `x`. -/
theorem filter_sameKey : (A ++ x :: B).filter (!sameKey key x ·) = A ++ B := by
  obtain ⟨hA, hB⟩ := sameKey_of_nodup h
  have hkp : ∀ l : List α, (∀ z ∈ l, sameKey key x z = false) →
      l.filter (!sameKey key x ·) = l := by
    intro l hl
    rw [filter_eq_self]
    intro z hz
    simp [hl z hz]
  rw [filter_append, filter_cons, hkp A hA, hkp B hB, sameKey_self]
  rfl

end Key

/-! ### Linking a node -/

/-- Link `y` where the walk from the root ends: at `x` it goes right on `some true`,
left on `some false`, and gives up on `none`. -/
def linkAt (dir : α → Option Bool) (y : α) : BinaryTree α → Option (BinaryTree α)
  | nil => some (node y nil nil)
  | node x l r =>
    match dir x with
    | some true => (linkAt dir y r).map (node x l ·)
    | some false => (linkAt dir y l).map (node x · r)
    | none => none

/-- **Linking at a cut.** Where the walk goes right at everything before a cut of the
tree and left at everything after it, the new node ends at the cut. -/
theorem linkAt_inorder {dir : α → Option Bool} (y : α)
    (h : inorder t = A ++ B) (hA : ∀ x ∈ A, dir x = some true) (hB : ∀ x ∈ B, dir x = some false) :
    ∃ t', linkAt dir y t = some t' ∧ inorder t' = A ++ y :: B := by
  induction t generalizing A B with
  | nil =>
    have hAB := append_eq_nil_iff.1 h.symm
    refine ⟨node y nil nil, rfl, ?_⟩
    simp [hAB.1, hAB.2]
  | node x l r ihl ihr =>
    rw [inorder_node, append_eq_append_iff] at h
    rcases h with ⟨A', hA', hr⟩ | ⟨B', hl, hB'⟩
    · cases A' with
      | nil =>
        have hxB : B = x :: inorder r := by simpa using hr.symm
        have hAl : inorder l = A ++ [] := by simpa using hA'.symm
        obtain ⟨t', ht', hin⟩ := ihl hAl hA (by simp)
        have hx : dir x = some false := hB x (by simp [hxB])
        refine ⟨node x t' r, ?_, ?_⟩
        · simp [linkAt, hx, ht']
        · simp [hin, hxB]
      | cons a A' =>
        rw [cons_append, cons.injEq] at hr
        obtain ⟨rfl, hr⟩ := hr
        obtain ⟨t', ht', hin⟩ := ihr hr (fun z hz => hA z (by simp [hA', hz])) hB
        have hx : dir x = some true := hA x (by simp [hA'])
        refine ⟨node x l t', ?_, ?_⟩
        · simp [linkAt, hx, ht']
        · simp [hin, hA']
    · -- the cut is inside the left subtree, or just after it
      obtain ⟨t', ht', hin⟩ := ihl hl hA (fun z hz => hB z (by simp [hB', hz]))
      have hx : dir x = some false := hB x (by simp [hB'])
      refine ⟨node x t' r, ?_, ?_⟩
      · simp [linkAt, hx, ht']
      · simp [hin, hB']

/-- Apply `f` to the subtree whose root satisfies `p`. -/
def updateAt (p : α → Bool) (f : BinaryTree α → Option (BinaryTree α)) :
    BinaryTree α → Option (BinaryTree α)
  | nil => none
  | node x l r =>
    if p x then f (node x l r)
    else
      match updateAt p f l with
      | some l' => some (node x l' r)
      | none => (updateAt p f r).map (node x l ·)

theorem updateAt_eq_none (f : BinaryTree α → Option (BinaryTree α))
    (h : ∀ y ∈ inorder t, p y = false) : updateAt p f t = none := by
  induction t with
  | nil => rfl
  | node x l r ihl ihr =>
    simp only [inorder_node, mem_append, mem_cons] at h
    have hl := ihl fun y hy => h y (.inl hy)
    have hr := ihr fun y hy => h y (.inr (.inr hy))
    simp [updateAt, h x (.inr (.inl rfl)), hl, hr]

/-- **Working below a node.** The subtree at `x` covers a part of the walk around `x`,
and what `f` makes of it takes that part's place. -/
theorem updateAt_inorder (f : BinaryTree α → Option (BinaryTree α)) (h : inorder t = A ++ x :: B)
    (hA : ∀ y ∈ A, p y = false) (hx : p x = true) (hB : ∀ y ∈ B, p y = false) :
    ∃ A1 B2 l r, A = A1 ++ inorder l ∧ B = inorder r ++ B2 ∧ ∀ u, f (node x l r) = some u →
        ∃ t', updateAt p f t = some t' ∧ inorder t' = A1 ++ inorder u ++ B2 := by
  induction t generalizing A B with
  | nil => simp at h
  | node z l r ihl ihr =>
    rw [inorder_node, append_eq_append_iff] at h
    rcases h with ⟨A', hA', hr⟩ | ⟨B', hl, hB'⟩
    · cases A' with
      | nil =>
        obtain ⟨rfl, rfl⟩ : z = x ∧ inorder r = B := by simpa using hr
        refine ⟨[], [], l, r, by simpa using hA', by simp, ?_⟩
        intro u hu
        exact ⟨u, by simp [updateAt, hx, hu], by simp⟩
      | cons a A' =>
        rw [cons_append, cons.injEq] at hr
        obtain ⟨rfl, hr⟩ := hr
        obtain ⟨A1, B2, l', r', rfl, hB, hf⟩ :=
          ihr hr (fun y hy => hA y (by simp [hA', hy])) hB
        have hz : p z = false := hA z (by simp [hA'])
        have hlf : updateAt p f l = none :=
          updateAt_eq_none f fun y hy => hA y (by simp [hA', hy])
        refine ⟨inorder l ++ z :: A1, B2, l', r', by simp [hA'], hB, ?_⟩
        intro u hu
        obtain ⟨t', ht', hin⟩ := hf u hu
        exact ⟨node z l t', by simp [updateAt, hz, hlf, ht'], by simp [hin]⟩
    · cases B' with
      | nil =>
        obtain ⟨rfl, rfl⟩ : x = z ∧ B = inorder r := by simpa using hB'
        refine ⟨[], [], l, r, by simpa using hl.symm, by simp, ?_⟩
        intro u hu
        exact ⟨u, by simp [updateAt, hx, hu], by simp⟩
      | cons b B' =>
        obtain ⟨rfl, rfl⟩ := hB'
        obtain ⟨A1, B2, l', r', rfl, rfl, hf⟩ :=
          ihl hl hA fun y hy => hB y (mem_append_left _ hy)
        have hz : p z = false := hB z (by simp)
        refine ⟨A1, B2 ++ z :: inorder r, l', r', rfl, by simp, ?_⟩
        intro u hu
        obtain ⟨t', ht', hin⟩ := hf u hu
        exact ⟨node z t' r, by simp [updateAt, hz, ht'], by simp [hin]⟩

/-- Make a new node the right child of the node that satisfies `p`, in the place of
whatever was there. -/
def linkRight (p : α → Bool) (y : α) : BinaryTree α → Option (BinaryTree α) :=
  updateAt p fun
    | nil => none
    | node x l _ => some (node x l (node y nil nil))

/-- The last node has no right child to lose. -/
theorem linkRight_inorder (y : α) (h : inorder t = A ++ [x]) (hA : ∀ z ∈ A, p z = false)
    (hx : p x = true) : ∃ t', linkRight p y t = some t' ∧ inorder t' = A ++ [x, y] := by
  obtain ⟨A1, B2, l, r, rfl, hB, hf⟩ := updateAt_inorder
    (fun | nil => none | node x l _ => some (node x l (node y nil nil))) h hA hx (by simp)
  obtain ⟨hr, rfl⟩ := append_eq_nil_iff.1 hB.symm
  obtain ⟨t', ht', hin⟩ := hf _ rfl
  exact ⟨t', ht', by simp [hin]⟩

/-- Link `y` where the walk from the node that satisfies `p` ends. -/
def linkFrom (p : α → Bool) (dir : α → Option Bool) (y : α) :
    BinaryTree α → Option (BinaryTree α) :=
  updateAt p (linkAt dir y)

/-- **Linking below a node.** A new node that belongs right after `x` is linked there
by a walk from `x`, wherever `x` is in the tree. -/
theorem linkFrom_inorder {dir : α → Option Bool} (y : α)
    (h : inorder t = A ++ x :: B) (hA : ∀ z ∈ A, p z = false)
    (hx : p x = true) (hB : ∀ z ∈ B, p z = false) (hdirA : ∀ z ∈ A, dir z = some true)
    (hdi : dir x = some true) (hdirB : ∀ z ∈ B, dir z = some false) :
    ∃ t', linkFrom p dir y t = some t' ∧ inorder t' = A ++ x :: y :: B := by
  obtain ⟨A1, B2, l, r, rfl, rfl, hf⟩ := updateAt_inorder (linkAt dir y) h hA hx hB
  have hlf : ∀ z ∈ inorder l ++ [x], dir z = some true := by
    intro z hz
    rw [mem_append, mem_singleton] at hz
    rcases hz with hz | rfl
    · exact hdirA z (mem_append_right _ hz)
    · exact hdi
  obtain ⟨u, hu, hinu⟩ := linkAt_inorder y (t := node x l r) (B := inorder r) (by simp) hlf
    fun z hz => hdirB z (mem_append_left _ hz)
  obtain ⟨t', ht', hin⟩ := hf u hu
  exact ⟨t', ht', by simp [hin, hinu]⟩

/-! ### Removing a node -/

/-- The leftmost value of a tree that has `x` at its root, and the rest. -/
def popMin (x : α) : BinaryTree α → BinaryTree α → α × BinaryTree α
  | nil, r => (x, r)
  | node y l r', r => ((popMin y l r').1, node x (popMin y l r').2 r)

theorem popMin_inorder (x : α) (l r : BinaryTree α) :
    (popMin x l r).1 :: inorder (popMin x l r).2 = inorder l ++ x :: inorder r := by
  induction l generalizing x r with
  | nil => rfl
  | node y l r' ihl ihr =>
    have hmin := ihl y r'
    rw [popMin, inorder_node, inorder_node, ← hmin]
    rfl

/-- What takes the place of a removed node: its only child, or its successor, taken out
of the right subtree. -/
def join : BinaryTree α → BinaryTree α → BinaryTree α
  | nil, r => r
  | l, nil => l
  | l, node x l' r' => node (popMin x l' r').1 l (popMin x l' r').2

@[simp] theorem inorder_join (l r : BinaryTree α) :
    inorder (join l r) = inorder l ++ inorder r := by
  cases l with
  | nil => simp [join]
  | node z l1 l2 =>
    cases r with
    | nil => simp [join]
    | node x l' r' =>
      rw [join, inorder_node, popMin_inorder, inorder_node x]
      nofun

/-- Remove the node that satisfies `p`. -/
def unlink (p : α → Bool) : BinaryTree α → BinaryTree α
  | nil => nil
  | node x l r =>
    if p x then join (unlink p l) (unlink p r) else node x (unlink p l) (unlink p r)

@[simp] theorem inorder_unlink :
    inorder (unlink p t) = (inorder t).filter (!p ·) := by
  induction t with
  | nil => rfl
  | node x l r ihl ihr =>
    cases hx : p x with
    | true => simp [unlink, hx, ihl, ihr]
    | false => simp [unlink, hx, ihl, ihr]

/-! ### Rebalancing -/

/-- The reshape each call of the rebalancing code makes: the `k`th call turns a tree
into another with the same in-order walk. -/
structure Rotations (α : Type*) where
  /-- The `k`th reshape. -/
  rotate : ℕ → BinaryTree α → BinaryTree α
  /-- Rotations keep the order of the nodes. -/
  inorder_rotate : ∀ k t, inorder (rotate k t) = inorder t

attribute [simp] Rotations.inorder_rotate

def Rotations.none : Rotations α where
  rotate _ t := t
  inorder_rotate _ _ := rfl

end NestLinux.Lib
