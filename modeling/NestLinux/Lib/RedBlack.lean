import Mathlib.Data.List.Basic

/-!
# Red-black trees and places in them

A red-black tree with a place in it is a tree and the path from the place up to the root, with
what hangs off the path. Insertion and removal repair a tree at such a place and move the place
up. Mirrored cases are one, by a side.
-/

namespace NestLinux.Lib

inductive Side
  | left
  | right
  deriving DecidableEq, Repr

def Side.flip : Side → Side
  | .left => .right
  | .right => .left

@[simp] theorem Side.flip_flip (d : Side) : d.flip.flip = d := by cases d <;> rfl

@[simp] theorem Side.flip_ne (d : Side) : d.flip ≠ d := by cases d <;> decide

@[simp] theorem Side.ne_flip (d : Side) : d ≠ d.flip := by cases d <;> decide

theorem Side.eq_or_eq_flip (d e : Side) : e = d ∨ e = d.flip := by cases d <;> cases e <;> decide

inductive Color
  | red
  | black
  deriving DecidableEq, Repr

theorem Color.ne_red {c : Color} : c ≠ .red ↔ c = .black := by cases c <;> decide

theorem Color.ne_black {c : Color} : c ≠ .black ↔ c = .red := by cases c <;> decide

/-- Trees with a colour and a label at each node. -/
inductive Tree (α : Type*)
  | nil
  | node (c : Color) (a : α) (l r : Tree α)

namespace Tree

variable {α : Type*} {c : Color} {a : α} {d : Side} {x y t : Tree α} {k : ℕ}

/-- The labels from left to right. -/
def inorder : Tree α → List α
  | nil => []
  | node _ a l r => l.inorder ++ a :: r.inorder

/-- The colour of the root; the empty tree counts as black. -/
def color : Tree α → Color
  | nil => .black
  | node c _ _ _ => c

/-- The node with `x` on the side `d`, and `y` on the other. -/
def join (d : Side) (c : Color) (a : α) (x y : Tree α) : Tree α :=
  match d with
  | .left => node c a x y
  | .right => node c a y x

@[simp] theorem inorder_nil : (nil : Tree α).inorder = [] := rfl

theorem inorder_join : (join d c a x y).inorder = match d with
      | .left => x.inorder ++ a :: y.inorder
      | .right => y.inorder ++ a :: x.inorder := by
  cases d <;> rfl

theorem perm_inorder_join : (join d c a x y).inorder.Perm (a :: (x.inorder ++ y.inorder)) := by
  cases d with
  | left => exact List.perm_middle
  | right =>
    exact List.perm_append_comm

@[simp] theorem color_join : (join d c a x y).color = c := by cases d <;> rfl

theorem join_flip : join d.flip c a y x = join d c a x y := by cases d <;> rfl

theorem eq_node_of_color (h : t.color = .red) : ∃ a l r, t = node .red a l r := by
  cases t with
  | nil => exact absurd h (by simp [color])
  | node c a l r => exact ⟨a, l, r, by rw [show c = .red from h]⟩

theorem join_eq_node (d : Side) (c : Color) (a : α) (x y : Tree α) :
    ∃ l r, join d c a x y = node c a l r := by
  cases d with
  | left => exact ⟨x, y, rfl⟩
  | right => exact ⟨y, x, rfl⟩

theorem exists_join (d : Side) (c : Color) (a : α) (l r : Tree α) :
    ∃ x y, node c a l r = join d c a x y := by
  cases d with
  | left => exact ⟨l, r, rfl⟩
  | right => exact ⟨r, l, rfl⟩

theorem inorder_rotate {c' : Color} {b : α} {z : Tree α} {e e' : Color} :
    (join d c' b (join d c a x y) z).inorder = (join d e a x (join d e' b y z)).inorder := by
  cases d <;> simp [inorder_join]

theorem inorder_recolor {c' : Color} : (join d c a x y).inorder = (join d c' a x y).inorder := by
  cases d <;> rfl

/-! ### Colours -/

/-- No red node has a red child, and `k` black nodes are on every path. -/
def RB : Tree α → ℕ → Prop
  | nil, k => k = 0
  | node .red _ l r, k => (RB l k ∧ l.color = .black) ∧ RB r k ∧ r.color = .black
  | node .black _ _ _, 0 => False
  | node .black _ l r, k + 1 => RB l k ∧ RB r k

theorem rb_red : RB (join d .red a x y) k ↔
    (RB x k ∧ x.color = .black) ∧ RB y k ∧ y.color = .black := by
  cases d with
  | left => rfl
  | right => exact and_comm

theorem rb_black : RB (join d .black a x y) (k + 1) ↔ RB x k ∧ RB y k := by
  cases d with
  | left => rfl
  | right => exact and_comm

theorem not_rb_black_zero : ¬ RB (join d .black a x y) 0 := by
  cases d <;> exact id

/-- A tree with a black node on every path is not empty. -/
theorem RB.exists_join (h : RB t (k + 1)) (d : Side) : ∃ c a x y, t = join d c a x y := by
  cases t with
  | nil => exact absurd h (Nat.succ_ne_zero k)
  | node c a l r =>
    obtain ⟨x, y, hxy⟩ := Tree.exists_join d c a l r
    exact ⟨c, a, x, y, hxy⟩

/-- A tree that has `k` black nodes on every path, or will have one more when its red root turns
black. -/
def Short (t : Tree α) (k : ℕ) : Prop :=
  (t.color = .black ∧ RB t k) ∨ ∃ a l r, t = node .red a l r ∧ RB l k ∧ RB r k

theorem RB.short (h : RB t k) : Short t k := by
  cases hc : t.color with
  | black => exact .inl ⟨hc, h⟩
  | red =>
    obtain ⟨a, l, r, rfl⟩ := eq_node_of_color hc
    exact .inr ⟨a, l, r, rfl, h.1.1, h.2.1⟩

/-- A red-black tree: the root is black. -/
def Valid (t : Tree α) : Prop := t.color = .black ∧ ∃ k, RB t k

end Tree

/-! ### Places -/

open Lib.Tree

/-- A node above a place: the side of the place, and the tree on the other side. -/
structure Frame (α : Type*) where
  side : Side
  color : Color
  label : α
  sibling : Tree α

variable {α : Type*} {f : Frame α} {fs : List (Frame α)} {t : Tree α} {k : ℕ}

def Frame.fill (f : Frame α) (t : Tree α) : Tree α := join f.side f.color f.label t f.sibling

def plug : List (Frame α) → Tree α → Tree α
  | [], t => t
  | f :: fs, t => plug fs (f.fill t)

def before : List (Frame α) → List α
  | [] => []
  | f :: fs =>
    match f.side with
    | .left => before fs
    | .right => before fs ++ f.sibling.inorder ++ [f.label]

def behind : List (Frame α) → List α
  | [] => []
  | f :: fs =>
    match f.side with
    | .left => f.label :: f.sibling.inorder ++ behind fs
    | .right => behind fs

theorem inorder_plug :
    (plug fs t).inorder = before fs ++ t.inorder ++ behind fs := by
  induction fs generalizing t with
  | nil => simp [plug, before, behind]
  | cons f fs ih =>
    obtain ⟨d, c, a, s⟩ := f
    rw [plug, ih]
    cases d <;> simp [Frame.fill, inorder_join, before, behind]

theorem inorder_plug_congr {t' : Tree α} (h : t.inorder = t'.inorder) :
    (plug fs t).inorder = (plug fs t').inorder := by
  rw [inorder_plug, inorder_plug, h]

theorem plug_append (fs gs : List (Frame α)) (t : Tree α) :
    plug (fs ++ gs) t = plug gs (plug fs t) := by
  induction fs generalizing t with
  | nil => rfl
  | cons f fs ih => exact ih (f.fill t)

theorem exists_plug {a : α} (h : a ∈ t.inorder) : ∃ fs c l r, t = plug fs (node c a l r) := by
  induction t with
  | nil => exact absurd h List.not_mem_nil
  | node c b l r ihl ihr =>
    simp only [inorder, List.mem_append, List.mem_cons] at h
    rcases h with hl | rfl | hr
    · obtain ⟨fs, e, x, y, rfl⟩ := ihl hl
      refine ⟨fs ++ [⟨.left, c, b, r⟩], e, x, y, ?_⟩
      rw [plug_append]
      rfl
    · exact ⟨[], c, l, r, rfl⟩
    obtain ⟨fs, e, x, y, rfl⟩ := ihr hr
    refine ⟨fs ++ [⟨.right, c, b, l⟩], e, x, y, ?_⟩
    rw [plug_append]
    rfl

theorem exists_plug_left (h : t ≠ nil) :
    ∃ fs c a r, t = plug fs (node c a nil r) ∧ ∀ f ∈ fs, f.side = .left := by
  induction t with
  | nil => exact absurd rfl h
  | node c b l r ihl =>
    by_cases hl : l = nil
    · exact ⟨[], c, b, r, by rw [hl]; rfl, by simp⟩
    obtain ⟨fs, e, a, x, rfl, hlf⟩ := ihl hl
    refine ⟨fs ++ [⟨.left, c, b, r⟩], e, a, x, ?_, fun f hf => ?_⟩
    · rw [plug_append]
      rfl
    rcases List.mem_append.1 hf with hf | hf
    · exact hlf f hf
    · rw [List.mem_singleton.1 hf]

/-- Nothing is before a place on the left edge. -/
theorem before_of_left {fs : List (Frame α)} (h : ∀ f ∈ fs, f.side = .left) : before fs = [] := by
  induction fs with
  | nil => rfl
  | cons f fs ih =>
    rw [before, h f List.mem_cons_self]
    exact ih fun g hg => h g (List.mem_cons_of_mem f hg)

/-- The colour above a place. The root has to be black, as if it had a red node above. -/
def topColor : List (Frame α) → Color
  | [] => .red
  | f :: _ => f.color

/-- The colours along a path, below which there are `k` black nodes. -/
def Fits : List (Frame α) → ℕ → Prop
  | [], _ => True
  | ⟨_, .red, _, s⟩ :: fs, k => (RB s k ∧ s.color = .black) ∧ topColor fs = .black ∧ Fits fs k
  | ⟨_, .black, _, s⟩ :: fs, k => RB s k ∧ Fits fs (k + 1)

theorem Fits.sibling {d : Side} {c : Color} {a : α} {s : Tree α} {fs : List (Frame α)} {k : ℕ}
    (h : Fits (⟨d, c, a, s⟩ :: fs) k) : RB s k := by
  cases c with
  | red => exact h.1.1
  | black => exact h.1

theorem Fits.relabel {d : Side} {c : Color} {a : α} {s : Tree α} {fs gs : List (Frame α)} {k : ℕ}
    (h : Fits (gs ++ ⟨d, c, a, s⟩ :: fs) k) (b : α) : Fits (gs ++ ⟨d, c, b, s⟩ :: fs) k := by
  induction gs generalizing k with
  | nil => cases c <;> exact h
  | cons g gs ih =>
    obtain ⟨e, c', a', s'⟩ := g
    cases c' with
    | red =>
      refine ⟨h.1, ?_, ih h.2.2⟩
      cases gs <;> exact h.2.1
    | black => exact ⟨h.1, ih h.2⟩

theorem fits_of_plug {fs : List (Frame α)} {t : Tree α} {j : ℕ} (hj : RB (plug fs t) j)
    (hro : (plug fs t).color = .black) :
    ∃ k, Fits fs k ∧ RB t k ∧ (topColor fs = .red → t.color = .black) := by
  induction fs generalizing t with
  | nil => exact ⟨j, trivial, hj, fun _ => hro⟩
  | cons f fs ih =>
    obtain ⟨k, hft, hrb, ht⟩ := ih hj hro
    obtain ⟨d, c, a, s⟩ := f
    cases c with
    | red =>
      rw [Frame.fill, rb_red] at hrb
      refine ⟨k, ⟨hrb.2, ?_, hft⟩, hrb.1.1, fun _ => hrb.1.2⟩
      by_contra hne
      rw [← Color.ne_red, not_not] at hne
      have hfl := ht hne
      rw [Frame.fill] at hfl
      exact absurd hfl (by simp)
    | black =>
      cases k with
      | zero => exact absurd hrb not_rb_black_zero
      | succ k =>
        rw [Frame.fill, rb_black] at hrb
        exact ⟨k, ⟨hrb.2, hft⟩, hrb.1, fun h => absurd h (by simp [topColor])⟩

/-- A tree that fits makes a red-black tree. -/
theorem Fits.valid (h : Fits fs k) (hrb : RB t k) (ht : topColor fs = .red → t.color = .black) :
    Valid (plug fs t) := by
  induction fs generalizing t k with
  | nil => exact ⟨ht rfl, k, hrb⟩
  | cons f fs ih =>
    obtain ⟨d, c, a, s⟩ := f
    cases c with
    | red =>
      refine ih h.2.2 (rb_red.2 ⟨⟨hrb, ht rfl⟩, h.1⟩) fun hred => ?_
      rw [h.2.1] at hred
      cases hred
    | black => exact ih h.2 (rb_black.2 ⟨hrb, h.1⟩) fun _ => color_join

end NestLinux.Lib
