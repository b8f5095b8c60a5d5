import NestLinux.Lib.RedBlack
import Mathlib.Data.Nat.Bitwise

/-!
# The red-black trees of the kernel

`lib/rbtree.c`: the nodes are linked by pointers to the children and to the parent, and the word
with the pointer to the parent holds the colour in its lowest bit. Insertion and removal repair
the tree in loops that walk up.

The functions run on a heap of nodes, and have no result if they follow a null pointer. The
branches for the left and for the right, which mirror each other, are one with a side.
-/

namespace NestLinux.RbTree

open Lib

/-- The nodes, by address, and the root. -/
structure Heap where
  /-- `rb_parent_color`. -/
  word : ℕ → ℕ
  /-- `rb_left` and `rb_right`. -/
  child : Side → ℕ → ℕ
  /-- `root->rb_node`. -/
  root : ℕ

/-! ### The word with the parent and the colour -/

/-- `rb_parent`. -/
def parentOf (w : ℕ) : ℕ := Nat.ldiff w 3

/-- `rb_color`; `RB_RED` is 0. -/
def colorOf (w : ℕ) : Color := if w &&& 1 = 0 then .red else .black

def colorBit : Color → ℕ
  | .red => 0
  | .black => 1

/-- `rb_set_parent`. -/
def withParent (w p : ℕ) : ℕ := (w &&& 3) ||| p

/-- `rb_set_color`. -/
def withColor (w : ℕ) (c : Color) : ℕ := Nat.ldiff w 1 ||| colorBit c

/-- `rb_set_red`. -/
def withRed (w : ℕ) : ℕ := Nat.ldiff w 1

/-- `rb_set_black`. -/
def withBlack (w : ℕ) : ℕ := w ||| 1

/-! ### Access to a node -/

def deref {α : Type} (a : ℕ) (x : α) : Option α := if a = 0 then none else some x

variable (h : Heap)

def putWord (a w : ℕ) : Heap := { h with word := Function.update h.word a w }

variable (d : Side)

def putChild (a p : ℕ) : Heap :=
  { h with child := Function.update h.child d (Function.update (h.child d) a p) }

def putRoot (p : ℕ) : Heap := { h with root := p }

/-- `rb_parent(a)`. -/
def rbParent (a : ℕ) : Option ℕ := deref a (parentOf (h.word a))

/-- `rb_color(a)`. -/
def rbColor (a : ℕ) : Option Color := deref a (colorOf (h.word a))

/-- `a->rb_left` or `a->rb_right`. -/
def rbChild (a : ℕ) : Option ℕ := deref a (h.child d a)

/-- `rb_set_parent(a, p)`. -/
def rbSetParent (a p : ℕ) : Option Heap := deref a (putWord h a (withParent (h.word a) p))

/-- `rb_set_color(a, c)`. -/
def rbSetColor (a : ℕ) (c : Color) : Option Heap := deref a (putWord h a (withColor (h.word a) c))

/-- `rb_set_red(a)`. -/
def rbSetRed (a : ℕ) : Option Heap := deref a (putWord h a (withRed (h.word a)))

/-- `rb_set_black(a)`. -/
def rbSetBlack (a : ℕ) : Option Heap := deref a (putWord h a (withBlack (h.word a)))

/-- `a->rb_left = p` or `a->rb_right = p`. -/
def rbSetChild (a p : ℕ) : Option Heap := deref a (putChild h d a p)

/-- `if (a) rb_set_parent(a, p)`. -/
def rbSetParentIf (a p : ℕ) : Option Heap := if a ≠ 0 then rbSetParent h a p else some h

/-- The link to `old` from its parent, or from the root, becomes one to `new`; the side `d` is
looked at first. -/
def replaceChild (parent old new : ℕ) : Option Heap := do
  if parent ≠ 0 then
    if (← rbChild h d parent) = old then rbSetChild h d parent new
    else rbSetChild h d.flip parent new
  else some (putRoot h new)

/-- `a && rb_is_red(a)`. -/
def isRed (a : ℕ) : Option Bool :=
  if a = 0 then some false else (rbColor h a).map fun c => decide (c = .red)

/-! ### Rotations -/

/-- `__rb_rotate_left` for the left side, `__rb_rotate_right` for the right. -/
def rotate (node : ℕ) : Option Heap := do
  let other ← rbChild h d.flip node
  let parent ← rbParent h node
  let middle ← rbChild h d other
  let h ← rbSetChild h d.flip node middle
  let h ← rbSetParentIf h middle node
  let h ← rbSetChild h d other node
  let h ← rbSetParent h other parent
  let h ← replaceChild h d parent node other
  rbSetParent h node other

/-! ### Insertion -/

/-- `rb_link_node`, with the link of the parent, or the root. -/
def rbLinkNode (node parent : ℕ) (d : Side) : Option Heap := do
  let h ← deref node (putChild (putChild (putWord h node parent) .left node 0) .right node 0)
  if parent ≠ 0 then rbSetChild h d parent node else some (putRoot h node)

/-- The branch of the loop where the uncle is not red; the result is `node`. -/
def insertRotate (node parent gparent : ℕ) : Option (Heap × ℕ) := do
  let (h, node, parent) ←
    if (← rbChild h d.flip parent) = node then (rotate h d parent).map fun h => (h, parent, node)
    else some (h, node, parent)
  let h ← rbSetBlack h parent
  let h ← rbSetRed h gparent
  let h ← rotate h d.flip gparent
  return (h, node)

/-- One pass of the loop of `rb_insert_color`; the result is `node`. -/
def insertStep (node parent gparent : ℕ) : Option (Heap × ℕ) := do
  let d := if (← rbChild h .left gparent) = parent then .left else .right
  let uncle ← rbChild h d.flip gparent
  if ← isRed h uncle then
    let h ← rbSetBlack h uncle
    let h ← rbSetBlack h parent
    let h ← rbSetRed h gparent
    return (h, gparent)
  else insertRotate h d node parent gparent

/-- The loop of `rb_insert_color`. -/
def insertLoop : ℕ → Heap → ℕ → Option Heap
  | 0, _, _ => none
  | fuel + 1, h, node => do
    let parent ← rbParent h node
    if ← isRed h parent then
      let gparent ← rbParent h parent
      let (h, node) ← insertStep h node parent gparent
      insertLoop fuel h node
    else return h

def rbInsertColor (fuel node : ℕ) : Option Heap := do
  let h ← insertLoop fuel h node
  rbSetBlack h h.root

/-! ### Removal -/

/-- The branch of the loop where a child of the sibling is red; the loop ends. -/
def eraseRotate (parent other : ℕ) : Option Heap := do
  let far ← rbChild h d.flip other
  let (h, other) ←
    if !(← isRed h far) then do
      let h ← rbSetBlack h (← rbChild h d other)
      let h ← rbSetRed h other
      let h ← rotate h d.flip other
      let other ← rbChild h d.flip parent
      pure (h, other)
    else pure (h, other)
  let h ← rbSetColor h other (← rbColor h parent)
  let h ← rbSetBlack h parent
  let h ← rbSetBlack h (← rbChild h d.flip other)
  rotate h d parent

/-- The sibling, after a rotation if it is red. -/
def eraseSibling (parent : ℕ) : Option (Heap × ℕ) := do
  let other ← rbChild h d.flip parent
  if (← rbColor h other) = .red then
    let h ← rbSetBlack h other
    let h ← rbSetRed h parent
    let h ← rotate h d parent
    let other ← rbChild h d.flip parent
    return (h, other)
  else return (h, other)

/-- The loop of `__rb_erase_color`; the result is the last `node`. -/
def eraseLoop : ℕ → Heap → ℕ → ℕ → Option (Heap × ℕ)
  | 0, _, _, _ => none
  | fuel + 1, h, node, parent => do
    if !(← isRed h node) && node ≠ h.root then
      let d := if (← rbChild h .left parent) = node then .left else .right
      let (h, other) ← eraseSibling h d parent
      let left ← rbChild h .left other
      let right ← rbChild h .right other
      if !(← isRed h left) && !(← isRed h right) then
        let h ← rbSetRed h other
        eraseLoop fuel h parent (← rbParent h parent)
      else
        let h ← eraseRotate h d parent other
        return (h, h.root)
    else return (h, node)

def rbEraseColor (fuel node parent : ℕ) : Option Heap := do
  let (h, node) ← eraseLoop fuel h node parent
  if node ≠ 0 then rbSetBlack h node else return h

/-- The loop that looks for the successor. -/
def leftmost : ℕ → ℕ → Option ℕ
  | 0, _ => none
  | fuel + 1, node => do
    let left ← rbChild h .left node
    if left ≠ 0 then leftmost fuel left else return node

/-- Takes the successor `node` out of its place; the result is the parent of that place. If `old`
itself is the parent, `node` will be. -/
def spliceSuccessor (old node child parent : ℕ) : Option (Heap × ℕ) :=
  if parent = old then some (h, node)
  else do
    let h ← rbSetParentIf h child parent
    let h ← rbSetChild h .left parent child
    let right ← rbChild h .right old
    let h ← rbSetChild h .right node right
    let h ← rbSetParent h right node
    return (h, parent)

/-- Puts the successor `node` in the place of `old`, which has two children: the child and the
parent at which the tree lacks the successor now, and its colour. -/
def replaceBySuccessor (old node : ℕ) : Option (Heap × ℕ × ℕ × Color) := do
  let h ← replaceChild h .left (← rbParent h old) old node
  let child ← rbChild h .right node
  let parent ← rbParent h node
  let color ← rbColor h node
  let (h, parent) ← spliceSuccessor h old node child parent
  let h ← deref node (putWord h node (h.word old))
  let left ← rbChild h .left old
  let h ← rbSetChild h .left node left
  let h ← rbSetParent h left node
  return (h, child, parent, color)

/-- Takes out a node with one child at most: the child, the parent, and the colour. -/
def unlinkNode (node child : ℕ) : Option (Heap × ℕ × ℕ × Color) := do
  let parent ← rbParent h node
  let color ← rbColor h node
  let h ← rbSetParentIf h child parent
  let h ← replaceChild h .left parent node child
  return (h, child, parent, color)

def rbErase (fuel node : ℕ) : Option Heap := do
  let left ← rbChild h .left node
  let right ← rbChild h .right node
  let (h, child, parent, color) ←
    if left = 0 then unlinkNode h node right
    else if right = 0 then unlinkNode h node left
    else do
      let succ ← leftmost h fuel right
      replaceBySuccessor h node succ
  if color = .black then rbEraseColor h fuel child parent else return h

end NestLinux.RbTree
