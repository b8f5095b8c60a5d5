import NestLinux.Lib.SearchTree
import NestLinux.Lib.Word32

/-!
# The JFFS2 fragment tree

`fs/jffs2/nodelist.c`: the tree that says, for every byte of a file, which data node on
the flash holds it. A fragment is a range of the file together with the node it comes
from, or with no node where the file has a hole.

A fragment and a node are heap objects of the C code, named by an `id`; a fragment in
the tree is the current contents of the object with its `id`. `none` as the result of
an operation is a `BUG()`, a null pointer followed or a loop that does not end.
-/

namespace NestLinux.Jffs2

open BinaryTree Lib Function

/-- The low bits of `flash_offset` of a node's `raw` reference. -/
inductive RefFlags
  | unchecked
  | obsolete
  | pristine
  | normal
  deriving DecidableEq, Repr

/-- `struct jffs2_full_dnode`: the range of the file a data node holds. -/
structure FullDnode where
  id : ℕ
  ofs : ℕ
  size : ℕ
  deriving DecidableEq, Repr

/-- `struct jffs2_node_frag`; a fragment without a node is a hole. -/
structure Frag where
  id : ℕ
  ofs : ℕ
  size : ℕ
  node : Option FullDnode
  deriving DecidableEq, Repr

/-- The tree of an inode, with what the code keeps outside it. -/
structure Fragtree where
  tree : BinaryTree Frag
  /-- The `id` of the next fragment allocated. -/
  nextId : ℕ
  /-- How many times the tree was rebalanced. -/
  rotations : ℕ
  /-- `frags` of each data node. -/
  frags : ℕ → ℕ
  /-- `ref_flags(raw)` of each data node. -/
  flags : ℕ → RefFlags

/-- No fragment yet; the nodes have the flags the scan of the flash gave them. -/
def Fragtree.empty (flags : ℕ → RefFlags) : Fragtree := ⟨nil, 0, 0, fun _ => 0, flags⟩

/-- `-ENOMEM`. -/
def enomem : ℤ := -12

def pageCacheShift : ℕ := 12

def pageCacheSize : ℕ := 2 ^ pageCacheShift

/-- `frag->ofs + frag->size`. -/
def fragEnd (f : Frag) : ℕ := add32 f.ofs f.size

/-- A pointer to the fragment object `f`. -/
def isFrag (f : Frag) : Frag → Bool := sameKey Frag.id f

def fragNext (f : Frag) (s : Fragtree) : Option Frag := nextAfter (isFrag f) (inorder s.tree)

def fragPrev (f : Frag) (s : Fragtree) : Option Frag := prevBefore (isFrag f) (inorder s.tree)

def fragLast (s : Fragtree) : Option Frag := (inorder s.tree).getLast?

/-- Store the new fields of a fragment object of the tree. -/
def setFrag (f : Frag) (s : Fragtree) : Fragtree :=
  { s with tree := s.tree.map fun g => if isFrag f g then f else g }

/-- `rb_replace_node`. -/
def replaceFrag (old new : Frag) (s : Fragtree) : Fragtree :=
  { s with tree := s.tree.map fun g => if isFrag old g then new else g }

variable (rot : Rotations Frag)

/-- The reshaping done by `rb_insert_color` after a node was linked, or by `rb_erase`
after a node was taken out. -/
def rebalance (s : Fragtree) (t : BinaryTree Frag) : Fragtree :=
  { s with tree := rot.rotate s.rotations t, rotations := s.rotations + 1 }

/-- `rb_erase`. -/
def fragErase (f : Frag) (s : Fragtree) : Fragtree :=
  rebalance rot s (unlink (isFrag f) s.tree)

/-- `mark_ref_normal(fn->raw)`. -/
def markRefNormal (fn : FullDnode) (s : Fragtree) : Fragtree :=
  { s with flags := update s.flags fn.id .normal }

/-- `if (this->node) mark_ref_normal(this->node->raw)`. -/
def markNodeNormal (node : Option FullDnode) (s : Fragtree) : Fragtree :=
  node.elim s (markRefNormal · s)

/-- The loop of `jffs2_lookup_node_frag`, with the closest smaller fragment met so far. -/
def lookupLoop (offset : ℕ) : BinaryTree Frag → Option Frag → Option Frag
  | nil, prev => prev
  | node frag left right, prev =>
    if fragEnd frag ≤ offset then
      -- remember the closest smaller match on the way down
      lookupLoop offset right (if prev.all (·.ofs < frag.ofs) then some frag else prev)
    else if offset < frag.ofs then lookupLoop offset left prev
    else some frag

/-- `jffs2_lookup_node_frag`. -/
def lookupNodeFrag (s : Fragtree) (offset : ℕ) : Option Frag := lookupLoop offset s.tree none

/-- `jffs2_obsolete_node_frag`. -/
def obsoleteNodeFrag (this : Frag) (s : Fragtree) : Fragtree :=
  match this.node with
  | none => s
  | some fn =>
    let frags := sub32 (s.frags fn.id) 1
    let s := { s with frags := update s.frags fn.id frags }
    if frags = 0 then { s with flags := update s.flags fn.id .obsolete }
    else markRefNormal fn s

/-- The comparison of `jffs2_fragtree_insert`: right, left, or `BUG()` on a duplicate. -/
def insertDir (newfrag base : Frag) : Option Bool :=
  if base.ofs < newfrag.ofs then some true
  else if newfrag.ofs < base.ofs then some false
  else none

/-- `jffs2_fragtree_insert`, followed by `rb_insert_color`. -/
def fragtreeInsert (newfrag base : Frag) (s : Fragtree) : Option Fragtree :=
  (linkFrom (isFrag base) (insertDir newfrag) newfrag s.tree).map (rebalance rot s)

def newFragment (alloc : Bool) (fn : Option FullDnode) (ofs size : ℕ) (s : Fragtree) :
    Option Frag × Fragtree :=
  if alloc then (some ⟨s.nextId, ofs, size, fn⟩, { s with nextId := s.nextId + 1 })
  else (none, s)

/-- Link a fragment at the right of the last one, or at the root where there is none. -/
def linkLast (this : Option Frag) (newfrag : Frag) (s : Fragtree) : Option Fragtree :=
  match this with
  | some this => (linkRight (isFrag this) newfrag s.tree).map (rebalance rot s)
  | none => some (rebalance rot s (node newfrag nil nil))

/-- `no_overlapping_node`; `fn` is `newfrag->node`. -/
def noOverlappingNode (alloc : Bool) (newfrag : Frag) (fn : FullDnode)
    (this : Option Frag) (lastend : ℕ) (s : Fragtree) : Option (ℤ × Fragtree) :=
  if lastend < fn.ofs then
    -- put a hole in before the new fragment
    match newFragment alloc none lastend (sub32 fn.ofs lastend) s with
    | (none, s) => some (enomem, s)
    | (some holefrag, s) => do
        let s ← linkLast rot this holefrag s
        let s ← linkLast rot (some holefrag) newfrag s
        some (0, s)
  else do
    let s ← linkLast rot this newfrag s
    some (0, s)

/-- The loop of `jffs2_add_frag_to_fragtree` that removes the fragments the new one
covers, and the first fragment it leaves. -/
def obsoleteCovered (rot : Rotations Frag) (newfrag : Frag) :
    ℕ → Fragtree → Option (Option Frag × Fragtree)
  | 0, _ => none
  | fuel + 1, s =>
    match fragNext newfrag s with
    | none => some (none, s)
    | some this =>
      if fragEnd this ≤ fragEnd newfrag then
        obsoleteCovered rot newfrag fuel (obsoleteNodeFrag this (fragErase rot this s))
      else some (some this, s)

/-- The end of `jffs2_add_frag_to_fragtree`, once the new fragment is in the tree. -/
def trimFollowing (newfrag : Frag) (fn : FullDnode) (s : Fragtree) :
    Option (ℤ × Fragtree) := do
  let (this, s) ← obsoleteCovered rot newfrag (s.tree.numNodes + 1) s
  match this with
  | none => some (0, s)
  | some this =>
    if fragEnd newfrag = this.ofs then some (0, s)
    else
      -- still some overlap, but it does not move in the tree
      let size := sub32 (fragEnd this) (fragEnd newfrag)
      let s := setFrag { this with ofs := fragEnd newfrag, size := size } s
      some (0, markRefNormal fn (markNodeNormal this.node s))

/-- The part of `jffs2_add_frag_to_fragtree` for a new fragment that starts inside the
fragment `this`. -/
def overlapNode (alloc : Bool) (newfrag : Frag) (fn : FullDnode)
    (this : Frag) (s : Fragtree) : Option (ℤ × Fragtree) :=
  if this.ofs < newfrag.ofs then
    -- the start of it remains valid
    let s := markNodeNormal this.node (markRefNormal fn s)
    if fragEnd newfrag < fragEnd this then
      -- the new node splits it into two
      let size2 := sub32 (sub32 (fragEnd this) newfrag.ofs) newfrag.size
      match newFragment alloc this.node (fragEnd newfrag) size2 s with
      | (none, s) => some (enomem, s)
      | (some newfrag2, s) => do
          let frags := this.node.elim s.frags fun node =>
            update s.frags node.id (add32 (s.frags node.id) 1)
          let s := { s with frags := frags }
          let this := { this with size := sub32 newfrag.ofs this.ofs }
          let s := setFrag this s
          let s ← fragtreeInsert rot newfrag this s
          let s ← fragtreeInsert rot newfrag2 newfrag s
          some (0, s)
    else do
      let this := { this with size := sub32 newfrag.ofs this.ofs }
      let s := setFrag this s
      let s ← fragtreeInsert rot newfrag this s
      trimFollowing rot newfrag fn s
  else
    let s := replaceFrag this newfrag s
    if fragEnd this ≤ fragEnd newfrag then
      trimFollowing rot newfrag fn (obsoleteNodeFrag this s)
    else do
      let this :=
        { this with ofs := add32 this.ofs newfrag.size, size := sub32 this.size newfrag.size }
      let s ← fragtreeInsert rot this newfrag s
      some (0, s)

/-- `jffs2_add_frag_to_fragtree`; `fn` is `newfrag->node`. -/
def addFragToFragtree (alloc : Bool) (newfrag : Frag) (fn : FullDnode)
    (s : Fragtree) : Option (ℤ × Fragtree) :=
  let this := lookupNodeFrag s fn.ofs
  let lastend := this.elim 0 fragEnd
  if lastend ≤ newfrag.ofs then
    -- ran off the end of the tree
    let samePage :=
      lastend ≠ 0 ∧ (lastend - 1) >>> pageCacheShift = newfrag.ofs >>> pageCacheShift
    let s :=
      if samePage then markRefNormal fn (markNodeNormal (this.bind (·.node)) s) else s
    noOverlappingNode rot alloc newfrag fn this lastend s
  else do
    let this ← this
    overlapNode rot alloc newfrag fn this s

/-- Where the new fragment starts inside a page, it shares it with the one before, and the
collector has to look at both. -/
def markPrevPage (newfrag : Frag) (fn : FullDnode) (s : Fragtree) : Option Fragtree :=
  if newfrag.ofs &&& (pageCacheSize - 1) ≠ 0 then
    -- if it does not start at zero there is always a previous one
    (fragPrev newfrag s).map fun prev => markNodeNormal prev.node (markRefNormal fn s)
  else some s

/-- Where it ends inside a page, it shares it with the next one, if there is one. -/
def markNextPage (newfrag : Frag) (fn : FullDnode) (s : Fragtree) : Fragtree :=
  if fragEnd newfrag &&& (pageCacheSize - 1) ≠ 0 then
    (fragNext newfrag s).elim s fun next => markNodeNormal next.node (markRefNormal fn s)
  else s

/-- `jffs2_add_full_dnode_to_inode`; `alloc1` and `alloc2` say whether the first and the
second allocation of the call succeed. -/
def addFullDnodeToInode (alloc1 alloc2 : Bool) (fn : FullDnode)
    (s : Fragtree) : Option (ℤ × Fragtree) :=
  if fn.size = 0 then some (0, s)
  else
    match newFragment alloc1 (some fn) fn.ofs fn.size s with
    | (none, s) => some (enomem, s)
    | (some newfrag, s) => do
        let s := { s with frags := update s.frags fn.id 1 }
        let (ret, s) ← addFragToFragtree rot alloc2 newfrag fn s
        if ret ≠ 0 then some (ret, s)
        else do
          let s ← markPrevPage newfrag fn s
          some (0, markNextPage newfrag fn s)

/-- The loop of `jffs2_truncate_fragtree`, from the fragment `frag` on. -/
def eraseFrom (rot : Rotations Frag) (size : ℕ) : ℕ → Option Frag → Fragtree → Option Fragtree
  | 0, _, _ => none
  | _ + 1, none, s => some s
  | fuel + 1, some frag, s =>
    if size ≤ frag.ofs then
      let next := fragNext frag s
      eraseFrom rot size fuel next (obsoleteNodeFrag frag (fragErase rot frag s))
    else some s

/-- The start of `jffs2_truncate_fragtree`: cut the fragment that crosses the new size, and
find the first one behind it. -/
def truncateCut (size : ℕ) (s : Fragtree) : Option Frag × Fragtree :=
  match lookupNodeFrag s size with
  | none => (none, s)
  | some frag =>
    if frag.ofs ≠ size then
      let s :=
        if size < fragEnd frag then setFrag { frag with size := sub32 size frag.ofs } s else s
      (fragNext frag s, s)
    else (some frag, s)

/-- The end of `jffs2_truncate_fragtree`: the size of the file, and a mark on its last
fragment if that starts at a page boundary. -/
def truncateMark (size : ℕ) (s : Fragtree) : ℕ × Fragtree :=
  if size = 0 then (0, s)
  else
    match fragLast s with
    | none => (0, s)
    | some frag =>
      if fragEnd frag < size then (fragEnd frag, s)
      else
        match frag.node with
        | some fn =>
          if frag.ofs &&& (pageCacheSize - 1) = 0 then
            (size, { s with flags := update s.flags fn.id .pristine })
          else (size, s)
        | none => (size, s)

/-- `jffs2_truncate_fragtree`. -/
def truncateFragtree (size : ℕ) (s : Fragtree) :
    Option (ℕ × Fragtree) := do
  let (frag, s) := truncateCut size s
  let s ← eraseFrom rot size (s.tree.numNodes + 1) frag s
  some (truncateMark size s)

end NestLinux.Jffs2
