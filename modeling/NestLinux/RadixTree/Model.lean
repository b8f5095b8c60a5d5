import NestLinux.Lib.BlockSearch

/-!
# The radix tree

`lib/radix-tree.c`: a map from 32-bit indices to items, with tags. A tree of height `h` has
nodes of 64 slots on `h` levels, selected by six bits of the index each; a tree of height 0
is an item at index 0 or nothing. A tag of a slot is meant to be set where an item below it
carries the tag.

A pointer is what it points to. A loop down the tree is a recursion on the height; what
the C code writes on the way back up the path is what the recursion returns. Allocations
succeed or fail as an oracle says; a new node is zeroed. What is read through a pointer of
the wrong kind is null.
-/

namespace NestLinux.RadixTree

open Lib Function

/-- `RADIX_TREE_MAP_SIZE`: `1 << RADIX_TREE_MAP_SHIFT`, with a shift of 6. -/
def mapSize : ℕ := 64

/-- `RADIX_TREE_MAX_PATH`. -/
def maxPath : ℕ := 6

/-- A tag below `RADIX_TREE_MAX_TAGS`. -/
abbrev Tag := Fin 3

/-- A slot: null, an item, or a `struct radix_tree_node`. -/
inductive Slot (α : Type*)
  | null
  | item (a : α)
  | node (height count : ℕ) (tags : Tag → ℕ → Bool) (slots : ℕ → Slot α)

/-- `struct radix_tree_root`. The tags are kept in `gfp_mask`. -/
structure Root (α : Type*) where
  height : ℕ
  rnode : Slot α
  tags : Tag → Bool

/-- `INIT_RADIX_TREE`. -/
def emptyRoot (α : Type*) : Root α := { height := 0, rnode := .null, tags := fun _ => false }

/-- `(index >> shift) & RADIX_TREE_MAP_MASK`, with the shift of the level above `h` others. -/
def offset (index h : ℕ) : ℕ := index / mapSize ^ h % mapSize

def radixTreeMaxindex (height : ℕ) : ℕ :=
  if 32 ≤ 6 * height then 2 ^ 32 - 1 else mapSize ^ height - 1

variable {α : Type*}

namespace Slot

def isNull : Slot α → Bool
  | .null => true
  | _ => false

/-- The item in a slot of the lowest level. -/
def item? : Slot α → Option α
  | .item a => some a
  | _ => none

/-- `node->slots[i]`. -/
def child : Slot α → ℕ → Slot α
  | .node _ _ _ slots, i => slots i
  | _, _ => .null

/-- `node->height`. -/
def height : Slot α → ℕ
  | .node height _ _ _ => height
  | _ => 0

/-- `node->count`. -/
def count : Slot α → ℕ
  | .node _ count _ _ => count
  | _ => 0

/-- `tag_get`. -/
def tag : Slot α → Tag → ℕ → Bool
  | .node _ _ tags _, t, i => tags t i
  | _, _, _ => false

variable (s : Slot α)

def anyTagSet (t : Tag) : Bool := (List.range mapSize).any fun i => s.tag t i

/-- `tag_set` and `tag_clear`. -/
def setTag (t : Tag) (i : ℕ) (b : Bool) : Slot α :=
  match s with
  | .node height count tags slots => .node height count (update tags t (update (tags t) i b)) slots
  | s => s

/-- The node with what slot `i` points to changed. -/
def put (i : ℕ) (c : Slot α) : Slot α :=
  match s with
  | .node height count tags slots => .node height count tags (update slots i c)
  | s => s

/-- The node with slot `i` pointing to something, counted if it was null. -/
def link (i : ℕ) (c : Slot α) : Slot α :=
  match s with
  | .node height count tags slots =>
    .node height (if (slots i).isNull && !c.isNull then count + 1 else count) tags
      (update slots i c)
  | s => s

/-- The node with slot `i` null, and counted one less. -/
def unlink (i : ℕ) : Slot α :=
  match s with
  | .node height count tags slots => .node height (count - 1) tags (update slots i .null)
  | s => s

end Slot

/-- `radix_tree_node_alloc`: a zeroed node, with its height set. -/
def newNode (α : Type*) (height : ℕ) : Slot α :=
  .node height 0 (fun _ _ => false) (fun _ => .null)

/-! ## Lookup -/

/-- The loop of `radix_tree_lookup_element`. -/
def lookupWalk (index : ℕ) : ℕ → Slot α → Option α
  | 0, s => s.item?
  | h + 1, s => lookupWalk index h (s.child (offset index h))

def radixTreeLookup (root : Root α) (index : ℕ) : Option α :=
  match root.rnode with
  | .null => none
  | .item a => if 0 < index then none else some a
  | .node height count tags slots =>
    if radixTreeMaxindex height < index then none
    else lookupWalk index height (.node height count tags slots)

/-! ## Insert -/

/-- What `radix_tree_insert` returns. `bug` is one of its `BUG_ON`. -/
inductive InsertResult
  | ok
  | eexist
  | enomem
  | bug
  deriving DecidableEq, Repr

/-- Which allocations succeed, by the height of the node: those of `radix_tree_extend`, and
those of the walk down. -/
structure Allocs where
  extend : ℕ → Bool
  walk : ℕ → Bool

/-- The loop of `radix_tree_extend` that finds the height. -/
def neededHeight (index : ℕ) : ℕ → ℕ → ℕ
  | 0, height => height
  | n + 1, height =>
    if radixTreeMaxindex height < index then neededHeight index n (height + 1) else height

/-- The loop of `radix_tree_extend` that adds levels: whether it succeeds, and the root. -/
def extendLoop (alloc : ℕ → Bool) : ℕ → Root α → Bool × Root α
  | 0, root => (true, root)
  | n + 1, root =>
    if alloc (root.height + 1) then
      extendLoop alloc n
        { root with
          height := root.height + 1
          rnode := .node (root.height + 1) 1 (fun t i => decide (i = 0) && root.tags t)
            (update (fun _ => .null) 0 root.rnode) }
    else (false, root)

def radixTreeExtend (alloc : ℕ → Bool) (root : Root α) (index : ℕ) : Bool × Root α :=
  let height := neededHeight index maxPath (root.height + 1)
  if root.rnode.isNull then (true, { root with height := height })
  else extendLoop alloc (height - root.height) root

/-- An item was stored where a tag is set: `BUG_ON`. -/
def checkTags (r : InsertResult) (tag0 tag1 : Bool) : InsertResult :=
  if r = .ok ∧ (tag0 || tag1) then .bug else r

/-- The loop of `radix_tree_insert`, and what is stored below it. -/
def insertWalk (alloc : ℕ → Bool) (index : ℕ) (a : α) : ℕ → Slot α → InsertResult × Slot α
  | 0, s => if s.isNull then (.ok, .item a) else (.eexist, s)
  | h + 1, s =>
    if s.isNull && !alloc (h + 1) then (.enomem, s)
    else
      let node := if s.isNull then newNode α (h + 1) else s
      let i := offset index h
      let r := insertWalk alloc index a h (node.child i)
      (if h = 0 then checkTags r.1 (node.tag 0 i) (node.tag 1 i) else r.1, node.link i r.2)

def radixTreeInsert (alloc : Allocs) (root : Root α) (index : ℕ) (a : α) : InsertResult × Root α :=
  let e := if radixTreeMaxindex root.height < index then radixTreeExtend alloc.extend root index
    else (true, root)
  if !e.1 then (.enomem, e.2)
  else
    let root := e.2
    let r := insertWalk alloc.walk index a root.height root.rnode
    (if root.height = 0 then checkTags r.1 (root.tags 0) (root.tags 1) else r.1,
      { root with rnode := r.2 })

/-! ## Tags -/

/-- The loop of `radix_tree_tag_set`; none is its `BUG_ON`. -/
def setWalk (index : ℕ) (t : Tag) : ℕ → Slot α → Option (Slot α)
  | 0, s => some s
  | h + 1, s =>
    let i := offset index h
    if (s.child i).isNull then none
    else
      match setWalk index t h (s.child i) with
      | none => none
      | some c => some ((s.setTag t i true).put i c)

/-- `radix_tree_tag_set`; none is one of its `BUG_ON`. -/
def radixTreeTagSet (root : Root α) (index : ℕ) (t : Tag) : Option (Root α) :=
  if radixTreeMaxindex root.height < index then none
  else
    match setWalk index t root.height root.rnode with
    | none => none
    | some rnode =>
      some { root with
        rnode := rnode
        tags := if rnode.isNull then root.tags else update root.tags t true }

/-- The loop of `radix_tree_tag_clear` up the path. It goes on where the tag was set and no
other slot of the node has it. -/
def clearWalk (index : ℕ) (t : Tag) : ℕ → Slot α → Slot α × Bool
  | 0, s => (s, true)
  | h + 1, s =>
    let i := offset index h
    let c := clearWalk index t h (s.child i)
    let s := s.put i c.1
    if c.2 && s.tag t i then
      let s := s.setTag t i false
      (s, !s.anyTagSet t)
    else (s, false)

/-- `radix_tree_tag_clear`: the item, and the root. -/
def radixTreeTagClear (root : Root α) (index : ℕ) (t : Tag) : Option α × Root α :=
  if radixTreeMaxindex root.height < index then (none, root)
  else
    match lookupWalk index root.height root.rnode with
    | none => (none, root)
    | some a =>
      let c := clearWalk index t root.height root.rnode
      (some a, { root with
        rnode := c.1
        tags := if c.2 then update root.tags t false else root.tags })

/-! ## Delete -/

/-- `tag_get` of the lowest node on the path of an index. -/
def leafTag (index : ℕ) (t : Tag) : ℕ → Slot α → Bool
  | 0, _ => false
  | 1, s => s.tag t (offset index 0)
  | h + 2, s => leafTag index t (h + 1) (s.child (offset index (h + 1)))

/-- Clear a tag of an item that is deleted. -/
def clearIfTagged (index : ℕ) (root : Root α) (t : Tag) : Root α :=
  if leafTag index t root.height root.rnode then (radixTreeTagClear root index t).2 else root

/-- Clear all tags associated with the just-deleted item. -/
def clearAllTags (index : ℕ) (root : Root α) : Root α :=
  clearIfTagged index (clearIfTagged index (clearIfTagged index root 0) 1) 2

/-- The loop of `radix_tree_delete` that frees the nodes not needed any more: what is left
of a node, and whether the loop ends there. -/
def unlinkWalk (index : ℕ) : ℕ → Slot α → Slot α × Bool
  | 0, _ => (.null, false)
  | h + 1, s =>
    let i := offset index h
    let c := unlinkWalk index h (s.child i)
    if c.1.isNull then
      let s := s.unlink i
      if s.count = 0 then (.null, false) else (s, true)
    else (s.put i c.1, false)

/-- `radix_tree_shrink`: the height and the top node. -/
def radixTreeShrink : ℕ → Slot α → ℕ × Slot α
  | 0, s => (0, s)
  | h + 1, s =>
    if s.count ≠ 1 ∨ (s.child 0).isNull then (h + 1, s) else radixTreeShrink h (s.child 0)

/-- `radix_tree_delete`: the item, and the root. -/
def radixTreeDelete (root : Root α) (index : ℕ) : Option α × Root α :=
  if radixTreeMaxindex root.height < index then (none, root)
  else if root.height = 0 then (root.rnode.item?, emptyRoot α)
  else
    match lookupWalk index root.height root.rnode with
    | none => (none, root)
    | some a =>
      let root := clearAllTags index root
      let u := unlinkWalk index root.height root.rnode
      if u.1.isNull then (some a, emptyRoot α)
      else if u.2 then
        let k := radixTreeShrink root.height u.1
        (some a, { root with height := k.1, rnode := k.2 })
      else (some a, { root with rnode := u.1 })

/-! ## Gang lookup -/

/-- `__lookup`: the items, and the index of the next search. -/
def lookupNode (room : ℕ) : ℕ → Slot α → ℕ → List α × ℕ
  | 0, _, index => ([], index)
  | 1, s, index =>
    -- Bottom level: grab some items
    takeFrom (2 ^ 32) mapSize (fun i => (s.child i).item?) (mapSize - offset index 0) index room
  | h + 2, s, index =>
    match skipTo (2 ^ 32) mapSize (fun i => !(s.child i).isNull) (h + 1)
        (mapSize - offset index (h + 1)) index with
    | (none, index) => ([], index)
    | (some i, index) => lookupNode room (h + 1) (s.child i) index

/-- `radix_tree_gang_lookup`, with a bound on the turns of its loop. -/
def radixTreeGangLookup (n : ℕ) (root : Root α) (first max : ℕ) : Option (List α) :=
  match root.rnode with
  | .null => some []
  | .item a => if 0 < first then some [] else some [a]
  | .node height count tags slots =>
    collect (fun room => lookupNode room height (.node height count tags slots))
      (radixTreeMaxindex height) max n [] first

/-- `__lookup_tag`: the items, and the index of the next search. -/
def lookupTag (t : Tag) (room : ℕ) : ℕ → Slot α → ℕ → List α × ℕ
  | 0, _, index => ([], index)
  | h + 1, s, index =>
    match skipTo (2 ^ 32) mapSize (s.tag t) h (mapSize - offset index h) index with
    | (none, index) => ([], index)
    | (some i, index) =>
      if h = 0 then
        -- Bottom level: grab some items
        takeFrom (2 ^ 32) mapSize (fun j => if s.tag t j then (s.child j).item? else none)
          (mapSize - offset index 0) index room
      else if (s.child i).isNull then ([], index)
      else lookupTag t room h (s.child i) index

/-- `radix_tree_gang_lookup_tag`, with a bound on the turns of its loop. -/
def radixTreeGangLookupTag (n : ℕ) (root : Root α) (t : Tag) (first max : ℕ) : Option (List α) :=
  if !root.tags t then some []
  else
    match root.rnode with
    | .null => some []
    | .item a => if 0 < first then some [] else some [a]
    | .node height count tags slots =>
      collect (fun room => lookupTag t room height (.node height count tags slots))
        (radixTreeMaxindex height) max n [] first

/-! ## Bulk tagging -/

/-- The node of a level on the path of an index. -/
def nodeAt (index level : ℕ) : ℕ → Slot α → Slot α
  | 0, s => s
  | h + 1, s => if h + 1 = level then s else nodeAt index level h (s.child (offset index h))

/-- Tag the leaf, and walk back up the path tagging interior nodes until one has the tag. -/
def tagPath (index : ℕ) (t : Tag) : ℕ → Slot α → Slot α × Bool
  | 0, s => (s, true)
  | 1, s => (s.setTag t (offset index 0) true, true)
  | h + 2, s =>
    let i := offset index (h + 1)
    let c := tagPath index t (h + 1) (s.child i)
    let s := s.put i c.1
    if c.2 then (if s.tag t i then (s, false) else (s.setTag t i true, true)) else (s, false)

/-- Go up while the index is at the first slot of a node. -/
def climb (index : ℕ) : ℕ → ℕ → ℕ
  | 0, level => level
  | n + 1, level => if offset index (level - 1) = 0 then climb index n (level + 1) else level

/-- What the loop of `radix_tree_range_tag_if_tagged` changes. The path it keeps is that of
the index. -/
structure TagScan (α : Type*) where
  rnode : Slot α
  index : ℕ
  level : ℕ
  tagged : ℕ

/-- The loop of `radix_tree_range_tag_if_tagged` on a tree of some height, with a bound on
its turns. -/
def rangeTagLoop (height last nr : ℕ) (iftag settag : Tag) : ℕ → TagScan α → Option (TagScan α)
  | 0, _ => none
  | n + 1, s =>
    let node := nodeAt s.index s.level height s.rnode
    let i := offset s.index (s.level - 1)
    let hit := !(node.child i).isNull && node.tag iftag i
    if hit && decide (1 < s.level) then
      -- go down one level
      rangeTagLoop height last nr iftag settag n { s with level := s.level - 1 }
    else
      let s : TagScan α :=
        if hit then
          { s with
            tagged := s.tagged + 1
            rnode := (tagPath s.index settag height s.rnode).1 }
        else s
      -- go to next item at this level
      let size := mapSize ^ (s.level - 1)
      let index := (s.index / size + 1) * size % 2 ^ 32
      if last < index ∨ index = 0 ∨ nr ≤ s.tagged then some { s with index := index }
      else
        rangeTagLoop height last nr iftag settag n
          { s with index := index, level := climb index maxPath s.level }

/-- `radix_tree_range_tag_if_tagged`, with a bound on the turns of its loop: the number of
items tagged, the first index not scanned, and the root. -/
def radixTreeRangeTagIfTagged (n : ℕ) (root : Root α) (first last nr : ℕ) (iftag settag : Tag) :
    Option (ℕ × ℕ × Root α) :=
  let last := min last (radixTreeMaxindex root.height)
  if last < first then some (0, first, root)
  else if nr = 0 then some (0, first, root)
  else if !root.tags iftag then some (0, (last + 1) % 2 ^ 32, root)
  else if root.height = 0 then
    some (1, (last + 1) % 2 ^ 32, { root with tags := update root.tags settag true })
  else
    match rangeTagLoop root.height last nr iftag settag n
        { rnode := root.rnode, index := first, level := root.height, tagged := 0 } with
    | none => none
    | some s => some (s.tagged, s.index,
        { root with rnode := s.rnode, tags := update root.tags settag true })

def pagecacheTagDirty : Tag := 0

end NestLinux.RadixTree
