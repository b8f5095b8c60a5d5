import NestLinux.Lib.Align

/-!
# The resource tree

`kernel/resource.c`: address ranges in a tree, in which the ranges below a node are apart
from each other and inside it.

The resources are in a heap and known by their addresses. The list that starts at `child`
and goes on through `sibling` is a list of addresses, and the parent pointers are apart
from it. The loops that go down the tree and that grow a resource take a bound on their
turns; the result is none where it does not suffice. `resource_size_t` has 32 bits.
-/

namespace NestLinux.ResourceTree

open Lib Function

/-- `struct resource`. -/
structure Resource where
  start : ℕ
  last : ℕ
  parent : Option ℕ
  child : List ℕ
  deriving DecidableEq, Repr

/-- The resources by their addresses. -/
abbrev Heap := ℕ → Resource

/-- `-EBUSY`. -/
def ebusy : ℤ := -16

/-- `-EINVAL`. -/
def einval : ℤ := -22

/-! ## Request -/

variable (s : Heap)

/-- The loop of `__request_resource` over the children: the list with the new resource in
its place, or the child in its way. -/
def requestWalk (s : Heap) (new : ℕ) : List ℕ → Except ℕ (List ℕ)
  | [] => .ok [new]
  | tmp :: rest =>
    if (s new).last < (s tmp).start then .ok (new :: tmp :: rest)
    else if (s tmp).last < (s new).start then
      match requestWalk s new rest with
      | .ok l => .ok (tmp :: l)
      | .error c => .error c
    else .error tmp

/-- `__request_resource`: the resource in the way, or none, and the heap. -/
def requestResource (root new : ℕ) : Option ℕ × Heap :=
  if (s new).last < (s new).start ∨ (s new).start < (s root).start ∨ (s root).last < (s new).last
  then (some root, s)
  else
    match requestWalk s new (s root).child with
    | .error c => (some c, s)
    | .ok l =>
      let s := update s root { s root with child := l }
      (none, update s new { s new with parent := some root })

/-- `request_resource`. -/
def requestResourceErr (root new : ℕ) : ℤ × Heap :=
  match requestResource s root new with
  | (some _, s') => (ebusy, s')
  | (none, s') => (0, s')

/-! ## Insert -/

/-- The loop of `__insert_resource` that goes down the tree. It ends with a result of the
call, or with a parent and a child of it that does not contain the new resource. -/
def descend (s : Heap) (new : ℕ) : ℕ → ℕ → Option ((Option ℕ × Heap) ⊕ (ℕ × ℕ))
  | 0, _ => none
  | fuel + 1, parent =>
    match requestResource s parent new with
    | (none, s') => some (.inl (none, s'))
    | (some first, _) =>
      if first = parent then some (.inl (some first, s))
      else if first = new then some (.inl (some first, s))
      else if (s new).start < (s first).start ∨ (s first).last < (s new).last then
        some (.inr (parent, first))
      else if (s first).start = (s new).start ∧ (s first).last = (s new).last then
        some (.inr (parent, first))
      else descend s new fuel first

/-- The loop of `__insert_resource` over the siblings that the new resource covers, from the
first one: those, and the siblings after them, or one that it overlaps partially. -/
def coverWalk (s : Heap) (new : ℕ) : List ℕ → Except ℕ (List ℕ × List ℕ)
  | [] => .ok ([], [])
  | next :: rest =>
    if (s next).start < (s new).start ∨ (s new).last < (s next).last then .error next
    else
      match rest with
      | [] => .ok ([next], [])
      | sibling :: more =>
        if (s new).last < (s sibling).start then .ok ([next], sibling :: more)
        else
          match coverWalk s new (sibling :: more) with
          | .ok (kids, after) => .ok (next :: kids, after)
          | .error c => .error c

/-- Put the new resource in the place of the children of a parent that it covers. -/
def adopt (parent new : ℕ) (before kids after : List ℕ) : Heap :=
  let s := update s new { s new with parent := some parent, child := kids }
  let s : Heap := fun r => if r ∈ kids then { s r with parent := some new } else s r
  update s parent { s parent with child := before ++ new :: after }

/-- `__insert_resource`: the resource in the way, or none, and the heap. -/
def insertResource (fuel parent new : ℕ) : Option (Option ℕ × Heap) :=
  match descend s new fuel parent with
  | none => none
  | some (.inl r) => some r
  | some (.inr (parent, first)) =>
    let before := (s parent).child.takeWhile (· ≠ first)
    match coverWalk s new ((s parent).child.dropWhile (· ≠ first)) with
    | .error c => some (some c, s)
    | .ok (kids, after) => some (none, adopt s parent new before kids after)

/-- `insert_resource`. -/
def insertResourceErr (fuel parent new : ℕ) : Option (ℤ × Heap) :=
  match insertResource s fuel parent new with
  | none => none
  | some (some _, s') => some (ebusy, s')
  | some (none, s') => some (0, s')

/-- The loop of `insert_resource_expand_to_fit`. The value tells whether the resource was
inserted. -/
def expandLoop (fuel root new : ℕ) : ℕ → Heap → Option (Bool × Heap)
  | 0, _ => none
  | n + 1, s =>
    match insertResource s fuel root new with
    | none => none
    | some (none, s') => some (true, s')
    | some (some conflict, _) =>
      if conflict = root then some (false, s)
      else
        -- Ok, expand resource to cover the conflict, then try again ..
        let lo := if (s conflict).start < (s new).start then (s conflict).start else (s new).start
        let hi := if (s new).last < (s conflict).last then (s conflict).last else (s new).last
        expandLoop fuel root new n (update s new { s new with start := lo, last := hi })

/-- `insert_resource_expand_to_fit`. It returns nothing; the value tells whether the
resource was inserted. -/
def insertResourceExpandToFit (fuel turns root new : ℕ) : Option (Bool × Heap) :=
  if (s new).parent.isSome then some (false, s) else expandLoop fuel root new turns s

/-! ## Allocate -/

/-- What `find_resource` looks for. -/
structure Wanted where
  size : ℕ
  min : ℕ
  max : ℕ
  align : ℕ

/-- The range that fits into a gap, if any: one turn of the loop of `find_resource`. -/
def fitGap (w : Wanted) (start last : ℕ) : Option (ℕ × ℕ) :=
  -- resource_clip
  let start := if start < w.min then w.min else start
  let last := if w.max < last then w.max else last
  let availStart := alignUp32 start w.align
  -- Check for overflow after ALIGN()
  if start ≤ availStart then
    let allocLast := sub32 (add32 availStart w.size) 1
    if allocLast ≤ last then some (availStart, allocLast) else none
  else none

/-- The loop of `find_resource` over the children, with the start of the gap. -/
def findWalk (s : Heap) (w : Wanted) (rootLast : ℕ) : List ℕ → ℕ → Option (ℕ × ℕ)
  | [], start => fitGap w start rootLast
  | this :: rest, start =>
    match fitGap w start (sub32 (s this).start 1) with
    | some r => some r
    | none => findWalk s w rootLast rest (add32 (s this).last 1)

/-- `find_resource`. A child that starts at 0 is skipped first. -/
def findResource (root : ℕ) (w : Wanted) : Option (ℕ × ℕ) :=
  match (s root).child with
  | this :: rest =>
    if (s this).start = 0 then findWalk s w (s root).last rest (add32 (s this).last 1)
    else findWalk s w (s root).last (this :: rest) (s root).start
  | [] => findWalk s w (s root).last [] (s root).start

/-- `allocate_resource` with the default alignment function. -/
def allocateResource (root new : ℕ) (w : Wanted) : ℤ × Heap :=
  match findResource s root w with
  | none => (ebusy, s)
  | some (start, last) =>
    requestResourceErr (update s new { s new with start := start, last := last }) root new

/-! ## Release -/

/-- `__release_resource`. None is the access to the parent of a resource that has none. -/
def releaseResource (old : ℕ) : Option (ℤ × Heap) :=
  match (s old).parent with
  | none => none
  | some parent =>
    if old ∈ (s parent).child then
      let s := update s parent { s parent with child := (s parent).child.erase old }
      some (0, update s old { s old with parent := none })
    else some (einval, s)

/-! ## Adjust -/

/-- The range passes the checks of `adjust_resource`: it lies inside the parent, contains the
children, and is apart from the siblings before and behind the resource. -/
def adjustChecks (parent res start last : ℕ) : Bool :=
  let siblings := (s parent).child
  !(decide (start < (s parent).start) || decide ((s parent).last < last)) &&
  (s res).child.all (fun tmp =>
    !(decide ((s tmp).start < start) || decide (last < (s tmp).last))) &&
  ((siblings.dropWhile (· ≠ res)).tail.head?.all fun sibling =>
    !decide ((s sibling).start ≤ last)) &&
  (siblings.takeWhile (· ≠ res)).getLast?.all fun tmp => !decide (start ≤ (s tmp).last)

/-- `adjust_resource`: its value and the heap. None is the access to the parent of a resource
that has none. -/
def adjustResource (res start size : ℕ) : Option (ℤ × Heap) :=
  match (s res).parent with
  | none => none
  | some parent =>
    let last := sub32 (add32 start size) 1
    if adjustChecks s parent res start last then
      some (0, update s res { s res with start := start, last := last })
    else some (ebusy, s)

/-! ## Reserve -/

/-- `__reserve_region_with_split`, with a bound on the depth of its recursion. The allocator
gives an address that may depend on the heap; it does not fail. -/
def reserveRegionWithSplit (kzalloc : Heap → ℕ) (root : ℕ) : ℕ → Heap → ℕ → ℕ → Option Heap
  | 0, _, _, _ => none
  | fuel + 1, s, start, last =>
    let res := kzalloc s
    let s := update s res ⟨start, last, none, []⟩
    match requestResource s root res with
    | (none, s') => some s'
    | (some conflict, _) =>
      -- conflict covered whole area
      if (s conflict).start ≤ start ∧ last ≤ (s conflict).last then some s
      else
        let below :=
          if start < (s conflict).start then
            reserveRegionWithSplit kzalloc root fuel s start (sub32 (s conflict).start 1)
          else some s
        match below with
        | none => none
        | some s =>
          if (s conflict).last < last then
            reserveRegionWithSplit kzalloc root fuel s (add32 (s conflict).last 1) last
          else some s

end NestLinux.ResourceTree
