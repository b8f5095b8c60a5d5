import NestLinux.Lib.Slots
import NestLinux.Lib.Align

/-!
# The early memory map

`mm/memblock.c`: two tables of regions, the memory there is and the memory that is in use,
kept sorted in arrays of fixed size.

Addresses, sizes and counts are 32-bit and wrap. An array is a function, since the code
reads slots that are not part of the table any more. The tables are those before
`memblock_analyze`, which may not be resized, and no architecture overrides
`memblock_memory_can_coalesce`.
-/

namespace NestLinux.Mm

open Lib Function

/-- `struct memblock_region`. -/
structure MemblockRegion where
  base : ℕ
  size : ℕ
  deriving DecidableEq, Repr

/-- `struct memblock_type`. -/
structure MemblockType where
  cnt : ℕ
  max : ℕ
  regions : ℕ → MemblockRegion

def memblockAddrsAdjacent (base1 size1 base2 size2 : ℕ) : ℤ :=
  if base2 = add32 base1 size1 then 1
  else if base1 = add32 base2 size2 then -1
  else 0

variable (t : MemblockType)

def memblockRegionsAdjacent (r1 r2 : ℕ) : ℤ :=
  memblockAddrsAdjacent (t.regions r1).base (t.regions r1).size (t.regions r2).base
    (t.regions r2).size

def memblockRemoveRegion (r : ℕ) : MemblockType :=
  { t with regions := moveDown r (sub32 t.cnt 1 - r) t.regions, cnt := sub32 t.cnt 1 }

def memblockCoalesceRegions (r1 r2 : ℕ) : MemblockType :=
  let grown := { t.regions r1 with size := add32 (t.regions r1).size (t.regions r2).size }
  memblockRemoveRegion { t with regions := update t.regions r1 grown } r2

/-- The region at which the first loop of `memblock_add_region` ends early: the one the
range already is, or one it is adjacent to. -/
def firstAdjacent (base size : ℕ) : Option ℕ :=
  (List.range t.cnt).find? fun i =>
    t.regions i = ⟨base, size⟩ ∨
      memblockAddrsAdjacent base size (t.regions i).base (t.regions i).size ≠ 0

/-- Region `i` with an adjacent range added to it. -/
def growRegion (i base size : ℕ) : MemblockType :=
  let rgn := t.regions i
  if 0 < memblockAddrsAdjacent base size rgn.base rgn.size then
    { t with regions := update t.regions i ⟨sub32 rgn.base size, add32 rgn.size size⟩ }
  else { t with regions := update t.regions i ⟨rgn.base, add32 rgn.size size⟩ }

/-- The loop of `memblock_add_region` over the first `n` regions from the last one down,
which moves them up until the new one fits. -/
def moveUp (rgn : MemblockRegion) : ℕ → (ℕ → MemblockRegion) → ℕ → MemblockRegion
  | 0, regions => regions
  | i + 1, regions =>
    if rgn.base < (regions i).base then moveUp rgn i (update regions (i + 1) (regions i))
    else update regions (i + 1) rgn

/-- Couldn't coalesce the MEMBLOCK, so add it to the sorted table. -/
def insertRegion (base size : ℕ) : MemblockType :=
  let regions := moveUp ⟨base, size⟩ t.cnt t.regions
  let regions := if base < (regions 0).base then update regions 0 ⟨base, size⟩ else regions
  { t with regions := regions, cnt := add32 t.cnt 1 }

/-- `memblock_add_region`: its value and the table. -/
def memblockAddRegion (base size : ℕ) : ℤ × MemblockType :=
  if t.cnt = 1 ∧ (t.regions 0).size = 0 then
    (0, { t with regions := update t.regions 0 ⟨base, size⟩ })
  else
    let found := firstAdjacent t base size
    if ∃ i ∈ found, t.regions i = ⟨base, size⟩ then (0, t)
    else
      let i := found.getD t.cnt
      let grown := match found with
        | some i => growRegion t i base size
        | none => t
      let coalesced : ℤ := if found.isSome then 1 else 0
      if i < sub32 t.cnt 1 ∧ memblockRegionsAdjacent grown i (i + 1) ≠ 0 then
        (coalesced + 1, memblockCoalesceRegions grown i (i + 1))
      else if coalesced ≠ 0 then (coalesced, grown)
      else if t.max ≤ t.cnt then (-1, t)
      else
        let t' := insertRegion t base size
        -- the array is full and may not be resized: the insertion is undone
        if t'.cnt = t'.max then (-1, { t' with cnt := sub32 t'.cnt 1 }) else (0, t')

/-- `__memblock_remove`: its value and the table. -/
def memblockRemoveRange (base size : ℕ) : ℤ × MemblockType :=
  let last := add32 base size
  let rgnend := fun i => add32 (t.regions i).base (t.regions i).size
  match (List.range t.cnt).find? fun i => (t.regions i).base ≤ base ∧ last ≤ rgnend i with
  | none => (-1, t)
  | some i =>
    let rgn := t.regions i
    if rgn.base = base ∧ rgnend i = last then (0, memblockRemoveRegion t i)
    else if rgn.base = base then
      (0, { t with regions := update t.regions i ⟨last, sub32 rgn.size size⟩ })
    else if rgnend i = last then
      (0, { t with regions := update t.regions i ⟨rgn.base, sub32 rgn.size size⟩ })
    else
      let t' := { t with regions := update t.regions i ⟨rgn.base, sub32 base rgn.base⟩ }
      memblockAddRegion t' last (sub32 (rgnend i) last)

/-- The loop of `memblock_search`, whose test is at its end. -/
def searchLoop (t : MemblockType) (addr left right : ℕ) : Option ℕ :=
  let mid := (right + left) / 2
  let rgn := t.regions mid
  if addr < rgn.base then
    if left < mid then searchLoop t addr left mid else none
  else if add32 rgn.base rgn.size ≤ addr then
    if mid + 1 < right then searchLoop t addr (mid + 1) right else none
  else some mid
termination_by right - left
decreasing_by
  · omega
  · omega

/-- `memblock_search`: none is `-1`. -/
def memblockSearch (addr : ℕ) : Option ℕ := searchLoop t addr 0 t.cnt

/-! ## The calls -/

/-- `struct memblock`. -/
structure Memblock where
  memory : MemblockType
  reserved : MemblockType

def initMemblockRegions : ℕ := 128

/-- A table as `memblock_init` leaves it, on an array whatever it holds. -/
def initTable (regions : ℕ → MemblockRegion) : MemblockType :=
  { cnt := 1, max := initMemblockRegions, regions := update regions 0 ⟨0, 0⟩ }

def memblockInit (memory reserved : ℕ → MemblockRegion) : Memblock :=
  { memory := initTable memory, reserved := initTable reserved }

def memblockAdd (base size : ℕ) (mb : Memblock) : ℤ × Memblock :=
  let r := memblockAddRegion mb.memory base size
  (r.1, { mb with memory := r.2 })

def memblockRemove (base size : ℕ) (mb : Memblock) : ℤ × Memblock :=
  let r := memblockRemoveRange mb.memory base size
  (r.1, { mb with memory := r.2 })

def memblockFree (base size : ℕ) (mb : Memblock) : ℤ × Memblock :=
  let r := memblockRemoveRange mb.reserved base size
  (r.1, { mb with reserved := r.2 })

/-- `memblock_reserve`; none is its `BUG_ON`. -/
def memblockReserve (base size : ℕ) (mb : Memblock) : Option (ℤ × Memblock) :=
  if size = 0 then none
  else
    let r := memblockAddRegion mb.reserved base size
    some (r.1, { mb with reserved := r.2 })

def memblockIsReserved (mb : Memblock) (addr : ℕ) : Bool := (memblockSearch mb.reserved addr).isSome

def memblockIsMemory (mb : Memblock) (addr : ℕ) : Bool := (memblockSearch mb.memory addr).isSome

/-- `memblock_is_region_memory`, which looks at the reserved regions. -/
def memblockIsRegionMemory (mb : Memblock) (base size : ℕ) : Bool :=
  match memblockSearch mb.reserved base with
  | none => false
  | some idx =>
    let rgn := mb.reserved.regions idx
    decide (rgn.base ≤ base ∧ add32 base size ≤ add32 rgn.base rgn.size)

/-! ## Finding a place -/

def pageSize : ℕ := 4096

def memblockError : ℕ := 0

def memblockAddrsOverlap (base1 size1 base2 size2 : ℕ) : Bool :=
  base1 < add32 base2 size2 && base2 < add32 base1 size1

/-- `memblock_overlaps_region`: none is `-1`. -/
def memblockOverlapsRegion (base size : ℕ) : Option ℕ :=
  (List.range t.cnt).find? fun i =>
    memblockAddrsOverlap base size (t.regions i).base (t.regions i).size

/-- The loop of `memblock_find_region`, with a bound on its turns. -/
def findRegionLoop (reserved : MemblockType) (start size align : ℕ) : ℕ → ℕ → Option ℕ
  | 0, _ => none
  | n + 1, base =>
    if start ≤ base then
      match memblockOverlapsRegion reserved base size with
      | none => some base
      | some j =>
        let resBase := (reserved.regions j).base
        if resBase < size then some memblockError
        else findRegionLoop reserved start size align n (alignDown32 (sub32 resBase size) align)
    else some memblockError

/-- `memblock_find_region`, with a bound on the turns of its loop. -/
def memblockFindRegion (n : ℕ) (reserved : MemblockType) (start last size align : ℕ) : Option ℕ :=
  -- In case, huge size is requested
  if last < size then some memblockError
  else
    let base := alignDown32 (sub32 last size) align
    -- Prevent allocations returning 0 as it's also used to indicate an allocation failure
    let start := if start = 0 then pageSize else start
    findRegionLoop reserved start size align n base

/-- The loop of `memblock_find_base` over the first `i` regions of memory, from the last one
down. -/
def findBaseLoop (n : ℕ) (mb : Memblock) (size align start last : ℕ) : ℕ → Option ℕ
  | 0 => some memblockError
  | i + 1 =>
    let memblockbase := (mb.memory.regions i).base
    let memblocksize := (mb.memory.regions i).size
    if memblocksize < size then findBaseLoop n mb size align start last i
    else if add32 memblockbase memblocksize ≤ start then some memblockError
    else
      let bottom := max memblockbase start
      let top := min (add32 memblockbase memblocksize) last
      if top ≤ bottom then findBaseLoop n mb size align start last i
      else
        match memblockFindRegion n mb.reserved bottom top size align with
        | none => none
        | some found =>
          if found ≠ memblockError then some found
          else findBaseLoop n mb size align start last i

/-- `memblock_find_base`, with a bound on the turns of the inner loop; none is its `BUG_ON`,
or that the bound does not suffice. -/
def memblockFindBase (n : ℕ) (mb : Memblock) (currentLimit size align start last : ℕ) : Option ℕ :=
  if size = 0 then none
  else
    let size := alignUp32 size align
    -- Pump up max_addr
    let last := if last = 0 then currentLimit else last
    findBaseLoop n mb size align start last mb.memory.cnt

end NestLinux.Mm
