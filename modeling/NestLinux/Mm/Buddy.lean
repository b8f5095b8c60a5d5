import Mathlib.Algebra.Order.Ring.Nat
import Mathlib.Data.Fintype.Basic
import Mathlib.Data.Nat.Bitwise

/-!
# The buddy allocator

`mm/page_alloc.c`: the free pages of a zone are blocks of `2 ^ order` pages on lists, one for
each order and migratetype. `__free_one_page` merges a block with its buddy as long as the buddy
is free, and `__rmqueue_smallest` cuts the smallest block that is large enough.

Pages are named by their frame numbers, and the memory map is contiguous, so a step of a page
pointer is a step of the frame number. Compound pages do not occur.
-/

namespace NestLinux.Buddy

open Function

inductive MigrateType
  | unmovable
  | reclaimable
  | movable
  | reserve
  | isolate
  deriving DecidableEq, Repr

instance : Fintype MigrateType where
  elems := {.unmovable, .reclaimable, .movable, .reserve, .isolate}
  complete t := by cases t <;> decide

/-- What is known of the frames: whether a frame is one, and the zone of its page. -/
structure MemMap where
  pfnValidWithin : ℕ → Bool
  pageZoneId : ℕ → ℕ

/-- `free_area`, with `PageBuddy` and `page_private` of the pages. -/
structure Zone where
  freeList : ℕ → MigrateType → List ℕ
  nrFree : ℕ → ℤ
  pageBuddy : ℕ → Bool
  pagePrivate : ℕ → ℕ

/-! ### Fields and lists -/

def setPageOrder (z : Zone) (page order : ℕ) : Zone :=
  { z with
    pagePrivate := update z.pagePrivate page order
    pageBuddy := update z.pageBuddy page true }

def rmvPageOrder (z : Zone) (page : ℕ) : Zone :=
  { z with
    pageBuddy := update z.pageBuddy page false
    pagePrivate := update z.pagePrivate page 0 }

/-- `list_del`: the page leaves the list it is on. -/
def listDel (z : Zone) (page : ℕ) : Zone :=
  { z with freeList := fun order type => (z.freeList order type).filter fun p => p ≠ page }

def updateList (z : Zone) (order : ℕ) (type : MigrateType) (l : List ℕ) : Zone :=
  { z with freeList := update z.freeList order (update (z.freeList order) type l) }

def listAdd (z : Zone) (page order : ℕ) (type : MigrateType) : Zone :=
  updateList z order type (page :: z.freeList order type)

def listAddTail (z : Zone) (page order : ℕ) (type : MigrateType) : Zone :=
  updateList z order type (z.freeList order type ++ [page])

/-- A change to `nr_free` of an order. -/
def addNrFree (z : Zone) (order : ℕ) (n : ℤ) : Zone :=
  { z with nrFree := update z.nrFree order (z.nrFree order + n) }

/-! ### Freeing -/

def pageFindBuddy (page pageIdx order : ℕ) : ℕ :=
  let buddyIdx := pageIdx ^^^ 1 <<< order
  page + buddyIdx - pageIdx

/-- `__find_combined_index`: `page_idx & ~(1 << order)`. -/
def findCombinedIndex (pageIdx order : ℕ) : ℕ := Nat.ldiff pageIdx (1 <<< order)

/-- The variables of `__free_one_page`; `buddy` is set by the loop. -/
structure Merge where
  page : ℕ
  pageIdx : ℕ
  order : ℕ
  buddy : Option ℕ
  zone : Zone

section

variable (maxOrder : ℕ) (mem : MemMap)

def pageIsBuddy (z : Zone) (page buddy order : ℕ) : Bool :=
  if !mem.pfnValidWithin buddy then false
  else if mem.pageZoneId page ≠ mem.pageZoneId buddy then false
  else z.pageBuddy buddy && z.pagePrivate buddy == order

/-- The loop of `__free_one_page`. -/
def mergeLoop : ℕ → Merge → Merge
  | 0, s => s
  | fuel + 1, s =>
    if s.order < maxOrder - 1 then
      let buddy := pageFindBuddy s.page s.pageIdx s.order
      if !pageIsBuddy mem s.zone s.page buddy s.order then { s with buddy := some buddy }
      else
        let combinedIdx := findCombinedIndex s.pageIdx s.order
        mergeLoop fuel
          { page := s.page + combinedIdx - s.pageIdx
            pageIdx := combinedIdx
            order := s.order + 1
            buddy := some buddy
            zone := rmvPageOrder (addNrFree (listDel s.zone buddy) s.order (-1)) buddy }
    else s

/-- Whether the buddy of the next order is free: then the block goes to the end of its list. -/
def mergesSoon (s : Merge) (z : Zone) : Bool :=
  if s.order < maxOrder - 2 ∧ (s.buddy.map mem.pfnValidWithin).getD false then
    let combinedIdx := findCombinedIndex s.pageIdx s.order
    let higherPage := s.page + combinedIdx - s.pageIdx
    let higherBuddy := pageFindBuddy higherPage combinedIdx (s.order + 1)
    pageIsBuddy mem z higherPage higherBuddy (s.order + 1)
  else false

def freeOnePage (z : Zone) (page order : ℕ) (type : MigrateType) : Zone :=
  let pageIdx := page &&& (1 <<< maxOrder - 1)
  let s := mergeLoop maxOrder mem maxOrder ⟨page, pageIdx, order, none, z⟩
  let z := setPageOrder s.zone s.page s.order
  let z :=
    if mergesSoon maxOrder mem s z then listAddTail z s.page s.order type
    else listAdd z s.page s.order type
  addNrFree z s.order 1

end

/-! ### Allocating -/

/-- `expand`: the upper halves go to the lists, down to the order asked for. -/
def expand (page low : ℕ) (type : MigrateType) : ℕ → ℕ → Zone → Zone
  | 0, _, z => z
  | high + 1, size, z =>
    if low < high + 1 then
      let size := size >>> 1
      let z := listAdd z (page + size) high type
      let z := addNrFree z high 1
      let z := setPageOrder z (page + size) high
      expand page low type high size z
    else z

/-- The loop of `__rmqueue_smallest`. -/
def rmqueueLoop (maxOrder : ℕ) (z : Zone) (order : ℕ) (type : MigrateType) :
    ℕ → ℕ → Option ℕ × Zone
  | 0, _ => (none, z)
  | fuel + 1, currentOrder =>
    if currentOrder < maxOrder then
      match z.freeList currentOrder type with
      | [] => rmqueueLoop maxOrder z order type fuel (currentOrder + 1)
      | page :: _ =>
        let z := listDel z page
        let z := rmvPageOrder z page
        let z := addNrFree z currentOrder (-1)
        (some page, expand page order type currentOrder (1 <<< currentOrder) z)
    else (none, z)

/-- `__rmqueue_smallest`: the page, or none, and the zone. -/
def rmqueueSmallest (maxOrder : ℕ) (z : Zone) (order : ℕ) (type : MigrateType) : Option ℕ × Zone :=
  rmqueueLoop maxOrder z order type maxOrder order

end NestLinux.Buddy
