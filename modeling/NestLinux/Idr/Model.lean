import NestLinux.Lib.BitScan
import NestLinux.Lib.Digits

/-!
# Small integer ids

`lib/idr.c` with words of 32 bits: a tree of layers with 32 slots each gives out small integers
and keeps a pointer for each of them. A bit of a layer's `bitmap` says that no id is left below
the slot. New layers come from a list that `idr_pre_get` fills and that may run empty.

The `ida` on top of it keeps only a set of ids: a slot of the lowest level points to a bitmap of
992 of them.

A layer is named by its level and by the digits of its ids above it, which is what the C code's
pointers in `pa` stand for: no layer has two names. What the C code writes on the way back up the
path of an id is what the recursion down the path returns. What is read through a pointer of the
wrong kind is null.
-/

namespace NestLinux.IdAlloc

open Function Lib

/-- `IDR_SIZE`: `1 << IDR_BITS`, with `IDR_BITS` of 5. -/
def idrSize : ℕ := 32

/-- `MAX_LEVEL`: `(MAX_ID_SHIFT + IDR_BITS - 1) / IDR_BITS`. -/
def maxLevel : ℕ := 7

/-- `IDR_FREE_MAX`: `MAX_LEVEL + MAX_LEVEL`. -/
def idrFreeMax : ℕ := maxLevel + maxLevel

def maxIdBit : ℕ := 2 ^ 31

/-- A pointer: null, one of the user, or to a `struct idr_layer`. -/
inductive Slot (α : Type*)
  | null
  | item (a : α)
  | layer (bitmap : ℕ → Bool) (ary : ℕ → Slot α) (count : ℤ) (level : ℕ)

variable {α : Type*}

namespace Slot

def isNull : Slot α → Bool
  | .null => true
  | _ => false

/-- What a pointer of the user points to. -/
def item? : Slot α → Option α
  | .item a => some a
  | _ => none

/-- A pointer of the user, which may be null. -/
def ofPtr : Option α → Slot α
  | none => .null
  | some a => .item a

/-- `p->bitmap`. -/
def bitmap : Slot α → ℕ → Bool
  | .layer bitmap _ _ _ => bitmap
  | _ => fun _ => false

/-- `p->ary[i]`. -/
def ary : Slot α → ℕ → Slot α
  | .layer _ ary _ _ => ary
  | _ => fun _ => .null

/-- `p->count`. -/
def count : Slot α → ℤ
  | .layer _ _ count _ => count
  | _ => 0

/-- `p->layer`. -/
def level : Slot α → ℕ
  | .layer _ _ _ level => level
  | _ => 0

/-- `p->bitmap == IDR_FULL`. -/
def isFull (p : Slot α) : Bool := allOnes p.bitmap idrSize

/-- `__set_bit` and `__clear_bit` on `p->bitmap`. -/
def setBit (p : Slot α) (i : ℕ) (b : Bool) : Slot α :=
  match p with
  | .layer bitmap ary count level => .layer (update bitmap i b) ary count level
  | p => p

/-- `p->ary[i] = c`. -/
def put (p : Slot α) (i : ℕ) (c : Slot α) : Slot α :=
  match p with
  | .layer bitmap ary count level => .layer bitmap (update ary i c) count level
  | p => p

/-- `p->count += k`. -/
def addCount (p : Slot α) (k : ℤ) : Slot α :=
  match p with
  | .layer bitmap ary count level => .layer bitmap ary (count + k) level
  | p => p

/-- `p->count = k`. -/
def setCount (p : Slot α) (k : ℤ) : Slot α :=
  match p with
  | .layer bitmap ary _ level => .layer bitmap ary k level
  | p => p

/-- `p->layer = l`. -/
def setLevel (p : Slot α) (l : ℕ) : Slot α :=
  match p with
  | .layer bitmap ary count _ => .layer bitmap ary count l
  | p => p

/-- `p->bitmap = p->count = 0`. -/
def clear (p : Slot α) : Slot α :=
  match p with
  | .layer _ ary _ level => .layer (fun _ => false) ary 0 level
  | p => p

/-- The layer `d` levels below, by the digits of `q`. -/
def down : ℕ → ℕ → Slot α → Slot α
  | 0, _, p => p
  | d + 1, q, p => down d q (p.ary (digit idrSize d q))

/-- The tree with the layer `d` levels below changed. -/
def modify : ℕ → ℕ → (Slot α → Slot α) → Slot α → Slot α
  | 0, _, f, p => f p
  | d + 1, q, f, p => p.put (digit idrSize d q) (modify d q f (p.ary (digit idrSize d q)))

end Slot

def newLayer (α : Type*) : Slot α := .layer (fun _ => false) (fun _ => .null) 0 0

/-- `struct idr`. The length of the free list is `id_free_cnt`. -/
structure Idr (α : Type*) where
  top : Slot α
  idFree : List (Slot α)
  layers : ℕ

def idrInit (α : Type*) : Idr α := { top := .null, idFree := [], layers := 0 }

variable (idp : Idr α)

def getFromFreeList : Option (Slot α) × Idr α :=
  match idp.idFree with
  | [] => (none, idp)
  | p :: rest => (some (p.put 0 .null), { idp with idFree := rest })

/-- `move_to_free_list`. The link of the list in `p->ary[0]` is the list itself. -/
def moveToFreeList (p : Slot α) : Idr α := { idp with idFree := p :: idp.idFree }

/-- The loop of `idr_pre_get`, with room for `n` more layers in the list, of which `avail` can be
had; and what it returns. -/
def idrPreGetLoop : ℕ → ℕ → Idr α → Bool × Idr α
  | 0, _, idp => (true, idp)
  | _ + 1, 0, idp => (false, idp)
  | n + 1, avail + 1, idp => idrPreGetLoop n avail (moveToFreeList idp (newLayer α))

def idrPreGet (avail : ℕ) : Bool × Idr α :=
  idrPreGetLoop (idrFreeMax - idp.idFree.length) avail idp

/-! ## Allocation -/

/-- What `sub_alloc` and `idr_get_empty_slot` return: an id, `-1`, or `IDR_NEED_TO_GROW` and
`IDR_NOMORE_SPACE`. -/
inductive AllocResult
  | found (id : ℕ)
  | noMem
  | needToGrow (id : ℕ)
  | noMoreSpace
  deriving DecidableEq, Repr

/-- `idr_layer **pa`: for each level the layer on the path, by its digits. -/
abbrev Path := ℕ → Option ℕ

/-- The layer of a level, by its digits. -/
def Idr.layerAt (l q : ℕ) : Slot α := idp.top.down (idp.layers - 1 - l) q

def Idr.modifyAt (l q : ℕ) (f : Slot α → Slot α) : Idr α :=
  { idp with top := idp.top.modify (idp.layers - 1 - l) q f }

/-- The loop of `sub_alloc`, at the layer `p` of level `l`. None is its `BUG_ON`, or no end. -/
def subAllocLoop : ℕ → Idr α → Path → ℕ → ℕ → ℕ → Option (Idr α × Path × AllocResult)
  | 0, _, _, _, _, _ => none
  | fuel + 1, idp, pa, p, l, id =>
    let layer := idp.layerAt l p
    let n := digit idrSize l id
    let m := nextZero layer.bitmap idrSize n
    if m = idrSize then
      -- no space available: go back to the previous layer
      let oid := id
      let l := l + 1
      let id := (id ||| (1 <<< (5 * l) - 1)) + 1
      -- an `int` beyond the limit is negative
      if 1 <<< (idp.layers * 5) ≤ id ∧ id < maxIdBit then some (idp, pa, .needToGrow id)
      else
        match pa l with
        | none => none
        | some p =>
          if oid >>> (5 * (l + 1)) = id >>> (5 * (l + 1)) then subAllocLoop fuel idp pa p l id
          else subAllocLoop fuel idp (update pa idp.layers none) 0 (idp.layers - 1) id
    else
      let id := if m ≠ n then ((id >>> (5 * l)) ^^^ n ^^^ m) <<< (5 * l) else id
      if maxIdBit ≤ id then some (idp, pa, .noMoreSpace)
      else
        match l with
        | 0 => some (idp, update pa 0 (some p), .found id)
        | l + 1 =>
          if (layer.ary m).isNull then
            -- create the layer below if it is missing
            match getFromFreeList idp with
            | (none, idp) => some (idp, pa, .noMem)
            | (some new, idp) =>
              let idp := idp.modifyAt (l + 1) p fun layer =>
                (layer.put m (new.setLevel l)).addCount 1
              subAllocLoop fuel idp (update pa (l + 1) (some p)) (p * idrSize + m) l id
          else subAllocLoop fuel idp (update pa (l + 1) (some p)) (p * idrSize + m) l id

/-- More turns than the loop of `sub_alloc` takes. -/
def subAllocFuel : ℕ := 2 ^ 33

def subAlloc (pa : Path) (startingId : ℕ) : Option (Idr α × Path × AllocResult) :=
  subAllocLoop subAllocFuel idp (update pa idp.layers none) 0 (idp.layers - 1) startingId

/-- The loop of `idr_get_empty_slot` that tears down the `k` layers it built above the top. -/
def tearDown : ℕ → Idr α → Slot α → Idr α
  | 0, idp, p => { idp with top := p }
  | k + 1, idp, p => tearDown k (moveToFreeList idp (p.put 0 .null).clear) (p.ary 0)

def layerAbove (new p : Slot α) (l : ℕ) : Slot α :=
  let new := ((new.put 0 p).setCount 1).setLevel l
  if p.isFull then new.setBit 0 true else new

/-- The loop of `idr_get_empty_slot` that adds layers, `n` of them at most: the new top and the
number of layers. The list may run empty; then the `k` layers built so far are torn down. -/
def growLoop (id : ℕ) : ℕ → Idr α → Slot α → ℕ → ℕ → Idr α × Option (Slot α × ℕ)
  | 0, idp, p, _, layers => (idp, some (p, layers))
  | n + 1, idp, p, k, layers =>
    if 1 <<< (layers * 5) ≤ id then
      if p.count = 0 then growLoop id n idp (p.setLevel (p.level + 1)) k (layers + 1)
      else
        match getFromFreeList idp with
        | (none, idp) => (tearDown k idp p, none)
        | (some new, idp) => growLoop id n idp (layerAbove new p layers) (k + 1) (layers + 1)
    else (idp, some (p, layers))

/-- The top from which `idr_get_empty_slot` builds, how many layers of it are new, and the number
of layers. -/
def buildUp : Option (Slot α) × ℕ × ℕ × Idr α :=
  if idp.top.isNull then
    let r := getFromFreeList idp
    (r.1.map fun p => p.setLevel 0, 1, 1, r.2)
  else (some idp.top, 0, idp.layers, idp)

/-- `idr_get_empty_slot`, which goes back to `build_up` less than `fuel` times. -/
def idrGetEmptySlotLoop : ℕ → Idr α → Path → ℕ → Option (Idr α × Path × AllocResult)
  | 0, _, _, _ => none
  | fuel + 1, idp, pa, id =>
    match buildUp idp with
    | (none, _, _, idp) => some (idp, pa, .noMem)
    | (some p, k, layers, idp) =>
      match growLoop id (maxLevel - 1 - layers) idp p k layers with
      | (idp, none) => some (idp, pa, .noMem)
      | (idp, some (p, layers)) =>
        match subAlloc { idp with top := p, layers := layers } pa id with
        | some (idp, pa, .needToGrow id) => idrGetEmptySlotLoop fuel idp pa id
        | r => r

def idrGetEmptySlot (startingId : ℕ) : Option (Idr α × Path × AllocResult) :=
  idrGetEmptySlotLoop maxIdBit idp (fun _ => none) startingId

/-- `idr_mark_full`, on the path of `id`: the tree, and whether its top is full. -/
def markFull (id : ℕ) : ℕ → Slot α → Slot α × Bool
  | 0, p =>
    let p := p.setBit (digit idrSize 0 id) true
    (p, p.isFull)
  | l + 1, p =>
    let i := digit idrSize (l + 1) id
    let c := markFull id l (p.ary i)
    let p := p.put i c.1
    if c.2 then
      let p := p.setBit i true
      (p, p.isFull)
    else (p, false)

def idrMarkFull (id : ℕ) : Idr α :=
  { idp with top := (markFull id (idp.layers - 1) idp.top).1 }

/-- What `idr_get_new_above` returns. -/
inductive GetResult
  | ok (id : ℕ)
  | eagain
  | enospc
  deriving DecidableEq, Repr

def idrRcToErrno : AllocResult → GetResult
  | .noMem => .eagain
  | _ => .enospc

/-- `idr_get_new_above`, with `idr_get_new_above_int`; none is a `BUG_ON`, or no end. -/
def idrGetNewAbove (ptr : Option α) (startingId : ℕ) : Option (Idr α × GetResult) :=
  match idrGetEmptySlot idp startingId with
  | none => none
  | some (idp, pa, .found id) =>
    match pa 0 with
    | none => none
    | some q =>
      let idp := idp.modifyAt 0 q fun p => (p.put (id % idrSize) (.ofPtr ptr)).addCount 1
      some (idrMarkFull idp id, .ok id)
  | some (idp, _, r) => some (idp, idrRcToErrno r)

/-! ## Removal -/

/-- `sub_remove`, on the path of `id`: what is left of a layer, and whether it was freed. -/
def subRemove (id : ℕ) : ℕ → Slot α → Slot α × Bool
  | 0, p =>
    let i := digit idrSize 0 id
    if p.bitmap i then
      let p := ((p.setBit i false).put i .null).addCount (-1)
      if p.count = 0 then (.null, true) else (p, false)
    else (p, false)
  | l + 1, p =>
    let i := digit idrSize (l + 1) id
    let p := p.setBit i false
    let c := subRemove id l (p.ary i)
    let p := p.put i c.1
    if c.2 then
      let p := p.addCount (-1)
      if p.count = 0 then (.null, true) else (p, false)
    else (p, false)

/-- The loop of `idr_remove` over the free list. -/
def trimFreeList : List (Slot α) → List (Slot α)
  | [] => []
  | p :: rest => if idrFreeMax ≤ (p :: rest).length then trimFreeList rest else p :: rest

/-- Single child at the leftmost slot: `idr_remove` shrinks the tree. -/
def idrShrink : Idr α :=
  if !idp.top.isNull ∧ idp.top.count = 1 ∧ 1 < idp.layers ∧ !(idp.top.ary 0).isNull then
    { idp with top := idp.top.ary 0, layers := idp.layers - 1 }
  else idp

def idrRemove (id : ℕ) : Idr α :=
  let id := id % maxIdBit
  let r := subRemove id (idp.layers - 1) idp.top
  let idp := idrShrink { idp with top := r.1, layers := if r.2 then 0 else idp.layers }
  { idp with idFree := trimFreeList idp.idFree }

/-! ## Lookup -/

/-- The loop of `idr_find`, with `n` of `5 * h`. None is its `BUG_ON`. -/
def findLoop (id : ℕ) : ℕ → Slot α → Option (Option α)
  | 0, p => some p.item?
  | h + 1, p =>
    if p.isNull then some none
    else if h ≠ p.level then none
    else findLoop id h (p.ary (digit idrSize h id))

/-- `idr_find`; none is a `BUG_ON`. -/
def idrFind (id : ℕ) : Option (Option α) :=
  if idp.top.isNull then some none
  else
    let h := idp.top.level + 1
    let id := id % maxIdBit
    if 1 <<< (h * 5) ≤ id then some none else findLoop id h idp.top

/-- What `idr_replace` returns: the old pointer or an error. -/
inductive ReplaceResult (α : Type*)
  | old (ptr : Option α)
  | einval
  | enoent

def idrReplace (ptr : Option α) (id : ℕ) : Idr α × ReplaceResult α :=
  if idp.top.isNull then (idp, .einval)
  else
    let h := idp.top.level
    let id := id % maxIdBit
    if 1 <<< ((h + 1) * 5) ≤ id then (idp, .einval)
    else
      let q := id / idrSize
      let p := idp.top.down h q
      let n := id % idrSize
      if p.isNull ∨ !p.bitmap n then (idp, .enoent)
      else ({ idp with top := idp.top.modify h q fun p => p.put n (.ofPtr ptr) },
        .old (p.ary n).item?)

/-! ## Sets of ids -/

/-- `IDA_BITMAP_BITS`: `(128 / sizeof(long) - 1) * sizeof(long) * 8`. -/
def idaBitmapBits : ℕ := 992

/-- `struct ida_bitmap`. -/
structure IdaBitmap where
  nrBusy : ℤ
  bitmap : ℕ → Bool

/-- `struct ida`. The content of the free bitmap does not matter. -/
structure Ida where
  idr : Idr IdaBitmap
  freeBitmap : Bool

def idaInit : Ida := { idr := idrInit IdaBitmap, freeBitmap := false }

/-- `ida_pre_get`: `avail` layers can be had, and a bitmap or not. -/
def idaPreGet (ida : Ida) (avail : ℕ) (bitmap : Bool) : Bool × Ida :=
  let r := idrPreGet ida.idr avail
  let ida := { ida with idr := r.2 }
  if !r.1 then (false, ida)
  else if ida.freeBitmap then (true, ida)
  else if bitmap then (true, { ida with freeBitmap := true })
  else (false, ida)

/-- The bitmap with a bit changed, and counted. -/
def IdaBitmap.change (b : IdaBitmap) (t : ℕ) (v : Bool) (k : ℤ) : IdaBitmap :=
  { nrBusy := b.nrBusy + k, bitmap := update b.bitmap t v }

/-- The end of `ida_get_new_above`: bit `t` of the bitmap `b` in slot `idrId`, whose layer is `q`,
is taken. -/
def idaTake (ida : Ida) (idrId q t : ℕ) (b : IdaBitmap) : Ida :=
  let b := b.change t true 1
  let idr := ida.idr.modifyAt 0 q fun p => p.put (idrId % idrSize) (.item b)
  let idr := if b.nrBusy = idaBitmapBits then idrMarkFull idr idrId else idr
  -- throw away extra resources one by one after each successful allocation
  let idr := if idr.idFree.length ≠ 0 ∨ ida.freeBitmap then (getFromFreeList idr).2 else idr
  { ida with idr := idr }

/-- `ida_get_new_above`, which goes back to `restart` less than `fuel` times. -/
def idaGetNewAboveLoop : ℕ → Ida → ℕ → ℕ → Option (Ida × GetResult)
  | 0, _, _, _ => none
  | fuel + 1, ida, idrId, offset =>
    match idrGetEmptySlot ida.idr idrId with
    | none => none
    | some (idr, pa, .found t) =>
      let ida := { ida with idr := idr }
      if maxIdBit ≤ t * idaBitmapBits % 2 ^ 32 then some (ida, .enospc)
      else
        let offset := if t ≠ idrId then 0 else offset
        let idrId := t
        match pa 0 with
        | none => none
        | some q =>
          let slot := (ida.idr.layerAt 0 q).ary (idrId % idrSize)
          -- if the bitmap isn't there, create a new one
          if slot.isNull ∧ !ida.freeBitmap then some (ida, .eagain)
          else
            let ida := if slot.isNull then
                { ida with
                  idr := ida.idr.modifyAt 0 q fun p =>
                    (p.put (idrId % idrSize) (.item ⟨0, fun _ => false⟩)).addCount 1
                  freeBitmap := false }
              else ida
            let b := slot.item?.getD ⟨0, fun _ => false⟩
            let t := nextZero b.bitmap idaBitmapBits offset
            if t = idaBitmapBits then idaGetNewAboveLoop fuel ida (idrId + 1) 0
            else
              let id := idrId * idaBitmapBits + t
              if maxIdBit ≤ id then some (ida, .enospc)
              else some (idaTake ida idrId q t b, .ok id)
    | some (idr, _, r) => some ({ ida with idr := idr }, idrRcToErrno r)

/-- `ida_get_new_above`; none is a `BUG_ON`, or no end. -/
def idaGetNewAbove (ida : Ida) (startingId : ℕ) : Option (Ida × GetResult) :=
  idaGetNewAboveLoop 3 ida (startingId / idaBitmapBits) (startingId % idaBitmapBits)

/-- The walk of `ida_remove`, which clears the full bits on the path of `id`; `f` is what is done
to the lowest layer. -/
def clearFull (id : ℕ) (f : Slot α → Slot α) : ℕ → Slot α → Slot α
  | 0, p => f (p.setBit (digit idrSize 0 id) false)
  | l + 1, p =>
    let i := digit idrSize (l + 1) id
    let p := p.setBit i false
    p.put i (clearFull id f l (p.ary i))

/-- `ida_remove`. Where it warns, the full bits stay clear. -/
def idaRemove (ida : Ida) (id : ℕ) : Ida :=
  let idrId := id / idaBitmapBits
  let offset := id % idaBitmapBits
  let l := ida.idr.layers - 1
  let p := ida.idr.top.down l (idrId / idrSize)
  let n := idrId % idrSize
  let walk (f : Slot IdaBitmap → Slot IdaBitmap) : Idr IdaBitmap :=
    { ida.idr with top := clearFull idrId f l ida.idr.top }
  match (p.ary n).item? with
  | none => { ida with idr := walk fun p => p }
  | some b =>
    if !b.bitmap offset then { ida with idr := walk fun p => p }
    else
      -- update the bitmap and remove it if empty
      let b := b.change offset false (-1)
      if b.nrBusy = 0 then
        let idr := idrRemove (walk fun p => (p.put n (.item b)).setBit n true) idrId
        { idr := idr, freeBitmap := true }
      else { ida with idr := walk fun p => p.put n (.item b) }

end NestLinux.IdAlloc
