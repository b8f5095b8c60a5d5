import NestLinux.Lib.Loops
import NestLinux.Lib.Overlay
import Mathlib.Algebra.Order.Ring.Nat

/-!
# Bad block tables on flash

`drivers/mtd/nand/nand_bbt.c`: which blocks of a NAND chip are bad is kept in memory, and in
two tables on the flash, each with a version and found by a pattern in the out-of-band area
of one of the last blocks. An update writes the main table and then the mirror; a scan takes
the newer one, and writes the other one anew.

One chip, whose tables are searched from its last block down (`NAND_BBT_LASTBLOCK`), have a
version, are created and written, and have their pattern in the out-of-band area. Writing
gives the list of the operations on the flash, so that it can be cut off after any of them.
The scan of the device that is made when no table is found is a parameter.
-/

namespace NestLinux.NandBbt

open Lib Function List

abbrev Byte := BitVec 8

/-- The two bits of a block in memory: 0 good, 1 worn out, 2 reserved, 3 factory marked bad. -/
abbrev Mark := BitVec 2

def isBad (m : Mark) : Bool := m == 1 || m == 3

/-- `NAND_BBT_NRBITS_MSK`: the number of bits for a block in a table on the flash. -/
inductive NrBits
  | one
  | two
  | four
  | eight
  deriving DecidableEq, Repr

namespace NrBits

def bits : NrBits → ℕ
  | one => 1
  | two => 2
  | four => 4
  | eight => 8

def sft : NrBits → ℕ
  | one => 3
  | two => 2
  | four => 1
  | eight => 0

def sftmsk : NrBits → ℕ
  | one => 0x07
  | two => 0x06
  | four => 0x04
  | eight => 0x00

end NrBits

/-- `struct nand_bbt_descr`. -/
structure Descr where
  nrbits : NrBits
  offs : ℕ
  veroffs : ℕ
  maxblocks : ℕ
  pattern : List Byte
  reservedBlockCode : Byte

/-- `bbt_main_descr`, with the pattern `Bbt0`. -/
def bbtMainDescr : Descr where
  nrbits := .two
  offs := 8
  veroffs := 12
  maxblocks := 4
  pattern := [0x42, 0x62, 0x74, 0x30]
  reservedBlockCode := 0

/-- `bbt_mirror_descr`, with the pattern `1tbB`. -/
def bbtMirrorDescr : Descr where
  nrbits := .two
  offs := 8
  veroffs := 12
  maxblocks := 4
  pattern := [0x31, 0x74, 0x62, 0x42]
  reservedBlockCode := 0

/-- `pages[0]` and `version[0]` of a descriptor; no page is -1. -/
structure Place where
  page : Option ℕ
  version : Byte

/-- The number of blocks of the chip, and of pages of a block. -/
structure Chip where
  numblocks : ℕ
  pagesPerBlock : ℕ
  pagesPerBlock_pos : 0 < pagesPerBlock

/-- A page of the flash, with its out-of-band area. -/
structure Page where
  data : ℕ → Byte
  oob : ℕ → Byte

def Page.erased : Page := { data := fun _ => 0xff, oob := fun _ => 0xff }

abbrev Flash := ℕ → Page

/-- An operation on the flash: the block of a page is erased, or the page is programmed. -/
inductive FlashOp
  | erase (page : ℕ)
  | program (page : ℕ) (content : Page)

variable (g : Chip)

variable (flash : Flash)

/-- What an operation does. Programming can clear bits only. -/
def applyOp : FlashOp → Flash
  | .erase page => fun p =>
    if p / g.pagesPerBlock = page / g.pagesPerBlock then Page.erased else flash p
  | .program page content => update flash page
      { data := fun i => (flash page).data i &&& content.data i
        oob := fun i => (flash page).oob i &&& content.oob i }

def applyOps (ops : List FlashOp) : Flash := ops.foldl (applyOp g) flash

/-! ## Write -/

inductive Errno
  | enospc
  | eio
  deriving DecidableEq, Repr

def nandIsbadBbt (bbt : ℕ → Mark) (block : ℕ) (allowbbt : Bool) : Bool :=
  if bbt block = 0 then false
  else if bbt block = 1 then true
  else if bbt block = 2 then !allowbbt
  else true

/-- The masks for the flash table. -/
def msk (n : NrBits) (rcode : Byte) (m : Mark) : Byte :=
  if m = 0 then 0
  else if m = 1 then
    match n with
    | .one => 0x01
    | .two => 0x01
    | .four => 0x0c
    | .eight => 0x0f
  else if m = 2 then ~~~rcode
  else
    match n with
    | .one => 0x01
    | .two => 0x03
    | .four => 0x0f
    | .eight => 0xff

/-- The automatic placement of a table, from the last block down: not in a bad block, and not
where the other table is. -/
def placeBbt (td : Descr) (bbt : ℕ → Mark) (mdPage : Option ℕ) : Option ℕ :=
  (range td.maxblocks).findSome? fun i =>
    let block := g.numblocks - 1 - i
    if isBad (bbt block) then none
    else
      let page := block * g.pagesPerBlock
      if mdPage ≠ some page then some page else none

/-- The table for the flash: the walk through the memory table. -/
def tableBuf (td : Descr) (bbt : ℕ → Mark) : ℕ → Byte :=
  let rcode := if td.reservedBlockCode = 0 then 0xff else td.reservedBlockCode
  forRange g.numblocks
    (fun i buf =>
      let sftcnt := (i <<< (3 - td.nrbits.sft)) &&& td.nrbits.sftmsk
      let k := i >>> td.nrbits.sft
      update buf k (buf k &&& ~~~(msk td.nrbits rcode (bbt i) <<< sftcnt)))
    (fun _ => 0xff)

/-- The out-of-band area of the first page: pattern and version. -/
def tableOob (td : Descr) (version : Byte) : ℕ → Byte :=
  update (overlay (fun _ => 0xff) td.offs td.pattern) td.veroffs version

/-- `write_bbt`: the operations on the flash, where the table is then, and the error. A block
that is bad in memory is not erased. -/
def writeBbt (td : Descr) (bbt : ℕ → Mark) (place : Place) (mdPage : Option ℕ) :
    List FlashOp × Place × Option Errno :=
  -- there was already a version of the table: reuse the page
  match (match place.page with
    | some page => some page
    | none => placeBbt g td bbt mdPage) with
  | none => ([], place, some .enospc)
  | some page =>
    if nandIsbadBbt bbt (page / g.pagesPerBlock) true then ([], place, some .eio)
    else
      ([.erase page, .program page ⟨tableBuf g td bbt, tableOob td place.version⟩],
        { place with page := some page }, none)

/-- The table in memory, and what is known of the tables on the flash. -/
structure Mem where
  bbt : ℕ → Mark
  td : Place
  md : Place

/-- `nand_update_bbt`: the operations on the flash, the memory, and the error. -/
def nandUpdateBbt (td md : Descr) (m : Mem) : List FlashOp × Mem × Option Errno :=
  let tdPlace := { m.td with version := m.td.version + 1 }
  let mdPlace := { m.md with version := m.md.version + 1 }
  match writeBbt g td m.bbt tdPlace mdPlace.page with
  | (ops, tdPlace, some e) => (ops, { m with td := tdPlace, md := mdPlace }, some e)
  | (ops, tdPlace, none) =>
    match writeBbt g md m.bbt mdPlace tdPlace.page with
    | (ops', mdPlace, e) => (ops ++ ops', { m with td := tdPlace, md := mdPlace }, e)

/-! ## Scan -/

/-- `check_pattern`, without the options for the scan of the device. -/
def checkPattern (page : Page) (td : Descr) : Bool :=
  (range td.pattern.length).all fun i => page.oob (td.offs + i) == td.pattern.getD i 0

def searchBbt (td : Descr) : Place :=
  match (range td.maxblocks).find? fun i =>
      checkPattern (flash ((g.numblocks - 1 - i) * g.pagesPerBlock)) td with
  | none => { page := none, version := 0 }
  | some i =>
    let page := (g.numblocks - 1 - i) * g.pagesPerBlock
    { page := some page, version := (flash page).oob td.veroffs }

/-- What an entry of a table on the flash adds to the memory table. -/
def entryMark (td : Descr) (tmp : Byte) : Mark :=
  if tmp = BitVec.ofNat 8 (2 ^ td.nrbits.bits - 1) then 0
  else if td.reservedBlockCode ≠ 0 ∧ tmp = td.reservedBlockCode then 2
  -- factory marked bad or worn out?
  else if tmp = 0 then 3
  else 1

def readBbt (page : ℕ) (td : Descr) (bbt : ℕ → Mark) : ℕ → Mark :=
  let bits := td.nrbits.bits
  forRange (g.numblocks * bits / 8)
    (fun i bbt =>
      forRange (8 / bits)
        (fun j bbt =>
          let tmp := ((flash page).data i >>> (j * bits)) &&& BitVec.ofNat 8 (2 ^ bits - 1)
          let block := i * (8 / bits) + j
          update bbt block (bbt block ||| entryMark td tmp))
        bbt)
    bbt

def readAbsBbt (place : Place) (td : Descr) (bbt : ℕ → Mark) : ℕ → Mark :=
  match place.page with
  | none => bbt
  | some page => readBbt g flash page td bbt

/-- What `check_create` is to do: the memory with the tables read, and which tables are to be
written. `create` is the table that a scan of the device gives. -/
def checkTables (td md : Descr) (create : Flash → ℕ → Mark) (m : Mem) : Mem × Bool × Bool :=
  match m.td.page, m.md.page with
  | none, none =>
    ({ bbt := create flash, td := { m.td with version := 1 }, md := { m.md with version := 1 } },
      true, true)
  | none, some _ =>
    ({ m with
        bbt := readAbsBbt g flash m.md md m.bbt
        td := { m.td with version := m.md.version } }, true, false)
  | some _, none =>
    ({ m with
        bbt := readAbsBbt g flash m.td td m.bbt
        md := { m.md with version := m.td.version } }, false, true)
  | some _, some _ =>
    if m.td.version = m.md.version then
      ({ m with bbt := readAbsBbt g flash m.td td m.bbt }, false, false)
    else if 0 < (m.td.version - m.md.version).toInt then
      ({ m with
          bbt := readAbsBbt g flash m.td td m.bbt
          md := { m.md with version := m.td.version } }, false, true)
    else
      ({ m with
          bbt := readAbsBbt g flash m.md md m.bbt
          td := { m.td with version := m.md.version } }, true, false)

/-- `check_create`: the operations on the flash, the memory, and the error. -/
def checkCreate (td md : Descr) (create : Flash → ℕ → Mark) (m : Mem) :
    List FlashOp × Mem × Option Errno :=
  let c := checkTables g flash td md create m
  let m := c.1
  let w1 := if c.2.1 then writeBbt g td m.bbt m.td m.md.page else ([], m.td, none)
  let m := { m with td := w1.2.1 }
  if w1.2.2.isSome then (w1.1, m, w1.2.2)
  else
    let w2 := if c.2.2 then writeBbt g md m.bbt m.md m.td.page else ([], m.md, none)
    (w1.1 ++ w2.1, { m with md := w2.2.1 }, w2.2.2)

/-- The loop of `mark_bbt_region`: the last blocks are reserved. -/
def reserveBlocks (td : Descr) (bbt : ℕ → Mark) : ℕ → Mark :=
  forRange td.maxblocks
    (fun j bbt =>
      let block := g.numblocks - td.maxblocks + j
      update bbt block (bbt block ||| 2))
    bbt

/-- `mark_bbt_region` of one of the tables: the operations on the flash, and the memory. If
reserved blocks are recorded on the flash and there are new ones, the tables are updated. -/
def markBbtRegion (td md d : Descr) (m : Mem) : List FlashOp × Mem :=
  let bbt := reserveBlocks g d m.bbt
  let changed := (range d.maxblocks).any fun j =>
    bbt (g.numblocks - d.maxblocks + j) != m.bbt (g.numblocks - d.maxblocks + j)
  let m := { m with bbt := bbt }
  if changed && d.reservedBlockCode != 0 then
    let u := nandUpdateBbt g td md m
    (u.1, u.2.1)
  else ([], m)

/-- `nand_scan_bbt`: the flash and the memory after it, and the error. -/
def nandScanBbt (td md : Descr) (create : Flash → ℕ → Mark) (flash : Flash) :
    Flash × Mem × Option Errno :=
  let m : Mem := { bbt := fun _ => 0, td := searchBbt g flash td, md := searchBbt g flash md }
  let c := checkCreate g flash td md create m
  let r1 := markBbtRegion g td md td c.2.1
  let r2 := markBbtRegion g td md md r1.2
  (applyOps g flash (c.1 ++ r1.1 ++ r2.1), r2.2, c.2.2)

end NestLinux.NandBbt
