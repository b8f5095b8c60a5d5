import NestLinux.Lib.Overlay
import NestLinux.Lib.Word32

/-!
# The JFFS2 write buffer

`fs/jffs2/wbuf.c`: on NAND flash only whole pages are written, each of them once between
two erasures of its block. What is written is collected in a buffer of one page, except for
the whole pages of a vector. A read takes from the buffer what is not on the flash yet.

The flash is a function from addresses to bytes, with the number of times that each page
was programmed since its block was erased. Programming can clear bits only. All writes to
the flash succeed; the node references and the sizes that the code keeps for a block are
left out. `none` as the result of a write is its `BUG()`.
-/

namespace NestLinux.Wbuf

open Lib

abbrev Byte := BitVec 8

/-- The layout of the flash: `wbuf_pagesize`, `sector_size` and `flash_size`. -/
structure Geometry where
  pagesize : ℕ
  sectorSize : ℕ
  flashSize : ℕ
  pagesize_pos : 0 < pagesize
  four_dvd : 4 ∣ pagesize
  page_dvd : pagesize ∣ sectorSize
  sectorSize_pos : 0 < sectorSize
  flashSize_lt : flashSize < 2 ^ 32

/-- The part of `struct jffs2_sb_info` for the write buffer, and the flash. -/
structure SbInfo where
  /-- `wbuf_ofs`, the address of the buffer. -/
  ofs : ℕ
  /-- `wbuf_len`, how much of the buffer is in use. -/
  len : ℕ
  /-- `wbuf`. -/
  buf : ℕ → Byte
  /-- What is on the flash. -/
  data : ℕ → Byte
  /-- How often a page was programmed since its block was erased. -/
  programmed : ℕ → ℕ
  /-- The calls of `mtd->write`, with their addresses and lengths. -/
  log : List (ℕ × ℕ)

/-- The value of `wbuf_ofs` where it is not initialized. -/
def noOfs : ℕ := 0xffffffff

variable (g : Geometry)

def pageDiv (x : ℕ) : ℕ := x / g.pagesize * g.pagesize

def pageMod (x : ℕ) : ℕ := x % g.pagesize

def sectorAddr (x : ℕ) : ℕ := x / g.sectorSize * g.sectorSize

def pad (x : ℕ) : ℕ := add32 x 3 / 4 * 4

variable (c : SbInfo)

/-- `mtd->write`. -/
def mtdWrite (dst len : ℕ) (bytes : ℕ → Byte) : SbInfo :=
  { c with
    data := fun a => if dst ≤ a ∧ a < dst + len then c.data a &&& bytes (a - dst) else c.data a
    programmed := fun p =>
      if dst < (p + 1) * g.pagesize ∧ p * g.pagesize < dst + len then c.programmed p + 1
      else c.programmed p
    log := c.log ++ [(dst, len)] }

/-! ## Flush -/

/-- Meaning of the `pad` argument. -/
inductive PadMode
  | noPad
  | padNoaccount
  | padAccounting
  deriving DecidableEq, Repr

/-- `crc32_le`, one byte. -/
def crc32Byte (crc : BitVec 32) (b : Byte) : BitVec 32 :=
  Nat.iterate (fun x => if x.getLsbD 0 then (x >>> 1) ^^^ 0xedb88320#32 else x >>> 1) 8
    (crc ^^^ b.zeroExtend 32)

def crc32 (seed : BitVec 32) (bytes : List Byte) : BitVec 32 := bytes.foldl crc32Byte seed

/-- The bytes of a word of `n` bytes, in memory. -/
def leBytes (n x : ℕ) : List Byte := (List.range n).map fun i => BitVec.ofNat 8 (x / 256 ^ i)

/-- A `struct jffs2_unknown_node` of type `JFFS2_NODETYPE_PADDING`. -/
def padNode (totlen : ℕ) : List Byte :=
  let head := leBytes 2 0x1985 ++ leBytes 2 0x2004 ++ leBytes 4 totlen
  head ++ leBytes 4 (crc32 0 head).toNat

/-- Claim the remaining space on the page. -/
def padWbuf : SbInfo :=
  let len := pad c.len
  let buf : ℕ → Byte := fun i => if len ≤ i ∧ i < g.pagesize then 0 else c.buf i
  { c with
    len := len
    buf := if len + 12 < g.pagesize then overlay buf len (padNode (g.pagesize - len)) else buf }

/-- `__jffs2_flush_wbuf`. -/
def flushWbuf (mode : PadMode) (c : SbInfo) : SbInfo :=
  if c.len = 0 then c
  else
    let c := if mode = .noPad then c else padWbuf g c
    let c := mtdWrite g c c.ofs g.pagesize c.buf
    { c with
      buf := fun _ => 0xff
      -- adjust write buffer offset, else we get a non contiguous write bug
      ofs := add32 c.ofs g.pagesize
      len := 0 }

/-- `jffs2_flush_wbuf_pad`. -/
def flushWbufPad : SbInfo := flushWbuf g .padNoaccount c

/-! ## Write -/

/-- `jffs2_fill_wbuf`: how many bytes it takes, and the buffer. -/
def fillWbuf (v : List Byte) : ℕ × SbInfo :=
  if v.length ≠ 0 ∧ c.len = 0 ∧ g.pagesize ≤ v.length then (0, c)
  else
    let len := if g.pagesize - c.len < v.length then g.pagesize - c.len else v.length
    (len, { c with buf := overlay c.buf c.len (v.take len), len := c.len + len })

/-- Fill the buffer, and flush it where it is full. -/
def fillFlush (v : List Byte) : ℕ × SbInfo :=
  let r := fillWbuf g c v
  (r.1, if r.2.len = g.pagesize then flushWbuf g .noPad r.2 else r.2)

/-- The whole pages of a vector go to the flash: how many bytes, and the state. -/
def writePages (outvecTo : ℕ) (v : List Byte) : ℕ × SbInfo :=
  if g.pagesize ≤ v.length then
    let len := pageDiv g v.length
    (len, { mtdWrite g c outvecTo len (fun i => v.getD i 0) with ofs := add32 outvecTo len })
  else (0, c)

/-- One vector of `jffs2_flash_writev`: `outvec_to` after it, and the state. -/
def writeVec (outvecTo : ℕ) (c : SbInfo) (v : List Byte) : ℕ × SbInfo :=
  let r1 := fillFlush g c v
  let to1 := add32 outvecTo r1.1
  let v1 := v.drop r1.1
  let r2 := writePages g r1.2 to1 v1
  let to2 := add32 to1 r2.1
  let r3 := fillFlush g r2.2 (v1.drop r2.1)
  (add32 to2 r3.1, r3.2)

/-- The loop of `jffs2_flash_writev` over the vectors. -/
def writeVecs : ℕ → SbInfo → List (List Byte) → SbInfo
  | _, c, [] => c
  | outvecTo, c, v :: invecs =>
    let r := writeVec g outvecTo c v
    writeVecs r.1 r.2 invecs

/-- If `wbuf_ofs` is not initialized, set it to the target address. -/
def initWbuf (dst : ℕ) : SbInfo :=
  if c.ofs = noOfs then { c with ofs := pageDiv g dst, len := pageMod g dst, buf := fun _ => 0xff }
  else c

/-- A write to a new block: flush what is in the buffer, and set it to the new block. -/
def switchBlock (dst : ℕ) : SbInfo :=
  if sectorAddr g dst ≠ sectorAddr g c.ofs then
    let c := if c.len ≠ 0 then flushWbuf g .padNoaccount c else c
    { c with ofs := pageDiv g dst, len := pageMod g dst }
  else c

def alignWbuf (dst : ℕ) : SbInfo :=
  if c.len ≠ pageMod g dst then
    -- take care of alignment to next page
    if pageMod g dst = 0 then flushWbuf g .noPad { c with len := g.pagesize }
    else { c with len := pageMod g dst }
  else c

/-- `jffs2_flash_writev`. -/
def flashWritev (invecs : List (List Byte)) (dst : ℕ) : Option SbInfo :=
  let c := switchBlock g (initWbuf g c dst) dst
  if dst ≠ pad (add32 c.ofs c.len) then none
  else some (writeVecs g dst (alignWbuf g c dst) invecs)

/-- What `jffs2_find_nextblock` does to the buffer when it gives out a new block. -/
def findNextblock : SbInfo :=
  if c.ofs % g.sectorSize = 0 ∧ c.len = 0 then { c with ofs := noOfs } else c

/-! ## Read and erase -/

/-- `jffs2_flash_read`. -/
def flashRead (ofs len : ℕ) : List Byte :=
  let flash : ℕ → Byte := fun i => c.data (ofs + i)
  let result : ℕ → Byte :=
    -- if write buffer empty, return
    if c.len = 0 then flash
    -- if we read in a different block, return
    else if sectorAddr g ofs ≠ sectorAddr g c.ofs then flash
    else if c.ofs ≤ ofs then
      let owbf := ofs - c.ofs
      if c.len < owbf then flash
      else overlay flash 0 ((List.range (min (c.len - owbf) len)).map fun i => c.buf (owbf + i))
    else
      let orbf := c.ofs - ofs
      if len < orbf then flash
      else overlay flash orbf ((List.range (min (len - orbf) c.len)).map fun i => c.buf i)
  (List.range len).map result

def eraseBlock (block : ℕ) : SbInfo :=
  { c with
    data := fun a => if block ≤ a ∧ a < block + g.sectorSize then 0xff else c.data a
    programmed := fun p =>
      if block ≤ p * g.pagesize ∧ p * g.pagesize < block + g.sectorSize then 0
      else c.programmed p }

end NestLinux.Wbuf
