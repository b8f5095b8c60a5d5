import NestLinux.Lib.XorSum
import Mathlib.Data.Int.Notation

/-!
# The software NAND ECC

`drivers/mtd/nand/nand_ecc.c`: a Hamming code of 22 or 24 parity bits over a block of
256 or 512 bytes, read as 32-bit words in a loop that is unrolled sixteen times.

The byte order of the machine and `CONFIG_MTD_NAND_ECC_SMC` are parameters.
-/

namespace NestLinux.Mtd.NandEcc

open Lib

/-! ## Tables -/

/-- `1` for a byte with an even number of bits set, `0` for an odd one. -/
def invparity : List ℕ :=
  [1,0,0,1,0,1,1,0,0,1,1,0,1,0,0,1,
   0,1,1,0,1,0,0,1,1,0,0,1,0,1,1,0,
   0,1,1,0,1,0,0,1,1,0,0,1,0,1,1,0,
   1,0,0,1,0,1,1,0,0,1,1,0,1,0,0,1,
   0,1,1,0,1,0,0,1,1,0,0,1,0,1,1,0,
   1,0,0,1,0,1,1,0,0,1,1,0,1,0,0,1,
   1,0,0,1,0,1,1,0,0,1,1,0,1,0,0,1,
   0,1,1,0,1,0,0,1,1,0,0,1,0,1,1,0,
   0,1,1,0,1,0,0,1,1,0,0,1,0,1,1,0,
   1,0,0,1,0,1,1,0,0,1,1,0,1,0,0,1,
   1,0,0,1,0,1,1,0,0,1,1,0,1,0,0,1,
   0,1,1,0,1,0,0,1,1,0,0,1,0,1,1,0,
   1,0,0,1,0,1,1,0,0,1,1,0,1,0,0,1,
   0,1,1,0,1,0,0,1,1,0,0,1,0,1,1,0,
   0,1,1,0,1,0,0,1,1,0,0,1,0,1,1,0,
   1,0,0,1,0,1,1,0,0,1,1,0,1,0,0,1]

/-- The number of bits set in a byte. -/
def bitsperbyte : List ℕ :=
  [0,1,1,2,1,2,2,3,1,2,2,3,2,3,3,4,
   1,2,2,3,2,3,3,4,2,3,3,4,3,4,4,5,
   1,2,2,3,2,3,3,4,2,3,3,4,3,4,4,5,
   2,3,3,4,3,4,4,5,3,4,4,5,4,5,5,6,
   1,2,2,3,2,3,3,4,2,3,3,4,3,4,4,5,
   2,3,3,4,3,4,4,5,3,4,4,5,4,5,5,6,
   2,3,3,4,3,4,4,5,3,4,4,5,4,5,5,6,
   3,4,4,5,4,5,5,6,4,5,5,6,5,6,6,7,
   1,2,2,3,2,3,3,4,2,3,3,4,3,4,4,5,
   2,3,3,4,3,4,4,5,3,4,4,5,4,5,5,6,
   2,3,3,4,3,4,4,5,3,4,4,5,4,5,5,6,
   3,4,4,5,4,5,5,6,4,5,5,6,5,6,6,7,
   2,3,3,4,3,4,4,5,3,4,4,5,4,5,5,6,
   3,4,4,5,4,5,5,6,4,5,5,6,5,6,6,7,
   3,4,4,5,4,5,5,6,4,5,5,6,5,6,6,7,
   4,5,5,6,5,6,6,7,5,6,6,7,6,7,7,8]

/-- The odd-numbered bits of a byte, packed. -/
def addressbits : List ℕ :=
  [0,0,1,1,0,0,1,1,2,2,3,3,2,2,3,3,
   0,0,1,1,0,0,1,1,2,2,3,3,2,2,3,3,
   4,4,5,5,4,4,5,5,6,6,7,7,6,6,7,7,
   4,4,5,5,4,4,5,5,6,6,7,7,6,6,7,7,
   0,0,1,1,0,0,1,1,2,2,3,3,2,2,3,3,
   0,0,1,1,0,0,1,1,2,2,3,3,2,2,3,3,
   4,4,5,5,4,4,5,5,6,6,7,7,6,6,7,7,
   4,4,5,5,4,4,5,5,6,6,7,7,6,6,7,7,
   8,8,9,9,8,8,9,9,10,10,11,11,10,10,11,11,
   8,8,9,9,8,8,9,9,10,10,11,11,10,10,11,11,
   12,12,13,13,12,12,13,13,14,14,15,15,14,14,15,15,
   12,12,13,13,12,12,13,13,14,14,15,15,14,14,15,15,
   8,8,9,9,8,8,9,9,10,10,11,11,10,10,11,11,
   8,8,9,9,8,8,9,9,10,10,11,11,10,10,11,11,
   12,12,13,13,12,12,13,13,14,14,15,15,14,14,15,15,
   12,12,13,13,12,12,13,13,14,14,15,15,14,14,15,15]

/-! ## The loop -/

/-- Word `k` of the buffer as the machine reads it. -/
def word (bigEndian : Bool) (buf : ℕ → ℕ) (k : ℕ) : ℕ :=
  if bigEndian then
    (buf (4 * k) <<< 24) ^^^ (buf (4 * k + 1) <<< 16) ^^^ (buf (4 * k + 2) <<< 8) ^^^
      buf (4 * k + 3)
  else
    (buf (4 * k + 3) <<< 24) ^^^ (buf (4 * k + 2) <<< 16) ^^^ (buf (4 * k + 1) <<< 8) ^^^
      buf (4 * k)

structure EccAcc where
  par : ℕ
  rp4 : ℕ
  rp6 : ℕ
  rp8 : ℕ
  rp10 : ℕ
  rp12 : ℕ
  rp14 : ℕ
  rp16 : ℕ

/-- One turn of the unrolled loop, on the words `16 * i` to `16 * i + 15`. -/
def eccStep (eccsizeMult : ℕ) (w : ℕ → ℕ) (i : ℕ) (s : EccAcc) : EccAcc :=
  let cur := w (16 * i)
  let tmppar := cur
  let rp4 := s.rp4 ^^^ cur
  let cur := w (16 * i + 1)
  let tmppar := tmppar ^^^ cur
  let rp6 := s.rp6 ^^^ tmppar
  let cur := w (16 * i + 2)
  let tmppar := tmppar ^^^ cur
  let rp4 := rp4 ^^^ cur
  let cur := w (16 * i + 3)
  let tmppar := tmppar ^^^ cur
  let rp8 := s.rp8 ^^^ tmppar
  let cur := w (16 * i + 4)
  let tmppar := tmppar ^^^ cur
  let rp4 := rp4 ^^^ cur
  let rp6 := rp6 ^^^ cur
  let cur := w (16 * i + 5)
  let tmppar := tmppar ^^^ cur
  let rp6 := rp6 ^^^ cur
  let cur := w (16 * i + 6)
  let tmppar := tmppar ^^^ cur
  let rp4 := rp4 ^^^ cur
  let cur := w (16 * i + 7)
  let tmppar := tmppar ^^^ cur
  let rp10 := s.rp10 ^^^ tmppar
  let cur := w (16 * i + 8)
  let tmppar := tmppar ^^^ cur
  let rp4 := rp4 ^^^ cur
  let rp6 := rp6 ^^^ cur
  let rp8 := rp8 ^^^ cur
  let cur := w (16 * i + 9)
  let tmppar := tmppar ^^^ cur
  let rp6 := rp6 ^^^ cur
  let rp8 := rp8 ^^^ cur
  let cur := w (16 * i + 10)
  let tmppar := tmppar ^^^ cur
  let rp4 := rp4 ^^^ cur
  let rp8 := rp8 ^^^ cur
  let cur := w (16 * i + 11)
  let tmppar := tmppar ^^^ cur
  let rp8 := rp8 ^^^ cur
  let cur := w (16 * i + 12)
  let tmppar := tmppar ^^^ cur
  let rp4 := rp4 ^^^ cur
  let rp6 := rp6 ^^^ cur
  let cur := w (16 * i + 13)
  let tmppar := tmppar ^^^ cur
  let rp6 := rp6 ^^^ cur
  let cur := w (16 * i + 14)
  let tmppar := tmppar ^^^ cur
  let rp4 := rp4 ^^^ cur
  let cur := w (16 * i + 15)
  let tmppar := tmppar ^^^ cur
  { par := s.par ^^^ tmppar
    rp4 := rp4
    rp6 := rp6
    rp8 := rp8
    rp10 := rp10
    rp12 := if i &&& 0x1 = 0 then s.rp12 ^^^ tmppar else s.rp12
    rp14 := if i &&& 0x2 = 0 then s.rp14 ^^^ tmppar else s.rp14
    rp16 := if eccsizeMult = 2 ∧ i &&& 0x4 = 0 then s.rp16 ^^^ tmppar else s.rp16 }

def accumulate (eccsizeMult : ℕ) (w : ℕ → ℕ) : EccAcc :=
  forRange (eccsizeMult <<< 2) (eccStep eccsizeMult w) ⟨0, 0, 0, 0, 0, 0, 0, 0⟩

/-! ## The parities -/

/-- Fold the upper and lower 16 bits, then the upper and lower 8 bits. -/
def foldByte (x : ℕ) : ℕ :=
  let x := x ^^^ (x >>> 16)
  let x := x ^^^ (x >>> 8)
  x &&& 0xff

/-- Fold the upper and lower 8 bits. -/
def foldHalf (x : ℕ) : ℕ := (x ^^^ (x >>> 8)) &&& 0xff

/-- The overall parity reduced to 8 bits. -/
def parByte (s : EccAcc) : ℕ := foldByte s.par

/-- `rp0` to `rp3`, from the overall parity; `rp4` to `rp17`, from the accumulators and
their complements in the overall parity. `rp16` and `rp17` are only used with 512
bytes. -/
def rowParity (bigEndian : Bool) (eccsizeMult : ℕ) (s : EccAcc) : ℕ → ℕ
  | 0 =>
    let par := s.par ^^^ (s.par >>> 16)
    if bigEndian then (par >>> 8) &&& 0xff else par &&& 0xff
  | 1 =>
    let par := s.par ^^^ (s.par >>> 16)
    if bigEndian then par &&& 0xff else (par >>> 8) &&& 0xff
  | 2 => if bigEndian then foldHalf (s.par >>> 16) else foldHalf (s.par &&& 0xffff)
  | 3 => if bigEndian then foldHalf (s.par &&& 0xffff) else foldHalf (s.par >>> 16)
  | 4 => foldByte s.rp4
  | 5 => (parByte s ^^^ foldByte s.rp4) &&& 0xff
  | 6 => foldByte s.rp6
  | 7 => (parByte s ^^^ foldByte s.rp6) &&& 0xff
  | 8 => foldByte s.rp8
  | 9 => (parByte s ^^^ foldByte s.rp8) &&& 0xff
  | 10 => foldByte s.rp10
  | 11 => (parByte s ^^^ foldByte s.rp10) &&& 0xff
  | 12 => foldByte s.rp12
  | 13 => (parByte s ^^^ foldByte s.rp12) &&& 0xff
  | 14 => foldByte s.rp14
  | 15 => (parByte s ^^^ foldByte s.rp14) &&& 0xff
  | 16 => if eccsizeMult = 2 then foldByte s.rp16 else s.rp16
  | 17 => if eccsizeMult = 2 then (parByte s ^^^ foldByte s.rp16) &&& 0xff else 0
  | _ => 0

/-! ## The code -/

structure Code where
  c0 : ℕ
  c1 : ℕ
  c2 : ℕ
  deriving DecidableEq, Repr

def packByte (b : ℕ → ℕ) : ℕ :=
  (b 7 <<< 7) ||| (b 6 <<< 6) ||| (b 5 <<< 5) ||| (b 4 <<< 4) |||
    (b 3 <<< 3) ||| (b 2 <<< 2) ||| (b 1 <<< 1) ||| b 0

/-- The masks of the column parities, from bit 2 of the third byte on. -/
def colMask : ℕ → ℕ
  | 2 => 0x55
  | 3 => 0xaa
  | 4 => 0x33
  | 5 => 0xcc
  | 6 => 0x0f
  | 7 => 0xf0
  | _ => 0

def nandCalculateEcc (bigEndian smc : Bool) (buf : List UInt8) (eccsize : ℕ) : Code :=
  let eccsizeMult := eccsize >>> 8
  let s := accumulate eccsizeMult (word bigEndian fun i => (buf.getD i 0).toNat)
  let rp := rowParity bigEndian eccsizeMult s
  let low := packByte fun j => invparity.getD (rp j) 0
  let high := packByte fun j => invparity.getD (rp (8 + j)) 0
  let third := packByte fun j =>
    if j < 2 then (if eccsizeMult = 1 then 1 else invparity.getD (rp (16 + j)) 0)
    else invparity.getD (parByte s &&& colMask j) 0
  if smc then ⟨low, high, third⟩ else ⟨high, low, third⟩

/-- `__nand_correct_data`: the return value and the buffer. -/
def nandCorrectData (smc : Bool) (buf : List UInt8) (readEcc calcEcc : Code) (eccsize : ℕ) :
    ℤ × List UInt8 :=
  let eccsizeMult := eccsize >>> 8
  let b0 := if smc then readEcc.c0 ^^^ calcEcc.c0 else readEcc.c1 ^^^ calcEcc.c1
  let b1 := if smc then readEcc.c1 ^^^ calcEcc.c1 else readEcc.c0 ^^^ calcEcc.c0
  let b2 := readEcc.c2 ^^^ calcEcc.c2
  if b0 ||| b1 ||| b2 = 0 then (0, buf)
  else if (b0 ^^^ (b0 >>> 1)) &&& 0x55 = 0x55 ∧ (b1 ^^^ (b1 >>> 1)) &&& 0x55 = 0x55 ∧
      ((eccsizeMult = 1 ∧ (b2 ^^^ (b2 >>> 1)) &&& 0x54 = 0x54) ∨
        (eccsizeMult = 2 ∧ (b2 ^^^ (b2 >>> 1)) &&& 0x55 = 0x55)) then
    let byteAddr := if eccsizeMult = 1 then (addressbits.getD b1 0 <<< 4) + addressbits.getD b0 0
      else (addressbits.getD (b2 &&& 0x3) 0 <<< 8) + (addressbits.getD b1 0 <<< 4) +
        addressbits.getD b0 0
    let bitAddr := addressbits.getD (b2 >>> 2) 0
    (1, buf.set byteAddr (buf.getD byteAddr 0 ^^^ UInt8.ofNat (1 <<< bitAddr)))
  else if bitsperbyte.getD b0 0 + bitsperbyte.getD b1 0 + bitsperbyte.getD b2 0 = 1 then (1, buf)
  else (-1, buf)

end NestLinux.Mtd.NandEcc
