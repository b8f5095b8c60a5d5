import NestLinux.Lib.Loops
import Mathlib.Algebra.Order.Ring.Int

/-!
# The software half of the OMAP BCH decoder

`drivers/mtd/nand/omap_bch_decoder.c`: the GPMC hardware delivers the remainder of
the received word modulo the generator polynomial, and `decode_bch` turns it into the
positions of the flipped bits in three stages. `syndrome` evaluates the remainder at
the powers of the primitive element, `berlekamp` finds the error locator polynomial,
and `chien` searches its roots.

An `unsigned int` that holds a field element is a natural number below `2 ^ 13`; an
array is a list, with the contents the caller left in `err_loc` passed in.
-/

namespace NestLinux.Mtd.Bch

open Lib

/-- Degree of the field, `m = 13`. -/
def mm : ℕ := 13

def kkShorten : ℕ := 4096

/-- Length of a codeword, `n = 2 ^ mm - 1`. -/
def nn : ℕ := 8191

/-- The primitive polynomial `x^13 + x^4 + x^3 + x + 1`. -/
def PPP : ℕ := 0x201B

/-- The primitive polynomial with `x^13` omitted. -/
def P : ℕ := 0x001B

/-- Degree of the primitive polynomial less one. -/
def POLY : ℕ := 12

/-! ## The field multiplier -/

/-- One turn of the loop of `mpy_mod_gf`, on the pair `(R, R1)`. -/
def mpyStep (a b : ℕ) (k : ℕ) (s : ℕ × ℕ) : ℕ × ℕ :=
  let R := (s.1 <<< 1) &&& 0x1FFE
  let R := if s.2 = 1 then R ^^^ P else R
  let R := if (a >>> (POLY - k)) &&& 1 = 1 then R ^^^ b else R
  (R, if k < POLY then (R >>> POLY) &&& 1 else s.2)

/-- `mpy_mod_gf`: `A(x) * B(x) mod P(x)`, most significant bit of `a` first. -/
def mpyModGf (a b : ℕ) : ℕ := (forRange mm (mpyStep a b) (0, 0)).1

/-! ## The Chien search -/

structure ChienState where
  count : ℕ
  gammas : List ℕ
  location : List ℕ

/-- `ecc_bits` of `chien`. -/
def eccBits (select48 : ℕ) : ℕ := if select48 = 0 then 52 else 104

/-- `gammas[0..7]` times `alpha^-1`, `alpha^-2`, …, the powers being built up in
`alpha` from `PPP >> 1`. -/
def scaleGammas : ℕ → List ℕ → List ℕ
  | _, [] => []
  | alpha, g :: gs => mpyModGf g alpha :: scaleGammas (mpyModGf alpha (PPP >>> 1)) gs

/-- Bit position in the main data area of the exponent `i - 1`: the bits of each byte
are numbered the other way round. -/
def bitPos (p : ℕ) : ℕ := (p &&& 0xFFFFFFF8) ||| (7 - (p &&& 7))

/-- `kk_shorten - (bit - 2 * ecc_bits) - 1`, in `unsigned int` arithmetic. -/
def errLocation (select48 p : ℕ) : ℕ :=
  (((kkShorten : ℤ) - ((bitPos p : ℤ) - 2 * eccBits select48) - 1) % 2 ^ 32).toNat

/-- The loop body of `chien` for one `i`. -/
def chienStep (select48 i : ℕ) (s : ChienState) : ChienState :=
  let elpSum := s.gammas.foldl (· ^^^ ·) 1
  let gammas := scaleGammas (PPP >>> 1) s.gammas
  if elpSum = 0 ∧ 2 * eccBits select48 ≤ i then
    ⟨s.count + 1, gammas, s.location.set s.count (errLocation select48 (i - 1))⟩
  else
    ⟨s.count, gammas, s.location⟩

/-- `for (i = ...; (i <= nn) && (count < err_nums); i++)`, with the number of turns up
to `nn` that are left as the first argument. -/
def chienLoop (select48 errNums : ℕ) : ℕ → ℕ → ChienState → ChienState
  | 0, _, s => s
  | n + 1, i, s =>
    if s.count < errNums then chienLoop select48 errNums n (i + 1) (chienStep select48 i s)
    else s

/-- `chien`: the number of located errors, or `-1` if it is not `err_nums`, and the
location array. -/
def chien (select48 errNums : ℕ) (err location : List ℕ) : ℤ × List ℕ :=
  let s := chienLoop select48 errNums nn 1 ⟨0, err, location⟩
  (if s.count ≠ errNums then -1 else s.count, s.location)

/-! ## Berlekamp–Massey -/

/-- The registers of the inversion of `d` (step 1). -/
structure InvState where
  v : ℕ
  u : ℕ
  ss : ℕ
  invd : ℕ
  sign : ℕ
  e : ℤ

def invStep (s : InvState) : InvState :=
  let C1 := (s.v >>> 13) &&& 1
  let C2 := C1 &&& s.sign
  let sign := s.sign ^^^ (C2 ^^^ (if s.e = 0 then 1 else 0))
  let v := if C1 = 1 then s.v ^^^ s.u else s.v
  let ss := if C1 = 1 then s.ss ^^^ s.invd else s.ss
  let v := (v <<< 1) &&& 0x3FFF
  let u := if C2 = 1 then s.v else s.u
  let invd := if C2 = 1 then s.ss else s.invd
  let e := if C2 = 1 then -s.e else s.e
  ⟨v, u, ss, invd >>> 1, sign, e - 1⟩

/-- Step 1: `invd` is left at zero when `d` is zero. -/
def inversion (d : ℕ) : ℕ :=
  if d ≠ 0 then (forRange (2 * POLY + 1) (fun _ => invStep) ⟨d <<< 1, PPP, 0x2000, 0, 1, -1⟩).invd
  else 0

structure BmState where
  iteration : ℕ
  LL : ℕ
  gammas : List ℕ
  D : List ℕ

/-- Step 0: the distance between the syndromes and `ELP[n](z)`. -/
def discrepancy (synd : List ℕ) (s : BmState) : ℕ :=
  forRange (s.LL + 1) (fun loop d =>
    d ^^^ mpyModGf (s.gammas.getD loop 0) (synd.getD (s.iteration - loop) 0)) 0

/-- Steps 2 and 3 for one `loop`. -/
def updateStep (d invd : ℕ) (loop : ℕ) (s : BmState) : BmState :=
  let tmpPoly := mpyModGf d (s.D.getD loop 0)
  let nextGamma := s.gammas.getD loop 0 ^^^ tmpPoly
  if 2 * s.LL < s.iteration + 1 then
    { s with
      D := s.D.set loop (mpyModGf (s.gammas.getD loop 0) invd)
      gammas := s.gammas.set loop nextGamma
      LL := if loop = s.iteration + 1 then s.iteration - s.LL + 1 else s.LL }
  else if loop = s.iteration + 1 then
    { s with gammas := s.gammas.set loop nextGamma }
  else
    -- no `continue` here in the source: step 3 runs on the coefficient just written
    { s with
      gammas := s.gammas.set loop nextGamma
      D := s.D.set loop (mpyModGf nextGamma invd) }

/-- One turn of the `while` loop of `berlekamp`. -/
def bmStep (synd : List ℕ) (s : BmState) : BmState :=
  let d := discrepancy synd s
  let invd := inversion d
  let s' := if d ≠ 0 then forRange (s.iteration + 2) (updateStep d invd) s else s
  -- step 4: `D(z) = D(z) * z`
  { s' with D := 0 :: s'.D.take 15, iteration := s'.iteration + 1 }

/-- The `while` loop; `iteration` grows by one a turn, so the bound on it is also a
bound on the number of turns. -/
def bmLoop (select48 : ℕ) (synd : List ℕ) : ℕ → BmState → BmState
  | 0, s => s
  | n + 1, s =>
    if s.iteration < (select48 + 1) * 2 * 4 ∧ s.LL ≤ (select48 + 1) * 4 then
      bmLoop select48 synd n (bmStep synd s)
    else s

/-- `gammas` is `1` and `D` is `z` at the start. -/
def bmInit : BmState := ⟨0, 0, (List.replicate 16 0).set 0 1, (List.replicate 16 0).set 1 1⟩

/-- `berlekamp`: the number of detected errors and the coefficients `1..8` of the
error locator polynomial. -/
def berlekamp (select48 : ℕ) (synd : List ℕ) : ℕ × List ℕ :=
  let s := bmLoop select48 synd ((select48 + 1) * 2 * 4) bmInit
  (s.LL, (s.gammas.drop 1).take 8)

/-! ## Syndromes -/

/-- Bit number `pos` of the buffer, most significant bit of each byte first. -/
def eccBit (ecc : List UInt8) (pos : ℕ) : ℕ :=
  ((ecc.getD (pos / 8) 0).toNat >>> (7 - pos % 8)) &&& 1

/-- One clock of the shift register that multiplies by the primitive element. -/
def alphaStep (p : ℕ) : ℕ :=
  if (p >>> POLY) &&& 1 = 1 then ((p <<< 1) &&& 0x1FFF) ^^^ P else (p <<< 1) &&& 0x1FFF

structure SynState where
  syn : List ℕ
  powAlpha : List ℕ

/-- The loop body over `k` for one remainder bit. -/
def synStep (rBit : ℕ) (k : ℕ) (s : SynState) : SynState :=
  let p := s.powAlpha.getD k 0
  { syn := if rBit = 1 then s.syn.set (2 * k) (s.syn.getD (2 * k) 0 ^^^ p) else s.syn
    powAlpha := s.powAlpha.set k (forRange (2 * k + 1) (fun _ => alphaStep) p) }

def synT (select48 : ℕ) : ℕ := if select48 = 0 then 4 else 8

/-- First bit of the remainder in the buffer: bits `55 .. 4` or `103 .. 0`. -/
def eccPos (select48 : ℕ) : ℕ := if select48 = 0 then 55 else 103

def eccMin (select48 : ℕ) : ℕ := if select48 = 0 then 4 else 0

/-- Odd powers of alpha, `1` to `15`. -/
def powAlphaInit : List ℕ := [0x0002, 0x0008, 0x0020, 0x0080, 0x0200, 0x0800, 0x001B, 0x006C]

/-- Step 1 of `syndrome`: the odd syndromes. -/
def synOdd (select48 : ℕ) (ecc : List UInt8) (syn : List ℕ) : SynState :=
  let t := synT select48
  let rBit := eccBit ecc (eccPos select48)
  let syn := forRange t (fun k syn => syn.set (2 * k) rBit) syn
  forRange (eccPos select48 - eccMin select48) (fun j s =>
    forRange t (synStep (eccBit ecc (eccPos select48 - 1 - j))) s) ⟨syn, powAlphaInit⟩

/-- `syndrome`: `syn[2k+1]` is the square of `syn[k]`. -/
def syndrome (select48 : ℕ) (ecc : List UInt8) (syn : List ℕ) : List ℕ :=
  forRange (synT select48) (fun k syn =>
    syn.set (2 * k + 1) (mpyModGf (syn.getD k 0) (syn.getD k 0))) (synOdd select48 ecc syn).syn

/-! ## The decoder -/

/-- `decode_bch`: the number of errors (or `-1`, or a length above what can be
corrected), and the error location array. -/
def decodeBch (select48 : ℕ) (ecc : List UInt8) (errLoc : List ℕ) : ℤ × List ℕ :=
  let syn := syndrome select48 ecc (List.replicate 16 0)
  let (noOfErr, errPoly) := berlekamp select48 syn
  if noOfErr ≤ 4 <<< select48 then chien select48 noOfErr errPoly errLoc
  else (noOfErr, errLoc)

end NestLinux.Mtd.Bch
