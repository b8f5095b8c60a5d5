import NestLinux.Lib.Interpreter
import Mathlib.Algebra.Order.Ring.Int
import Mathlib.Data.BitVec

/-!
# Socket filters

A model of the socket filter of `net/core/filter.c`: the checker `sk_chk_filter`, which
renumbers the codes of an untrusted program in place, and the interpreter
`sk_run_filter`, which runs the renumbered program on a packet without checking it
again.

The interpreter is a step function on its registers. What the C code would do wrong has
its own ending: `Exit.warn` is the default branch, `Exit.fellOff` is leaving the loop
at its end, and `Exit.fault` is an access outside the program or the scratch memory or a
division by zero. A register shift is that of the ARM: it takes the low byte of the
amount, and 32 or more leaves nothing.
-/

namespace NestLinux.Filter

open Lib UInt32

/-! ## Instructions -/

/-- The `BPF_S_` codes, in their order. -/
inductive Opcode
  | retK | retA
  | aluAddK | aluAddX | aluSubK | aluSubX | aluMulK | aluMulX | aluDivX
  | aluAndK | aluAndX | aluOrK | aluOrX | aluLshK | aluLshX | aluRshK | aluRshX | aluNeg
  | ldWAbs | ldHAbs | ldBAbs | ldWLen | ldWInd | ldHInd | ldBInd | ldImm
  | ldxWLen | ldxBMsh | ldxImm
  | miscTax | miscTxa
  | aluDivK
  | ldMem | ldxMem | st | stx
  | jmpJa | jmpJeqK | jmpJeqX | jmpJgeK | jmpJgeX | jmpJgtK | jmpJgtX | jmpJsetK | jmpJsetX
  deriving DecidableEq, Repr

/-- All codes in the order of the enumeration. -/
def Opcode.all : List Opcode :=
  [.retK, .retA, .aluAddK, .aluAddX, .aluSubK, .aluSubX, .aluMulK, .aluMulX, .aluDivX, .aluAndK,
   .aluAndX, .aluOrK, .aluOrX, .aluLshK, .aluLshX, .aluRshK, .aluRshX, .aluNeg,
   .ldWAbs, .ldHAbs, .ldBAbs, .ldWLen, .ldWInd, .ldHInd, .ldBInd, .ldImm,
   .ldxWLen, .ldxBMsh, .ldxImm,
   .miscTax, .miscTxa,
   .aluDivK,
   .ldMem, .ldxMem, .st, .stx,
   .jmpJa, .jmpJeqK, .jmpJeqX, .jmpJgeK, .jmpJgeX, .jmpJgtK, .jmpJgtX, .jmpJsetK, .jmpJsetX]

/-- The number a code has in the enumeration. -/
def Opcode.number (op : Opcode) : UInt16 := .ofNat (Opcode.all.idxOf op)

/-- The `case` of the interpreter a number selects; none is the default branch. -/
def Opcode.ofNumber (code : UInt16) : Option Opcode := Opcode.all[code.toNat]?

-- Instruction classes.
def bpfLd : UInt16 := 0x00
def bpfLdx : UInt16 := 0x01
def bpfSt : UInt16 := 0x02
def bpfStx : UInt16 := 0x03
def bpfAlu : UInt16 := 0x04
def bpfJmp : UInt16 := 0x05
def bpfRet : UInt16 := 0x06
def bpfMisc : UInt16 := 0x07

-- Fields of the loads.
def bpfW : UInt16 := 0x00
def bpfH : UInt16 := 0x08
def bpfB : UInt16 := 0x10
def bpfImm : UInt16 := 0x00
def bpfAbs : UInt16 := 0x20
def bpfInd : UInt16 := 0x40
def bpfMem : UInt16 := 0x60
def bpfLen : UInt16 := 0x80
def bpfMsh : UInt16 := 0xa0

-- Fields of the arithmetic and of the jumps.
def bpfAdd : UInt16 := 0x00
def bpfSub : UInt16 := 0x10
def bpfMul : UInt16 := 0x20
def bpfDiv : UInt16 := 0x30
def bpfOr : UInt16 := 0x40
def bpfAnd : UInt16 := 0x50
def bpfLsh : UInt16 := 0x60
def bpfRsh : UInt16 := 0x70
def bpfNeg : UInt16 := 0x80
def bpfJa : UInt16 := 0x00
def bpfJeq : UInt16 := 0x10
def bpfJgt : UInt16 := 0x20
def bpfJge : UInt16 := 0x30
def bpfJset : UInt16 := 0x40
def bpfK : UInt16 := 0x00
def bpfX : UInt16 := 0x08

-- Fields of the return and of the moves between the registers.
def bpfA : UInt16 := 0x10
def bpfTax : UInt16 := 0x00
def bpfTxa : UInt16 := 0x80

/-- The code the user writes for an instruction: the `case` of the checker that gives it
its `BPF_S_` code. -/
def Opcode.rawCode : Opcode → UInt16
  | .aluAddK => bpfAlu ||| bpfAdd ||| bpfK
  | .aluAddX => bpfAlu ||| bpfAdd ||| bpfX
  | .aluSubK => bpfAlu ||| bpfSub ||| bpfK
  | .aluSubX => bpfAlu ||| bpfSub ||| bpfX
  | .aluMulK => bpfAlu ||| bpfMul ||| bpfK
  | .aluMulX => bpfAlu ||| bpfMul ||| bpfX
  | .aluDivX => bpfAlu ||| bpfDiv ||| bpfX
  | .aluAndK => bpfAlu ||| bpfAnd ||| bpfK
  | .aluAndX => bpfAlu ||| bpfAnd ||| bpfX
  | .aluOrK => bpfAlu ||| bpfOr ||| bpfK
  | .aluOrX => bpfAlu ||| bpfOr ||| bpfX
  | .aluLshK => bpfAlu ||| bpfLsh ||| bpfK
  | .aluLshX => bpfAlu ||| bpfLsh ||| bpfX
  | .aluRshK => bpfAlu ||| bpfRsh ||| bpfK
  | .aluRshX => bpfAlu ||| bpfRsh ||| bpfX
  | .aluNeg => bpfAlu ||| bpfNeg
  | .ldWAbs => bpfLd ||| bpfW ||| bpfAbs
  | .ldHAbs => bpfLd ||| bpfH ||| bpfAbs
  | .ldBAbs => bpfLd ||| bpfB ||| bpfAbs
  | .ldWLen => bpfLd ||| bpfW ||| bpfLen
  | .ldWInd => bpfLd ||| bpfW ||| bpfInd
  | .ldHInd => bpfLd ||| bpfH ||| bpfInd
  | .ldBInd => bpfLd ||| bpfB ||| bpfInd
  | .ldImm => bpfLd ||| bpfImm
  | .ldxWLen => bpfLdx ||| bpfW ||| bpfLen
  | .ldxBMsh => bpfLdx ||| bpfB ||| bpfMsh
  | .ldxImm => bpfLdx ||| bpfImm
  | .miscTax => bpfMisc ||| bpfTax
  | .miscTxa => bpfMisc ||| bpfTxa
  | .retK => bpfRet ||| bpfK
  | .retA => bpfRet ||| bpfA
  | .aluDivK => bpfAlu ||| bpfDiv ||| bpfK
  | .ldMem => bpfLd ||| bpfMem
  | .ldxMem => bpfLdx ||| bpfMem
  | .st => bpfSt
  | .stx => bpfStx
  | .jmpJa => bpfJmp ||| bpfJa
  | .jmpJeqK => bpfJmp ||| bpfJeq ||| bpfK
  | .jmpJeqX => bpfJmp ||| bpfJeq ||| bpfX
  | .jmpJgeK => bpfJmp ||| bpfJge ||| bpfK
  | .jmpJgeX => bpfJmp ||| bpfJge ||| bpfX
  | .jmpJgtK => bpfJmp ||| bpfJgt ||| bpfK
  | .jmpJgtX => bpfJmp ||| bpfJgt ||| bpfX
  | .jmpJsetK => bpfJmp ||| bpfJset ||| bpfK
  | .jmpJsetX => bpfJmp ||| bpfJset ||| bpfX

/-- The instruction a code of the user's program stands for. -/
def Opcode.ofRawCode (code : UInt16) : Option Opcode :=
  Opcode.all.find? fun op => op.rawCode == code

/-- `struct sock_filter`. -/
structure SockFilter where
  code : UInt16
  jt : UInt8
  jf : UInt8
  k : UInt32
  deriving DecidableEq, Repr

def bpfMaxInsns : ℕ := 4096

def bpfMemWords : ℕ := 16

/-- `-EINVAL`. -/
def einval : ℤ := -22

/-! ## The checker -/

/-- The checks that some instructions need besides a valid code. -/
def chkOperands (op : Opcode) (e : SockFilter) (pc flen : ℕ) : Bool :=
  match op with
  -- check for division by zero
  | .aluDivK => e.k != 0
  -- check for invalid memory addresses
  | .ldMem | .ldxMem | .st | .stx => e.k.toNat < bpfMemWords
  | .jmpJa => e.k.toNat < (flen - pc - 1) % 2 ^ 32
  -- for conditionals both must be safe
  | .jmpJeqK | .jmpJeqX | .jmpJgeK | .jmpJgeX | .jmpJgtK | .jmpJgtX | .jmpJsetX | .jmpJsetK =>
    pc + e.jt.toNat + 1 < flen && pc + e.jf.toNat + 1 < flen
  | _ => true

/-- One turn of the loop of `sk_chk_filter`: whether the instruction passes, and what the
turn leaves in its place. The code of a conditional jump is renumbered before its targets
are checked. -/
def chkInsn (pc flen : ℕ) (e : SockFilter) : Bool × SockFilter :=
  match Opcode.ofRawCode e.code with
  | none => (false, e)
  | some op =>
    let e' := { e with code := op.number }
    if chkOperands op e pc flen then (true, e')
    else
      match op with
      | .aluDivK | .ldMem | .ldxMem | .st | .stx | .jmpJa => (false, e)
      | _ => (false, e')

/-- The loop of `sk_chk_filter` from `pc` on. -/
def chkInsns (flen : ℕ) : ℕ → List SockFilter → Bool × List SockFilter
  | _, [] => (true, [])
  | pc, e :: rest =>
    match chkInsn pc flen e with
    | (false, e') => (false, e' :: rest)
    | (true, e') =>
      let (ok, rest') := chkInsns flen (pc + 1) rest
      (ok, e' :: rest')

/-- `sk_chk_filter`: its value, and the array as it leaves it. -/
def skChkFilter (filter : List SockFilter) : ℤ × List SockFilter :=
  let flen := filter.length
  if flen = 0 ∨ bpfMaxInsns < flen then (einval, filter)
  else
    match chkInsns flen 0 filter with
    | (false, filter') => (einval, filter')
    | (true, filter') =>
      -- last instruction must be a RET code
      match (filter'[flen - 1]?).bind fun e => Opcode.ofNumber e.code with
      | some .retK | some .retA => (0, filter')
      | _ => (einval, filter')

/-! ## The packet -/

/-- What the filter reads of `struct net_device`. -/
structure NetDevice where
  ifindex : UInt32
  type : UInt16
  deriving DecidableEq, Repr

/-- What the filter reads of `struct sk_buff`. Addresses count from `skb->data`; `mem` is
the memory there, and `paged` is the data that is not in the linear part. -/
structure SkBuff where
  mem : ℤ → UInt8
  head : ℤ
  headlen : ℕ
  paged : List UInt8
  networkHeader : ℤ
  macHeader : ℤ
  protocol : UInt16
  pktType : UInt8
  mark : UInt32
  queueMapping : UInt16
  dev : Option NetDevice

variable (skb : SkBuff)

/-- `skb->len`. -/
def SkBuff.len : ℕ := skb.headlen + skb.paged.length

/-- `skb_tail_pointer`. -/
def SkBuff.tail : ℤ := skb.headlen

/-- `skb_is_nonlinear`. -/
def SkBuff.isNonlinear : Bool := !skb.paged.isEmpty

/-- The `size` bytes of memory at an address. -/
def SkBuff.bytesAt (addr : ℤ) (size : ℕ) : List UInt8 :=
  (List.range size).map fun i : ℕ => skb.mem (addr + i)

/-- The `i`-th byte of the packet, in the linear part or after it. -/
def SkBuff.byte (i : ℕ) : UInt8 :=
  if i < skb.headlen then skb.mem i else skb.paged.getD (i - skb.headlen) 0

/-- `skb_header_pointer`: the bytes it gives a pointer to. -/
def skbHeaderPointer (offset : ℕ) (len : ℕ) : Option (List UInt8) :=
  if (len : ℤ) ≤ skb.headlen - offset then some (skb.bytesAt offset len)
  else if (skb.len : ℤ) - len < offset then none
  else some ((List.range len).map fun i => skb.byte (offset + i))

def skfAdOff : ℤ := -0x1000

def skfNetOff : ℤ := -0x100000

def skfLlOff : ℤ := -0x200000

/-- `__load_pointer`: only where the pointer starts is checked. -/
def loadPointerSlow (k : ℤ) (size : ℕ) : Option (List UInt8) :=
  let ptr : Option ℤ :=
    if skfNetOff ≤ k then some (skb.networkHeader + k - skfNetOff)
    else if skfLlOff ≤ k then some (skb.macHeader + k - skfLlOff)
    else none
  match ptr with
  | none => none
  | some ptr => if skb.head ≤ ptr ∧ ptr < skb.tail then some (skb.bytesAt ptr size) else none

def loadPointer (k : ℤ) (size : ℕ) : Option (List UInt8) :=
  if 0 ≤ k then skbHeaderPointer skb k.toNat size
  else if skfAdOff ≤ k then none
  else loadPointerSlow skb k size

/-- The number some bytes spell, the first the most significant. -/
def beValue (bytes : List UInt8) : UInt32 :=
  bytes.foldl (fun v b => v * 256 + b.toUInt32) 0

/-- A `u32` taken as an `int`. -/
def toInt (v : UInt32) : ℤ := v.toBitVec.toInt

/-! ## Netlink attributes -/

/-- `nla->nla_len` of the header at an address. -/
def nlaLen (nla : ℤ) : ℕ :=
  (skb.mem nla).toNat + 256 * (skb.mem (nla + 1)).toNat

/-- `nla_type` of the header at an address: the flags are masked. -/
def nlaType (nla : ℤ) : ℕ :=
  ((skb.mem (nla + 2)).toNat + 256 * (skb.mem (nla + 3)).toNat) % 2 ^ 14

/-- `NLA_HDRLEN`, the size of `struct nlattr`. -/
def nlaHdrLen : ℕ := 4

def nlaAlign (len : ℕ) : ℕ := (len + 3) / 4 * 4

def nlaOk (nla remaining : ℤ) : Prop :=
  (nlaHdrLen : ℤ) ≤ remaining ∧ nlaHdrLen ≤ nlaLen skb nla ∧ (nlaLen skb nla : ℤ) ≤ remaining

instance (skb : SkBuff) (nla remaining : ℤ) : Decidable (nlaOk skb nla remaining) :=
  inferInstanceAs (Decidable (_ ∧ _ ∧ _))

/-- `nla_find`: the address of the first attribute of a type. -/
def nlaFind (skb : SkBuff) (nla rem attrtype : ℤ) : Option ℤ :=
  if nlaOk skb nla rem then
    if (nlaType skb nla : ℤ) = attrtype then some nla
    else
      let totlen : ℤ := nlaAlign (nlaLen skb nla)
      nlaFind skb (nla + totlen) (rem - totlen) attrtype
  else none
termination_by rem.toNat
decreasing_by
  rename_i hok _
  simp only [nlaOk, nlaHdrLen, nlaAlign] at *
  omega

def nlaFindNested (nla attrtype : ℤ) : Option ℤ :=
  nlaFind skb (nla + nlaHdrLen) ((nlaLen skb nla : ℤ) - nlaHdrLen) attrtype

/-! ## The interpreter -/

inductive Fault
  | pc
  | mem
  | div
  deriving DecidableEq, Repr

inductive Exit
  | ret (v : UInt32)
  | fellOff
  | warn
  | fault (f : Fault)
  deriving DecidableEq, Repr

/-- The registers of `sk_run_filter`. -/
structure Regs where
  pc : ℤ
  A : UInt32
  X : UInt32
  mem : List UInt32
  memvalid : UInt32
  deriving DecidableEq, Repr

/-- The register shift of the ARM to the left. -/
def lsl (v amount : UInt32) : UInt32 :=
  if amount.toNat % 256 < 32 then v <<< ofNat (amount.toNat % 256) else 0

/-- The register shift of the ARM to the right. -/
def lsr (v amount : UInt32) : UInt32 :=
  if amount.toNat % 256 < 32 then v >>> ofNat (amount.toNat % 256) else 0

namespace Regs

/-- The `pc++` of the loop. -/
def next (s : Regs) : Outcome Regs Exit := .next { s with pc := s.pc + 1 }

/-- Go on with a new accumulator. -/
def setA (s : Regs) (v : UInt32) : Outcome Regs Exit := Regs.next { s with A := v }

/-- Go on with a new index register. -/
def setX (s : Regs) (v : UInt32) : Outcome Regs Exit := Regs.next { s with X := v }

/-- `pc += offset`: an `int` and an unsigned offset add up as unsigned. -/
def jump (s : Regs) (offset : UInt32) : Outcome Regs Exit :=
  Regs.next { s with pc := toInt (ofInt s.pc + offset) }

/-- Jump by `jt` or by `jf`. -/
def branch (s : Regs) (e : SockFilter) (c : Bool) : Outcome Regs Exit :=
  s.jump (if c then e.jt.toUInt32 else e.jf.toUInt32)

/-- Read the scratch memory: a word not yet written is zero. -/
def loadMem (s : Regs) (k : UInt32) (set : UInt32 → Outcome Regs Exit) : Outcome Regs Exit :=
  if k.toNat < bpfMemWords then
    set (if s.memvalid &&& (1 <<< k) ≠ 0 then s.mem.getD k.toNat 0 else 0)
  else .done (.fault .mem)

def storeMem (s : Regs) (k v : UInt32) : Outcome Regs Exit :=
  if k.toNat < bpfMemWords then
    Regs.next { s with memvalid := s.memvalid ||| (1 <<< k), mem := s.mem.set k.toNat v }
  else .done (.fault .mem)

/-- `A /= v`. -/
def divide (s : Regs) (v : UInt32) : Outcome Regs Exit :=
  if v = 0 then .done (.fault .div) else s.setA (s.A / v)

/-- `SKF_AD_NLATTR`. -/
def nlattr (s : Regs) (skb : SkBuff) : Outcome Regs Exit :=
  let len := ofNat skb.len
  if skb.isNonlinear then .done (.ret 0)
  else if len - ofNat nlaHdrLen < s.A then .done (.ret 0)
  else
    match nlaFind skb s.A.toNat (toInt (len - s.A)) (toInt s.X) with
    | some nla => s.setA (ofInt nla)
    | none => s.setA 0

/-- `SKF_AD_NLATTR_NEST`. -/
def nlattrNest (s : Regs) (skb : SkBuff) : Outcome Regs Exit :=
  let len := ofNat skb.len
  if skb.isNonlinear then .done (.ret 0)
  else if len - ofNat nlaHdrLen < s.A then .done (.ret 0)
  else if s.A - len < ofNat (nlaLen skb s.A.toNat) then .done (.ret 0)
  else
    match nlaFindNested skb s.A.toNat (toInt s.X) with
    | some nla => s.setA (ofInt nla)
    | none => s.setA 0

/-- Handle ancillary data, which are impossible (or very difficult) to get parsing packet
contents. -/
def ancillary (s : Regs) (skb : SkBuff) (k : ℤ) : Outcome Regs Exit :=
  match k - skfAdOff with
  | 0 => s.setA skb.protocol.toUInt32
  | 4 => s.setA skb.pktType.toUInt32
  | 8 =>
    match skb.dev with
    | none => .done (.ret 0)
    | some dev => s.setA dev.ifindex
  | 12 => s.nlattr skb
  | 16 => s.nlattrNest skb
  | 20 => s.setA skb.mark
  | 24 => s.setA skb.queueMapping.toUInt32
  | 28 =>
    match skb.dev with
    | none => .done (.ret 0)
    | some dev => s.setA dev.type.toUInt32
  | _ => .done (.ret 0)

/-- `load_w`, `load_h` and `load_b`: a load from the packet, or else ancillary data. -/
def load (s : Regs) (skb : SkBuff) (k : UInt32) (size : ℕ) : Outcome Regs Exit :=
  match loadPointer skb (toInt k) size with
  | some bytes => s.setA (beValue bytes)
  | none => s.ancillary skb (toInt k)

/-- The header length of a packet at an offset. -/
def loadMsh (s : Regs) (skb : SkBuff) (k : UInt32) : Outcome Regs Exit :=
  match loadPointer skb (toInt k) 1 with
  | some bytes => s.setX ((beValue bytes &&& 0xf) <<< 2)
  | none => .done (.ret 0)

/-- The body of the loop of `sk_run_filter`. -/
def exec (e : SockFilter) (s : Regs) : Outcome Regs Exit :=
  match Opcode.ofNumber e.code with
  | some .aluAddX => s.setA (s.A + s.X)
  | some .aluAddK => s.setA (s.A + e.k)
  | some .aluSubX => s.setA (s.A - s.X)
  | some .aluSubK => s.setA (s.A - e.k)
  | some .aluMulX => s.setA (s.A * s.X)
  | some .aluMulK => s.setA (s.A * e.k)
  | some .aluDivX => if s.X = 0 then .done (.ret 0) else s.divide s.X
  | some .aluDivK => s.divide e.k
  | some .aluAndX => s.setA (s.A &&& s.X)
  | some .aluAndK => s.setA (s.A &&& e.k)
  | some .aluOrX => s.setA (s.A ||| s.X)
  | some .aluOrK => s.setA (s.A ||| e.k)
  | some .aluLshX => s.setA (lsl s.A s.X)
  | some .aluLshK => s.setA (lsl s.A e.k)
  | some .aluRshX => s.setA (lsr s.A s.X)
  | some .aluRshK => s.setA (lsr s.A e.k)
  | some .aluNeg => s.setA (0 - s.A)
  | some .jmpJa => s.jump e.k
  | some .jmpJgtK => s.branch e (e.k < s.A)
  | some .jmpJgeK => s.branch e (e.k ≤ s.A)
  | some .jmpJeqK => s.branch e (s.A = e.k)
  | some .jmpJsetK => s.branch e (s.A &&& e.k ≠ 0)
  | some .jmpJgtX => s.branch e (s.X < s.A)
  | some .jmpJgeX => s.branch e (s.X ≤ s.A)
  | some .jmpJeqX => s.branch e (s.A = s.X)
  | some .jmpJsetX => s.branch e (s.A &&& s.X ≠ 0)
  | some .ldWAbs => s.load skb e.k 4
  | some .ldHAbs => s.load skb e.k 2
  | some .ldBAbs => s.load skb e.k 1
  | some .ldWLen => s.setA (.ofNat skb.len)
  | some .ldxWLen => s.setX (.ofNat skb.len)
  | some .ldWInd => s.load skb (s.X + e.k) 4
  | some .ldHInd => s.load skb (s.X + e.k) 2
  | some .ldBInd => s.load skb (s.X + e.k) 1
  | some .ldxBMsh => s.loadMsh skb e.k
  | some .ldImm => s.setA e.k
  | some .ldxImm => s.setX e.k
  | some .ldMem => s.loadMem e.k s.setA
  | some .ldxMem => s.loadMem e.k s.setX
  | some .miscTax => s.setX s.A
  | some .miscTxa => s.setA s.X
  | some .retK => .done (.ret e.k)
  | some .retA => .done (.ret s.A)
  | some .st => s.storeMem e.k s.A
  | some .stx => s.storeMem e.k s.X
  | none => .done .warn

/-- One turn of the loop of `sk_run_filter`. -/
def step (filter : List SockFilter) (s : Regs) : Outcome Regs Exit :=
  if s.pc < filter.length then
    match s.pc with
    | .ofNat pc =>
      match filter[pc]? with
      | some e => s.exec skb e
      | none => .done (.fault .pc)
    | .negSucc _ => .done (.fault .pc)
  else .done .fellOff

end Regs

/-- Where `sk_run_filter` starts. The scratch memory holds whatever was on the stack. -/
def startRegs (mem : List UInt32) : Regs := { pc := 0, A := 0, X := 0, mem := mem, memvalid := 0 }

/-- Up to `n` turns of the loop of `sk_run_filter`. -/
def skRunFilter (filter : List SockFilter) (mem : List UInt32) (n : ℕ) : Outcome Regs Exit :=
  runFor (Regs.step skb filter) n (startRegs mem)

/-- A linear packet of some bytes, with zeros around it. -/
def linearPacket (bytes : List UInt8) : SkBuff where
  mem x := if 0 ≤ x then bytes.getD x.toNat 0 else 0
  head := 0
  headlen := bytes.length
  paged := []
  networkHeader := 0
  macHeader := 0
  protocol := 0
  pktType := 0
  mark := 0
  queueMapping := 0
  dev := none

end NestLinux.Filter
