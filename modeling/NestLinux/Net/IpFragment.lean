import NestLinux.Lib.Chain
import Mathlib.Data.Int.Basic

/-!
# Reassembly of IPv4 fragments

`net/ipv4/ip_fragment.c`: the fragments of a datagram are queued by their offset. Overlaps are
cut off as a fragment comes in, and the fragments are glued together when every byte is there.

The buffers (`struct sk_buff`) are known by their addresses; `next` is a function from
addresses to addresses. A buffer is what it holds from the network header on, in two parts,
the bytes before `data` and those from `data` on. The calls that can fail for want of memory
take their outcome as a parameter. The loops take a bound on their turns, the number of
bytes in the queue; the result is none where it does not suffice or where the code would
follow a null pointer. Checksums, accounting, devices and timers are left out, and no
fragment is too far ahead of the queue (`ip_frag_too_far`).
-/

namespace NestLinux.IpFragment

open Lib Function

abbrev Byte := BitVec 8

abbrev Ptr := ℕ

/-- `struct sk_buff`: the offset in the datagram (`FRAG_CB`), the bytes from the network header
to `data`, and those from `data` on. -/
structure Skb where
  offset : ℤ
  headroom : List Byte
  data : List Byte
  deriving DecidableEq, Repr

/-- What a buffer holds from the network header on. -/
def Skb.packet (s : Skb) : List Byte := s.headroom ++ s.data

/-- Where the data of a buffer ends in the datagram. -/
def Skb.last (s : Skb) : ℤ := s.offset + s.data.length

/-! ## The IP header -/

/-- `ip_hdrlen`: the header length in bytes, which is stored in words. -/
def ipHdrlen (pkt : List Byte) : ℕ := 4 * (pkt.getD 0 0 &&& 0x0f).toNat

/-- `ntohs(iph->frag_off)`. -/
def fragOff (pkt : List Byte) : BitVec 16 := pkt.getD 6 0 ++ pkt.getD 7 0

/-- The offset of a fragment in bytes. -/
def ipOffset (pkt : List Byte) : ℕ := (fragOff pkt &&& 0x1fff).toNat <<< 3

/-- `IP_MF`: more fragments follow. -/
def ipMf (pkt : List Byte) : Bool := (fragOff pkt &&& ~~~0x1fff) &&& 0x2000 != 0

/-- `iph->frag_off = 0` and `iph->tot_len = htons(len)`. -/
def setIpHdr (pkt : List Byte) (len : BitVec 16) : List Byte :=
  (((pkt.set 6 0).set 7 0).set 2 (len.extractLsb' 8 8)).set 3 (len.extractLsb' 0 8)

/-! ## The queue -/

/-- `struct inet_frag_queue` and the buffers: the flags of `last_in`, the length of the
datagram as far as it is known, and the number of bytes in the queue. -/
structure Ipq where
  skbs : Ptr → Skb
  next : Ptr → Option Ptr
  fragments : Option Ptr
  fragmentsTail : Option Ptr
  firstIn : Bool
  lastIn : Bool
  complete : Bool
  len : ℤ
  meat : ℤ

/-- Which calls have the memory they need: `pskb_pull` of the IP header, `pskb_trim_rcsum`,
`pskb_pull` of what overlaps with the fragment before, `pskb_pull` of the fragment behind,
`skb_clone` with the address of the clone, and `pskb_expand_head`. Each of them is made once
at most for a fragment. -/
structure Allocs where
  pullHdr : Bool
  trim : Bool
  pullPrev : Bool
  pullNext : Bool
  clone : Option Ptr
  expandHead : Bool

/-- What `ip_frag_queue` returns; with 0 comes the datagram. -/
inductive Ret
  | inprogress
  | done (pkt : List Byte)
  | enoent
  | einval
  | enomem
  | e2big
  deriving DecidableEq, Repr

def pskbPull (ok : Bool) (s : Skb) (n : ℕ) : Option Skb :=
  if n ≤ s.data.length ∧ ok then
    some { s with
      headroom := s.headroom ++ s.data.take n
      data := s.data.drop n }
  else none

/-- `pskb_trim_rcsum`, which may fail even where there is nothing to cut off. -/
def pskbTrimRcsum (ok : Bool) (s : Skb) (n : ℕ) : Option Skb :=
  if ok then some { s with data := s.data.take n } else none

variable (q : Ipq)

/-- The end of the datagram as the end of a fragment tells it: the queue, and the end that
counts. The fragment is corrupted if it contradicts what is known. -/
def noteEnd (fin : ℤ) (mf : Bool) : Option (Ipq × ℤ) :=
  if mf = false then
    if fin < q.len ∨ (q.lastIn = true ∧ fin ≠ q.len) then none
    else some ({ q with lastIn := true, len := fin }, fin)
  else
    let fin := if fin % 8 ≠ 0 then fin / 8 * 8 else fin
    if fin > q.len then
      if q.lastIn then none else some ({ q with len := fin }, fin)
    else some (q, fin)

/-- The fragments before and behind an offset. -/
def findPlace (offset : ℤ) : Option (Option Ptr × Option Ptr) :=
  match q.fragmentsTail with
  | none => some (none, none)
  | some tail =>
    if (q.skbs tail).offset < offset then some (some tail, none)
    else
      walkTo q.next (fun p => decide (offset ≤ (q.skbs p).offset)) (q.meat.toNat + 1) none
        q.fragments

/-- The overlap with the fragment before is cut off: the buffer and its offset. -/
def cutPrev (prev : Option Ptr) (s : Skb) (offset fin : ℤ) (ok : Bool) : Except Ret (Skb × ℤ) :=
  match prev with
  | none => .ok (s, offset)
  | some p =>
    let i := (q.skbs p).last - offset
    if 0 < i then
      if fin ≤ offset + i then .error .einval
      else
        match pskbPull ok s i.toNat with
        | none => .error .enomem
        | some s => .ok (s, offset + i)
    else .ok (s, offset)

/-- `prev->next = next`, or `fragments = next` where there is no fragment before. -/
def Ipq.link (prev next : Option Ptr) : Ipq :=
  { q with
    fragments := (relink q.fragments q.next prev next).1
    next := (relink q.fragments q.next prev next).2 }

/-- The loop over the fragments behind that overlap: those that are covered are dropped, and
the last one loses its head. The result is the queue, the fragment behind, and whether the
memory sufficed. -/
def eatLoop (fin : ℤ) (ok : Bool) (prev : Option Ptr) :
    ℕ → Ipq → Option Ptr → Option (Ipq × Option Ptr × Bool)
  | 0, _, _ => none
  | _ + 1, q, none => some (q, none, true)
  | fuel + 1, q, some next =>
    if (q.skbs next).offset < fin then
      let i := fin - (q.skbs next).offset
      if i < (q.skbs next).data.length then
        -- eat the head of the next overlapped fragment and leave the loop
        match pskbPull ok (q.skbs next) i.toNat with
        | none => some (q, some next, false)
        | some s =>
          some ({ q with
            skbs := update q.skbs next { s with offset := s.offset + i }
            meat := q.meat - i }, some next, true)
      else
        -- the old fragment is completely overridden
        let free := next
        let next := q.next free
        eatLoop fin ok prev fuel
          { q.link prev next with meat := q.meat - (q.skbs free).data.length } next
    else some (q, some next, true)

/-- The fragment is put into the chain. -/
def insertFrag (skb : Ptr) (s : Skb) (prev next : Option Ptr) : Ipq :=
  let q := { q with
    skbs := update q.skbs skb s
    next := update q.next skb next
    fragmentsTail := if next = none then some skb else q.fragmentsTail }
  let q := q.link prev (some skb)
  { q with
    meat := q.meat + s.data.length
    firstIn := q.firstIn || decide (s.offset = 0) }

/-! ## Gluing -/

/-- The fragment that came last is made the head: it moves to a clone, and takes over what the
first fragment holds. -/
def swapHead (prev fp : Ptr) : Option Ipq :=
  match q.next prev, q.fragments with
  | some head, some first =>
    -- the clone takes the place of the fragment
    let skbs := update q.skbs fp (q.skbs head)
    let next := update (update q.next fp (q.next head)) prev (some fp)
    -- skb_morph
    some { q with
      skbs := update skbs head (skbs first)
      next := update next head (next first)
      fragments := some head
      fragmentsTail := if q.next head = none then some fp else q.fragmentsTail }
  | _, _ => none

/-- The data of the buffers in a list. -/
def glueLoop (q : Ipq) : ℕ → Option Ptr → Option (List Byte)
  | 0, _ => none
  | _ + 1, none => some []
  | fuel + 1, some fp => (glueLoop q fuel (q.next fp)).map ((q.skbs fp).data ++ ·)

/-- The part of `ip_frag_reasm` after the head is chosen. -/
def glue (al : Allocs) : Option (Ipq × Ret) :=
  match q.fragments with
  | none => none
  | some head =>
    let len := ipHdrlen (q.skbs head).packet + q.len
    if len > 65535 then some (q, .e2big)
    else if al.expandHead then
      (glueLoop q (q.meat.toNat + 1) (q.next head)).map fun rest =>
        ({ q with fragments := none, fragmentsTail := none },
          .done (setIpHdr ((q.skbs head).packet ++ rest) (BitVec.ofInt 16 len)))
    else some (q, .enomem)

def ipFragReasm (prev : Option Ptr) (al : Allocs) : Option (Ipq × Ret) :=
  let q := { q with complete := true }
  match prev with
  | none => glue q al
  | some prev =>
    match al.clone with
    | none => some (q, .enomem)
    | some fp => (swapHead q prev fp).bind fun q => glue q al

/-! ## A fragment arrives -/

/-- The part of `ip_frag_queue` after the place is found. -/
def linkFrag (skb : Ptr) (s : Skb) (prev next : Option Ptr) (offset fin : ℤ)
    (al : Allocs) : Option (Ipq × Ret) :=
  match cutPrev q prev s offset fin al.pullPrev with
  | .error r => some (q, r)
  | .ok (s, offset) =>
    match eatLoop fin al.pullNext prev (q.meat.toNat + 1) q next with
    | none => none
    | some (q, _, false) => some (q, .enomem)
    | some (q, next, true) =>
      let q := insertFrag q skb { s with offset := offset } prev next
      if q.firstIn = true ∧ q.lastIn = true ∧ q.meat = q.len then ipFragReasm q prev al
      else some (q, .inprogress)

/-- `ip_frag_queue`, of a packet in a buffer. -/
def ipFragQueue (skb : Ptr) (pkt : List Byte) (al : Allocs) : Option (Ipq × Ret) :=
  if q.complete then some (q, .enoent)
  else
    let offset : ℤ := ipOffset pkt
    let ihl := ipHdrlen pkt
    match noteEnd q (offset + pkt.length - ihl) (ipMf pkt) with
    | none => some (q, .einval)
    | some (q, fin) =>
      if fin = offset then some (q, .einval)
      else
        match pskbPull al.pullHdr { offset := 0, headroom := [], data := pkt } ihl with
        | none => some (q, .enomem)
        | some s =>
          match pskbTrimRcsum al.trim s (fin - offset).toNat with
          | none => some (q, .enomem)
          | some s =>
            (findPlace q offset).bind fun place =>
              linkFrag q skb s place.1 place.2 offset fin al

end NestLinux.IpFragment
