import NestLinux.Net.IpFragmentQueue

/-!
# Any fragments at all

Fragments with any offsets, lengths and overlaps come in, and memory runs out at any time.
The queue stays sorted, apart and counted until the datagram is complete; and a datagram
that is handed on has at each place a byte that some fragment had there.
-/

namespace NestLinux.IpFragment

open Lib List Skb

variable {q q' : Ipq} {l l1 l2 : List Ptr} {F : List Skb} {f s : Skb} {len lo fin offset : ℤ}
  {pkts pkts' : List (List Byte)} {skb : Ptr} {al : Allocs} {n : ℕ} {b : Byte} {pkt : List Byte}
  {a : Arrival}

/-- A buffer holds a part of one of the packets: the header and some bytes were pulled off, and
the end may be cut. -/
def Piece (pkts : List (List Byte)) (s : Skb) : Prop :=
  ∃ pkt ∈ pkts, ∃ n : ℕ, s.packet <+: pkt ∧ s.headroom.length = ipHdrlen pkt + n ∧
    s.offset = ipOffset pkt + n

theorem Piece.mono (h : Piece pkts s) (hsub : pkts ⊆ pkts') : Piece pkts' s := by
  obtain ⟨pkt, hm, n, hp, hhd, ho⟩ := h
  exact ⟨pkt, hsub hm, n, hp, hhd, ho⟩

theorem Piece.cut (h : Piece pkts s) (hn : n ≤ s.data.length) : Piece pkts (s.cut n) := by
  obtain ⟨pkt, hm, k, hp, hhd, ho⟩ := h
  refine ⟨pkt, hm, k + n, ?_, ?_, ?_⟩
  · rw [Skb.packet_cut]
    exact hp
  · simp only [Skb.cut, length_append, length_take]
    omega
  simp only [Skb.cut]
  omega

/-- A byte of a piece is in the packet, at its place in the datagram. -/
theorem Piece.byte (h : Piece pkts s) {k : ℕ} (hb : s.data[k]? = some b) :
    ∃ pkt ∈ pkts, ∃ i : ℕ, s.offset + k = ipOffset pkt + i ∧
      (pkt.drop (ipHdrlen pkt))[i]? = some b := by
  obtain ⟨pkt, hm, n, ⟨rest, hrs⟩, hhd, ho⟩ := h
  refine ⟨pkt, hm, n + k, by omega, ?_⟩
  have hk : k < s.data.length := (List.getElem?_eq_some_iff.1 hb).1
  have hplc : ipHdrlen pkt + (n + k) = s.headroom.length + k := by omega
  rw [List.getElem?_drop, hplc, ← hrs, packet, List.append_assoc,
    List.getElem?_append_right (Nat.le_add_right _ _), Nat.add_sub_cancel_left,
    List.getElem?_append_left hk]
  exact hb

/-! ## A complete queue -/

section

variable (hap : F.Pairwise fun s s' => s.last ≤ s'.offset) (hlo : ∀ s ∈ F, lo ≤ s.offset)
  (hbd : ∀ s ∈ F, s.last ≤ len)

include hap hlo hbd

/-- Buffers that are apart have no more bytes than there is room for. -/
theorem bytes_le (hle : lo ≤ len) : bytes F ≤ len - lo := by
  induction F generalizing lo with
  | nil =>
    rw [bytes_nil]
    omega
  | cons s F ih =>
    obtain ⟨hs, hF⟩ := pairwise_cons.1 hap
    have hst := hlo s mem_cons_self
    have he := hbd s mem_cons_self
    have hrs := ih hF hs (fun a ha => hbd a (mem_cons_of_mem s ha)) he
    rw [bytes_cons]
    unfold last at hrs
    omega

/-- Buffers that fill all the room are one behind the other: each byte is in its place. -/
theorem byte_of_full (hfu : bytes F = len - lo) {i : ℕ} (hb : (F.map data).flatten[i]? = some b) :
    ∃ s ∈ F, ∃ k : ℕ, s.data[k]? = some b ∧ s.offset + k = lo + i := by
  induction F generalizing lo i with
  | nil => cases hb
  | cons s F ih =>
    obtain ⟨hs, hF⟩ := pairwise_cons.1 hap
    have hst := hlo s mem_cons_self
    have hbd' : ∀ a ∈ F, a.last ≤ len := fun a ha => hbd a (mem_cons_of_mem s ha)
    have hrs := bytes_le hF hs hbd' (hbd s mem_cons_self)
    rw [bytes_cons] at hfu
    have hla : s.last = s.offset + s.data.length := rfl
    rw [map_cons, flatten_cons] at hb
    by_cases hi : i < s.data.length
    · rw [getElem?_append_left hi] at hb
      exact ⟨s, mem_cons_self, i, hb, by omega⟩
    rw [getElem?_append_right (by omega)] at hb
    obtain ⟨a, ha, k, hk, hplc⟩ := ih hF hs hbd' (by omega) hb
    exact ⟨a, mem_cons_of_mem s ha, k, hk, by omega⟩

end

theorem length_flatten_data : ((F.map data).flatten.length : ℤ) = bytes F := by
  induction F with
  | nil => rfl
  | cons s F ih =>
    rw [map_cons, flatten_cons, length_append, bytes_cons]
    omega

/-! ## A fragment on a queue -/

/-- What can come of a fragment, where the buffers in the queue have a property: the queue is
kept and they have it, or the datagram is complete and was made of such buffers. -/
inductive Outcome (P : Skb → Prop) : Option (Ipq × Ret) → Prop
  | kept {q : Ipq} {r : Ret} {l : List Ptr} (hr : ∀ pkt, r ≠ .done pkt) (hq : Queue q l)
      (hP : ∀ p ∈ l, P (q.skbs p)) : Outcome P (some (q, r))
  | done {q : Ipq} {f : Skb} {F : List Skb} (hsorted : Sorted q.len (f :: F))
      (hfull : bytes (f :: F) = q.len) (hP : ∀ s ∈ f :: F, P s) (hcomplete : q.complete = true)
      (hfragments : q.fragments = none) (htail : q.fragmentsTail = none) :
      Outcome P (some (q, .done (setIpHdr (f.headroom ++ ((f :: F).map data).flatten)
        (BitVec.ofInt 16 (ipHdrlen f.packet + q.len)))))

section Step

variable {P : Skb → Prop}

/-- The end of `ip_frag_queue`: the fragment is in the queue. -/
theorem Queue.finish (h : Queue q (l1 ++ skb :: l2)) (ha : ∀ p ∈ l1 ++ skb :: l2, P (q.skbs p))
    (hfp : ∀ fp, al.clone = some fp → fp ∉ l1 ++ skb :: l2) :
    Outcome P (if q.firstIn = true ∧ q.lastIn = true ∧ q.meat = q.len then
      ipFragReasm q l1.getLast? al else some (q, .inprogress)) := by
  by_cases hdn : q.firstIn = true ∧ q.lastIn = true ∧ q.meat = q.len
  · rw [if_pos hdn]
    obtain ⟨f, F, hF⟩ := exists_cons_of_ne_nil
      (show (l1 ++ skb :: l2).map q.skbs ≠ [] by simp)
    obtain ⟨q', l', hq', hm, hl, hcm, hrea⟩ := h.reasm hF hfp
    have ha' : ∀ s ∈ f :: F, P s := by
      rw [← hF]
      intro s hs
      obtain ⟨p, hp, rfl⟩ := mem_map.1 hs
      exact ha p hp
    have hkp : ∀ p ∈ l', P (q'.skbs p) := by
      intro p hp
      refine ha' _ ?_
      rw [← hm]
      exact mem_map_of_mem hp
    rw [hrea, ← hl]
    split
    · exact .kept (by simp) hq' hkp
    split
    · exact .kept (by simp) hq' hkp
    split
    · refine .done ?_ ?_ ha' hcm rfl rfl
      · rw [← hm]
        exact hq'.sorted
      rw [← hF, ← h.meat, hdn.2.2]
      exact hl.symm
    · exact .kept (by simp) hq' hkp
  · rw [if_neg hdn]
    exact .kept (by simp) h ha

variable (hP : ∀ s n, n ≤ s.data.length → P s → P (s.cut n))

include hP

/-- The fragment goes into the place that was opened for it. -/
theorem Eaten.finish {q0 : Ipq} (h : Eaten q0 q l1 l2) (hal : ∀ p ∈ l1 ++ l2, P (q0.skbs p))
    (hs : P s) (hskb : skb ∉ l1 ++ l2) (hfp : ∀ fp, al.clone = some fp → fp ∉ l1 ++ l2 ∧ fp ≠ skb)
    (hst : Sorted q.len (l1.map q.skbs ++ s :: l2.map q.skbs))
    (hq' : insertFrag q skb s l1.getLast? l2.head? = q') :
    Outcome P (if q'.firstIn = true ∧ q'.lastIn = true ∧ q'.meat = q'.len then
      ipFragReasm q' l1.getLast? al else some (q', .inprogress)) := by
  obtain ⟨hque, hm⟩ := h.opened.insert hskb hst
  rw [hq'] at hque hm
  refine hque.finish ?_ ?_
  · have ha' : ∀ a ∈ (l1 ++ skb :: l2).map q'.skbs, P a := by
      rw [hm]
      intro a ha
      have hmm : a = s ∨ a ∈ (l1 ++ l2).map q.skbs := by
        simp only [mem_append, mem_cons, map_append] at ha ⊢
        tauto
      rcases hmm with rfl | hmm
      · exact hs
      obtain ⟨p, hp, rfl⟩ := mem_map.1 hmm
      obtain ⟨n, hn, hc⟩ := h.kept p hp
      rw [hc]
      exact hP _ n hn (hal p hp)
    intro p hp
    exact ha' _ (mem_map_of_mem hp)
  · intro fp hcl hmm
    obtain ⟨hne, hne'⟩ := hfp fp hcl
    simp only [mem_append, mem_cons] at hmm hne
    tauto

/-- **A fragment that is placed.** -/
theorem Queue.outcome_linkFrag (h : Queue q (l1 ++ l2)) (hal : ∀ p ∈ l1 ++ l2, P (q.skbs p))
    (hs : P { s with offset := offset }) (hla : offset + s.data.length = fin)
    (hst : 0 ≤ offset) (hlt : offset < fin) (hfin : fin ≤ q.len) (hskb : skb ∉ l1 ++ l2)
    (hfp : ∀ fp, al.clone = some fp → fp ∉ l1 ++ l2 ∧ fp ≠ skb) :
    Outcome P (linkFrag q skb s l1.getLast? l2.head? offset fin al) := by
  rcases cutPrev_spec (q := q) al.pullPrev hla hlt with ⟨r, hc, hr⟩ | ⟨n, hn, hc, hpv⟩
  · rw [linkFrag, hc]
    refine .kept ?_ h hal
    rcases hr with rfl | rfl <;> simp
  obtain ⟨l3, q1, b, hsub, heat, hetn, hfl, hbeh⟩ := eatLoop_spec al.pullNext h
  have hsub' : (l1 ++ l3).Sublist (l1 ++ l2) := List.Sublist.append_left hsub l1
  have ha' : ∀ p ∈ l1 ++ l3, P (q.skbs p) := fun p hp => hal p (hsub'.subset hp)
  cases b with
  | false =>
    rw [linkFrag, hc]
    rw [heat]
    refine .kept (by simp) (hetn.opened.queue (hfl rfl)) ?_
    intro p hp
    obtain ⟨k, hk, hct⟩ := hetn.kept p hp
    rw [hct]
    exact hP _ k hk (ha' p hp)
  | true =>
    rw [linkFrag_eq skb hc heat rfl]
    have hs' := hP { s with offset := offset } n (Nat.le_of_lt hn) hs
    have hla' : (cut { s with offset := offset } n).last = fin := by
      rw [@Skb.last_cut { s with offset := offset } n (Nat.le_of_lt hn)]
      exact hla
    have hopn := hetn.opened.sorted
    rw [map_append] at hopn
    refine hetn.finish hP ha' hs' (fun hm => hskb (hsub'.subset hm)) ?_ ?_ rfl
    · intro fp hcl
      exact ⟨fun hm => (hfp fp hcl).1 (hsub'.subset hm), (hfp fp hcl).2⟩
    refine hopn.insert ?_ ?_ ?_ (hetn.front h hpv) ?_
    · rw [cut, ne_eq, drop_eq_nil_iff]
      exact Nat.not_le.2 hn
    · simp only [cut]
      omega
    · rw [hla', hetn.len]
      exact hfin
    intro a ha
    obtain ⟨p, hp, rfl⟩ := mem_map.1 ha
    rw [hla']
    exact hbeh rfl p hp

/-- **A fragment arrives.** What is left of it in the queue, if anything, is the packet without
its header, cut somewhere. -/
theorem Queue.outcome (h : Queue q l) (ha : ∀ p ∈ l, P (q.skbs p))
    (hs : ipHdrlen pkt ≤ pkt.length → ∀ k, P
      { offset := ipOffset pkt
        headroom := pkt.take (ipHdrlen pkt)
        data := (pkt.drop (ipHdrlen pkt)).take k })
    (hskb : skb ∉ l) (hfp : ∀ fp, al.clone = some fp → fp ∉ l ∧ fp ≠ skb) :
    Outcome P (ipFragQueue q skb pkt al) := by
  unfold ipFragQueue
  split
  · exact .kept (by simp) h ha
  simp only
  cases hnt : noteEnd q (ipOffset pkt + pkt.length - ipHdrlen pkt) (ipMf pkt) with
  | none => exact .kept (by simp) h ha
  | some qe =>
    obtain ⟨q', fin⟩ := qe
    simp only
    obtain ⟨⟨b, len, hq', hle, hfin⟩, -⟩ := noteEnd_some hnt
    have hque : Queue q' l := by
      rw [hq']
      exact h.grow hle
    have hsk : q'.skbs = q.skbs := by rw [hq']
    have ha' : ∀ p ∈ l, P (q'.skbs p) := by
      rw [hsk]
      exact ha
    split
    · exact .kept (by simp) hque ha'
    by_cases hihl : ipHdrlen pkt ≤ pkt.length ∧ al.pullHdr = true
    · rw [hihl.2, pskbPull_true hihl.1]
      simp only [pskbTrimRcsum]
      cases al.trim with
      | false => exact .kept (by simp) hque ha'
      | true =>
        simp only [reduceIte]
        have ho : ipOffset pkt = 8 * (fragOff pkt &&& 0x1fff).toNat := by
          rw [ipOffset, Nat.shiftLeft_eq, Nat.mul_comm]
        have hen : (ipOffset pkt : ℤ) ≤ fin ∧
            fin ≤ ipOffset pkt + pkt.length - ipHdrlen pkt := by
          rcases (noteEnd_some hnt).2 with he | he <;> omega
        obtain ⟨l1, l2, rfl, h1, h2⟩ := hque.split_at (ipOffset pkt)
        rw [findPlace_eq hque h1 h2]
        refine hque.outcome_linkFrag hP ha' (hs hihl.1 _) ?_ (by omega) (by omega) ?_ hskb hfp
        · simp only [cut, length_take, length_drop]
          omega
        rw [hq']
        exact hfin
    · have hno : pskbPull al.pullHdr { offset := 0, headroom := [], data := pkt }
          (ipHdrlen pkt) = none := if_neg hihl
      rw [hno]
      exact .kept (by simp) hque ha'

end Step

/-! ## Runs -/

/-- A packet arrives in a buffer, with what memory there is. `ip_rcv` has looked at the length
of its header. -/
structure Arrival where
  skb : Ptr
  pkt : List Byte
  al : Allocs
  ihl : 20 ≤ ipHdrlen pkt

def Ipq.Queued (q : Ipq) (p : Ptr) : Prop := ∃ l, Chain q.next q.fragments l none ∧ p ∈ l

/-- The buffer of an arrival, and its clone, are not in use. -/
structure Arrival.Fresh (q : Ipq) (a : Arrival) : Prop where
  skb : ¬ q.Queued a.skb
  clone : ∀ fp, a.al.clone = some fp → ¬ q.Queued fp ∧ fp ≠ a.skb

def emptyIpq (skbs : Ptr → Skb) (next : Ptr → Option Ptr) : Ipq where
  skbs := skbs
  next := next
  fragments := none
  fragmentsTail := none
  firstIn := false
  lastIn := false
  complete := false
  len := 0
  meat := 0

/-- Packets arrive on a new queue: what `ip_frag_queue` returned, and the queue. -/
inductive Run : List Arrival → List Ret → Ipq → Prop
  | start (skbs : Ptr → Skb) (next : Ptr → Option Ptr) : Run [] [] (emptyIpq skbs next)
  | arrive {as : List Arrival} {rs : List Ret} {q q' : Ipq} {a : Arrival} {r : Ret}
      (h : Run as rs q) (ha : a.Fresh q) (hr : ipFragQueue q a.skb a.pkt a.al = some (q', r)) :
      Run (as ++ [a]) (rs ++ [r]) q'

/-- A datagram with `len` bytes of data, each of which is that of some packet at its place. -/
def Reassembled (pkts : List (List Byte)) (len : ℤ) (dgram : List Byte) : Prop :=
  ((dgram.drop (ipHdrlen dgram)).length : ℤ) = len ∧
    ∀ i b, (dgram.drop (ipHdrlen dgram))[i]? = some b →
      ∃ pkt ∈ pkts, ∃ k, i = ipOffset pkt + k ∧ (pkt.drop (ipHdrlen pkt))[k]? = some b

theorem ipHdrlen_setIpHdr (len : BitVec 16) : ipHdrlen (setIpHdr pkt len) = ipHdrlen pkt := by
  simp [ipHdrlen, setIpHdr]

/-- The fields that are set are in the header. -/
theorem drop_setIpHdr (hn : 20 ≤ n) (len : BitVec 16) : (setIpHdr pkt len).drop n = pkt.drop n := by
  unfold setIpHdr
  rw [drop_set_of_lt (by omega), drop_set_of_lt (by omega), drop_set_of_lt (by omega),
    drop_set_of_lt (by omega)]

/-- Pieces that fill the datagram make it up. -/
theorem reassembled_of_pieces (hihl : ∀ pkt ∈ pkts, 20 ≤ ipHdrlen pkt)
    (hsr : Sorted len (f :: F)) (hfu : bytes (f :: F) = len)
    (hpcs : ∀ s ∈ f :: F, Piece pkts s) (n : BitVec 16) :
    Reassembled pkts len (setIpHdr (f.headroom ++ ((f :: F).map data).flatten) n) := by
  have hz : f.offset = 0 := by
    have hpr := pairwise_cons.1 hsr.apart
    have hrs := bytes_le hpr.2 hpr.1
      (fun a ha => hsr.bound a (mem_cons_of_mem f ha)) (hsr.bound f mem_cons_self)
    have hst := hsr.start f mem_cons_self
    rw [bytes_cons] at hfu
    unfold last at hrs
    omega
  obtain ⟨pkt, hmm, k, hp, hhd, ho⟩ := hpcs f mem_cons_self
  have hpkt : 20 ≤ ipHdrlen pkt := hihl pkt hmm
  have hhdr : ipHdrlen (f.headroom ++ ((f :: F).map data).flatten) = f.headroom.length := by
    have hby : (f.headroom ++ ((f :: F).map data).flatten)[0]? = pkt[0]? := by
      obtain ⟨rest, hrs⟩ := hp
      rw [← hrs, packet, append_assoc, getElem?_append_left (by omega),
        getElem?_append_left (by omega)]
    rw [ipHdrlen, getD_eq_getElem?_getD, hby, ← getD_eq_getElem?_getD, ← ipHdrlen]
    omega
  unfold Reassembled
  rw [ipHdrlen_setIpHdr, hhdr, drop_setIpHdr (by omega), drop_left]
  refine ⟨?_, ?_⟩
  · rw [length_flatten_data, hfu]
  intro i b hb
  have hrm : bytes (f :: F) = len - 0 := by rw [hfu, Int.sub_zero]
  obtain ⟨s, hs, j, hj, hplc⟩ :=
    byte_of_full hsr.apart hsr.start hsr.bound hrm hb
  obtain ⟨pkt', hm', m, hm, hby⟩ := (hpcs s hs).byte hj
  exact ⟨pkt', hm', m, by omega, hby⟩

theorem Arrival.Fresh.notMem (h : a.Fresh q) (hq : Queue q l) :
    a.skb ∉ l ∧ ∀ fp, a.al.clone = some fp → fp ∉ l ∧ fp ≠ a.skb := by
  refine ⟨fun hm => h.skb ⟨l, hq.chain, hm⟩, ?_⟩
  intro fp hfp
  exact ⟨fun hm => (h.clone fp hfp).1 ⟨l, hq.chain, hm⟩, (h.clone fp hfp).2⟩

/-- A packet without its header is a piece. -/
theorem piece_of_packet (hm : pkt ∈ pkts) (hle : ipHdrlen pkt ≤ pkt.length) (k : ℕ) : Piece pkts
      { offset := ipOffset pkt
        headroom := pkt.take (ipHdrlen pkt)
        data := (pkt.drop (ipHdrlen pkt)).take k } := by
  refine ⟨pkt, hm, 0, ⟨(pkt.drop (ipHdrlen pkt)).drop k, ?_⟩, ?_, by simp⟩
  · rw [packet, append_assoc, take_append_drop, take_append_drop]
  · rw [length_take, Nat.min_eq_left hle, Nat.add_zero]

theorem Queue.arrive (h : Queue q l) (hpcs : ∀ p ∈ l, Piece pkts (q.skbs p))
    (ha : a.Fresh q) : Outcome (Piece (pkts ++ [a.pkt])) (ipFragQueue q a.skb a.pkt a.al) := by
  obtain ⟨hskb, hfp⟩ := ha.notMem h
  refine h.outcome (fun _ _ hn hs => hs.cut hn) ?_ (piece_of_packet (by simp)) hskb hfp
  intro p hp
  exact (hpcs p hp).mono (subset_append_left _ _)

/-- What holds in a run when the datagram is complete, and until then. -/
theorem Run.inv {as : List Arrival} {rs : List Ret} (h : Run as rs q) :
    (∃ pkt, .done pkt ∈ rs) ∧ q.complete = true ∧ q.fragments = none ∧ q.fragmentsTail = none ∨
      (∀ pkt, .done pkt ∉ rs) ∧
        ∃ l, Queue q l ∧ ∀ p ∈ l, Piece (as.map Arrival.pkt) (q.skbs p) := by
  induction h with
  | start skbs next => exact .inr ⟨by simp, [], ⟨rfl, nodup_nil, rfl, sorted_nil, rfl⟩, by simp⟩
  | @arrive as rs q q' a r h ha hr ih =>
    rcases ih with ⟨⟨pkt, hpkt⟩, hcm, hfr, htl⟩ | ⟨hlive, l, hque, hpcs⟩
    · have hdd : ipFragQueue q a.skb a.pkt a.al = some (q, .enoent) := by
        rw [ipFragQueue, if_pos hcm]
      rw [hdd, Option.some.injEq] at hr
      obtain ⟨rfl, rfl⟩ := hr
      exact .inl ⟨⟨pkt, mem_append_left _ hpkt⟩, hcm, hfr, htl⟩
    have ho := hque.arrive hpcs ha
    rw [hr] at ho
    rw [map_append]
    cases ho with
    | @kept _ _ l' hr hq hP =>
      refine .inr ⟨fun pkt hpkt => ?_, l', hq, hP⟩
      rcases mem_append.1 hpkt with hpkt | hpkt
      · exact hlive pkt hpkt
      · exact hr pkt (mem_singleton.1 hpkt).symm
    | done hst hfu hP hcm hfr htl =>
      exact .inl ⟨⟨_, mem_append_right _ mem_cons_self⟩, hcm, hfr, htl⟩

/-- **Any packets on a queue.** As long as the datagram is not complete the queue is sorted,
apart and counted, whatever arrives. When it gets complete, it is made of the bytes of the
packets. After that nothing changes any more. -/
theorem run_queue {as : List Arrival} {rs : List Ret} (h : Run as rs q) {a : Arrival}
    (ha : a.Fresh q) :
    ∃ q' r, ipFragQueue q a.skb a.pkt a.al = some (q', r) ∧
      ((∀ r ∈ rs, ∀ pkt, r ≠ .done pkt) →
        ((∀ pkt, r ≠ .done pkt) → ∃ l, Queue q' l) ∧
        ∀ pkt, r = .done pkt → Reassembled ((as ++ [a]).map Arrival.pkt) q'.len pkt) ∧
      ((∃ pkt, .done pkt ∈ rs) →
        r = .enoent ∧ q' = q ∧ q.fragments = none ∧ q.fragmentsTail = none) := by
  rcases h.inv with ⟨⟨pkt, hpkt⟩, hcomplete, hfragments, htail⟩ | ⟨hlive, l, hqueue, hpieces⟩
  · exact ⟨q, .enoent, by rw [ipFragQueue, if_pos hcomplete],
      fun hrs => absurd rfl (hrs _ hpkt pkt), fun _ => ⟨rfl, rfl, hfragments, htail⟩⟩
  have hdone : ¬ ∃ pkt, Ret.done pkt ∈ rs := not_exists.2 hlive
  have hout := hqueue.arrive hpieces ha
  generalize ipFragQueue q a.skb a.pkt a.al = res at hout ⊢
  cases hout with
  | @kept q' r l' hr hq hP =>
    refine ⟨q', r, rfl, fun _ => ⟨fun _ => ⟨l', hq⟩, fun pkt heq => absurd heq (hr pkt)⟩, ?_⟩
    intro hex
    exact absurd hex hdone
  | @done q' f F hsorted hfull hP hcomplete hfragments htail =>
    refine ⟨q', _, rfl, fun _ => ⟨fun hno => absurd rfl (hno _), ?_⟩, fun hex => absurd hex hdone⟩
    intro pkt heq
    rw [← Ret.done.inj heq, map_append]
    refine reassembled_of_pieces ?_ hsorted hfull hP _
    intro pkt hmem
    rcases mem_append.1 hmem with hmem | hmem
    · obtain ⟨a, _, rfl⟩ := mem_map.1 hmem
      exact a.ihl
    rw [mem_singleton.1 hmem]
    exact a.ihl

theorem not_queued_of_none (h : q.fragments = none) (p : Ptr) : ¬ q.Queued p := by
  rintro ⟨l, hchn, hp⟩
  cases l with
  | nil => cases hp
  | cons a l => exact absurd (h.symm.trans hchn.1) (by simp)

def someIpq : Ipq := emptyIpq (fun _ => ⟨0, [], []⟩) (fun _ => none)

/-- Eleven bytes in two fragments: the first eight, with more to follow. -/
def firstFragment : Arrival where
  skb := 1
  pkt := [0x45, 0, 0, 0, 0, 0, 0x20, 0] ++ replicate 12 0 ++ replicate 8 1
  al := ⟨true, true, true, true, some 9, true⟩
  ihl := by decide

/-- The three bytes behind them. -/
def lastFragment : Arrival where
  skb := 0
  pkt := [0x45, 0, 0, 0, 0, 0, 0, 1] ++ replicate 12 0 ++ replicate 3 2
  al := ⟨true, true, true, true, some 9, true⟩
  ihl := by decide

def bothFragments : List Byte := setIpHdr (firstFragment.pkt ++ replicate 3 2) 31

/-- The last fragment comes first. The other one completes the datagram; the bytes are counted
still. -/
theorem twoFragments_run : ∃ q q', ipFragQueue someIpq 0 lastFragment.pkt lastFragment.al =
      some (q, .inprogress) ∧ Run [lastFragment] [.inprogress] q ∧ firstFragment.Fresh q ∧
    ipFragQueue q 1 firstFragment.pkt firstFragment.al = some (q', .done bothFragments) ∧
    q'.fragments = none ∧ q'.complete = true ∧ q'.meat = 11 := by
  have hboth : ((ipFragQueue someIpq 0 lastFragment.pkt lastFragment.al).bind fun x =>
      (ipFragQueue x.1 1 firstFragment.pkt firstFragment.al).map fun y =>
        ((x.2, x.1.fragments, x.1.next 0), y.2, y.1.fragments, y.1.complete, y.1.meat)) =
      some ((.inprogress, some 0, none), .done bothFragments, none, true, 11) := by
    decide +kernel
  obtain ⟨⟨q, r⟩, hlast, hboth⟩ := Option.bind_eq_some_iff.1 hboth
  obtain ⟨⟨q', r'⟩, hfirst, hboth⟩ := Option.map_eq_some_iff.1 hboth
  simp only [Prod.mk.injEq] at hboth
  obtain ⟨⟨rfl, hfragments, hnext⟩, rfl, hend⟩ := hboth
  have hqueued (p : Ptr) (hp : p ≠ 0) : ¬ q.Queued p := by
    rintro ⟨l, hchain, hmem⟩
    have hl : Chain q.next q.fragments [0] none := ⟨hfragments, hnext⟩
    rw [hchain.unique hl] at hmem
    exact hp (mem_singleton.1 hmem)
  refine ⟨q, q', hlast, Run.arrive (Run.start _ _) ⟨not_queued_of_none rfl _, fun fp hfp => ?_⟩
    hlast, ⟨hqueued 1 (by decide), fun fp hfp => ?_⟩, hfirst, hend⟩
  · rw [← Option.some.inj hfp]
    exact ⟨not_queued_of_none rfl _, by decide⟩
  · rw [← Option.some.inj hfp]
    exact ⟨hqueued 9 (by decide), by decide⟩

/-- The datagram is made of the bytes of the fragments. -/
theorem run_queue_twoFragments :
    ∃ q q', Run [lastFragment] [.inprogress] q ∧
      ipFragQueue q 1 firstFragment.pkt firstFragment.al = some (q', .done bothFragments) ∧
      Reassembled [lastFragment.pkt, firstFragment.pkt] q'.len bothFragments := by
  obtain ⟨q, q', -, hrun, hfresh, hfirst, -⟩ := twoFragments_run
  obtain ⟨q'', r, hr, hlive, -⟩ := run_queue hrun hfresh
  obtain ⟨rfl, rfl⟩ := Prod.mk.inj (Option.some.inj (hfirst.symm.trans hr))
  exact ⟨q, q', hrun, hfirst, (hlive (by simp)).2 _ rfl⟩

/-- A fragment that comes after the datagram is complete is refused; the queue has no fragments
then, and bytes are counted that are not there. -/
theorem late_fragment_uncounted :
    ∃ q q', Run [lastFragment, firstFragment] [.inprogress, .done bothFragments] q ∧
      firstFragment.Fresh q ∧
      ipFragQueue q 1 firstFragment.pkt firstFragment.al = some (q', .enoent) ∧
      ¬ ∃ l, Queue q' l := by
  obtain ⟨q, q', -, hrun, hfresh, hfirst, hfragments, hcomplete, hmeat⟩ := twoFragments_run
  refine ⟨q', q', Run.arrive hrun hfresh hfirst,
    ⟨not_queued_of_none hfragments _, fun fp hfp => ?_⟩,
    by rw [ipFragQueue, if_pos hcomplete], ?_⟩
  · rw [← Option.some.inj hfp]
    exact ⟨not_queued_of_none hfragments _, by decide⟩
  rintro ⟨l, hl⟩
  have hnil : l = [] := by
    cases l with
    | nil => rfl
    | cons a l => exact absurd (hfragments.symm.trans hl.chain.1) (by simp)
  have hcount := hl.meat
  rw [hnil, hmeat, map_nil, bytes_nil] at hcount
  cases hcount

end NestLinux.IpFragment
