import NestLinux.Net.IpFragmentRun
import Mathlib.Data.List.Range

/-!
# The fragments of one datagram

A datagram is cut into fragments, and they arrive in any order, some of them more than once.
The queue holds the fragments that have arrived, in their order in the datagram, until the
last one is there; then the datagram is what it was.
-/

namespace NestLinux.IpFragment

open Lib List

variable {q q' : Ipq} {l l1 l2 l3 d : List Ptr} {F F1 F2 : List Skb} {s : Skb} {fin offset : ℤ}
  {skb : Ptr} {al : Allocs}

/-- A fragment: its header and its part of the data. -/
structure Fragment where
  hdr : List Byte
  piece : List Byte

def Fragment.pkt (f : Fragment) : List Byte := f.hdr ++ f.piece

variable (fs : List Fragment)

/-- The `j`-th fragment. -/
def fragAt (j : ℕ) : Fragment := fs.getD j ⟨[], []⟩

/-- Where the `j`-th fragment starts. -/
def startOf (j : ℕ) : ℕ := ((fs.take j).map fun f => f.piece.length).sum

/-- The fragments are a cut of the payload: none of them is empty, their lengths are multiples
of eight but for the last one, and their headers say where they belong. -/
structure Cut (fs : List Fragment) (payload : List Byte) : Prop where
  payload : (fs.map Fragment.piece).flatten = payload
  filled : ∀ j < fs.length, (fragAt fs j).piece ≠ []
  eight : ∀ j, j + 1 < fs.length → 8 ∣ (fragAt fs j).piece.length
  hdrlen : ∀ j < fs.length, ipHdrlen (fragAt fs j).pkt = (fragAt fs j).hdr.length
  ihl : ∀ j < fs.length, 20 ≤ (fragAt fs j).hdr.length
  offset : ∀ j < fs.length, ipOffset (fragAt fs j).pkt = startOf fs j
  mf : ∀ j < fs.length, ipMf (fragAt fs j).pkt = decide (j + 1 < fs.length)

/-- The buffer of a fragment in the queue. -/
def skbOf (j : ℕ) : Skb where
  offset := startOf fs j
  headroom := (fragAt fs j).hdr
  data := (fragAt fs j).piece

/-- The fragments that have arrived, in order. -/
def arrived (js : List ℕ) : List ℕ :=
  (range fs.length).filter fun j => decide (j ∈ js)

section Cut

variable {fs : List Fragment} {payload : List Byte} {j k : ℕ} {js : List ℕ}

theorem startOf_succ (hj : j < fs.length) :
    startOf fs (j + 1) = startOf fs j + (fragAt fs j).piece.length := by
  rw [startOf, startOf, take_add_one, map_append, fragAt, getD_eq_getElem?_getD,
    getElem?_eq_getElem hj]
  simp

theorem startOf_mono (fs : List Fragment) (hjk : j ≤ k) : startOf fs j ≤ startOf fs k := by
  induction hjk with
  | refl => exact le_rfl
  | @step k _ ih =>
    by_cases hk : k < fs.length
    · rw [startOf_succ hk]
      omega
    have htk : fs.take (k + 1) = fs.take k := by
      rw [take_of_length_le (by omega), take_of_length_le (by omega)]
    rw [startOf, startOf, htk]
    exact ih

theorem last_skbOf (hj : j < fs.length) : (skbOf fs j).last = startOf fs (j + 1) := by
  rw [startOf_succ hj]
  simp [Skb.last, skbOf]

/-- The fragments are one behind the other. -/
theorem last_le_of_lt (hj : j < fs.length) (hjk : j < k) :
    (skbOf fs j).last ≤ (skbOf fs k).offset := by
  have hle := startOf_mono fs hjk
  rw [last_skbOf hj]
  exact Int.ofNat_le.2 hle

namespace Cut

variable (h : Cut fs payload)

include h

theorem startOf_lt (hj : j < fs.length) : startOf fs j < startOf fs (j + 1) := by
  have hp := length_pos_iff.2 (h.filled j hj)
  rw [startOf_succ hj]
  omega

theorem offset_eq_zero_iff (hj : j < fs.length) : (skbOf fs j).offset = 0 ↔ j = 0 := by
  have ho : (skbOf fs j).offset = startOf fs j := rfl
  constructor
  · by_contra hne
    have hf := h.startOf_lt (show 0 < fs.length by omega)
    have hmn := startOf_mono fs (show 0 + 1 ≤ j by omega)
    omega
  · rintro rfl
    rfl

theorem startOf_length : startOf fs fs.length = payload.length := by
  rw [startOf, take_length, ← h.payload, length_flatten, map_map]
  rfl

/-- The fragments start at multiples of eight. -/
theorem eight_dvd (hj : j < fs.length) : 8 ∣ startOf fs j := by
  induction j with
  | zero => exact Nat.dvd_zero 8
  | succ j ih =>
    rw [startOf_succ (by omega)]
    exact Nat.dvd_add (ih (by omega)) (h.eight j hj)

theorem length_pkt (hj : j < fs.length) :
    (startOf fs j : ℤ) + (fragAt fs j).pkt.length - ipHdrlen (fragAt fs j).pkt =
      startOf fs (j + 1) := by
  rw [h.hdrlen j hj, startOf_succ hj, Fragment.pkt, length_append]
  omega

end Cut

/-! ## The fragments that have arrived -/

/-- The fragments before and behind one of them. -/
theorem arrived_eq (hj : j < fs.length) :
    arrived fs js = ((range j).filter fun i => decide (i ∈ js)) ++ ((if j ∈ js then [j] else []) ++
        (range' (j + 1) (fs.length - (j + 1))).filter fun i => decide (i ∈ js)) := by
  have hrng : range fs.length =
      range j ++ (j :: range' (j + 1) (fs.length - (j + 1))) := by
    rw [range_eq_range', range_eq_range', ← range'_succ]
    have happ := range'_append_1 (s := 0) (m := j) (n := fs.length - (j + 1) + 1)
    rw [zero_add] at happ
    rw [happ]
    congr 1
    omega
  rw [arrived, hrng, filter_append]
  by_cases hm : j ∈ js <;> simp [hm]

theorem arrived_concat (hj : j < fs.length) :
    arrived fs (js ++ [j]) = ((range j).filter fun i => decide (i ∈ js)) ++
      j :: (range' (j + 1) (fs.length - (j + 1))).filter fun i => decide (i ∈ js) := by
  rw [arrived_eq hj, if_pos (by simp)]
  have hsm (l : List ℕ) (hl : j ∉ l) :
      (l.filter fun i => decide (i ∈ js ++ [j])) = l.filter fun i => decide (i ∈ js) := by
    refine filter_congr ?_
    intro i hi
    have hne : i ≠ j := by
      intro heq
      rw [heq] at hi
      exact hl hi
    simp [hne]
  rw [hsm _ (by simp), hsm _ (by simp)]
  rfl

theorem arrived_eq_range (ha : ∀ j < fs.length, j ∈ js) : arrived fs js = range fs.length := by
  rw [arrived, filter_eq_self]
  intro j hj
  simpa using ha j (mem_range.1 hj)

end Cut

/-- A part of some buffers that has all their bytes is all of them. -/
theorem bytes_lt_of_sublist (h : F1.Sublist F2) (hne : F1 ≠ F2) (hfl : ∀ s ∈ F2, s.data ≠ []) :
    bytes F1 < bytes F2 := by
  induction h with
  | slnil => exact absurd rfl hne
  | @cons F1 F2 s h ih =>
    have hp := length_pos_iff.2 (hfl s mem_cons_self)
    rw [bytes_cons]
    by_cases heq : F1 = F2
    · rw [heq]
      omega
    have hlt := ih heq (fun a ha => hfl a (mem_cons_of_mem s ha))
    omega
  | @cons_cons F1 F2 s h ih =>
    have hlt := ih (fun heq => hne (by rw [heq])) (fun a ha => hfl a (mem_cons_of_mem s ha))
    rw [bytes_cons, bytes_cons]
    omega

/-! ## The queue -/

/-- The queue holds the fragments that have arrived. -/
structure Holds (fs : List Fragment) (js : List ℕ) (q : Ipq) (l : List Ptr) : Prop where
  queue : Queue q l
  skbs : l.map q.skbs = (arrived fs js).map (skbOf fs)
  firstIn : q.firstIn = decide (0 ∈ js)
  lastIn : q.lastIn = decide (fs.length - 1 ∈ js)
  len : q.len ≤ startOf fs fs.length
  full : q.lastIn = true → q.len = startOf fs fs.length
  complete : q.complete = false

section Arrive

variable {fs : List Fragment} {payload : List Byte} {j k : ℕ} {js : List ℕ}

theorem holds_empty (fs : List Fragment) (skbs : Ptr → Skb) (next : Ptr → Option Ptr) :
    Holds fs [] (emptyIpq skbs next) [] where
  queue := ⟨rfl, nodup_nil, rfl, sorted_nil, rfl⟩
  skbs := by simp [arrived]
  firstIn := rfl
  lastIn := rfl
  len := Int.natCast_nonneg _
  full h := absurd h Bool.false_ne_true
  complete := rfl

/-- The end of a fragment is never in contradiction to what is known. -/
theorem Holds.noteEnd (hct : Cut fs payload) (h : Holds fs js q l) (hj : j < fs.length) :
    ∃ len, noteEnd q (startOf fs (j + 1)) (ipMf (fragAt fs j).pkt) =
        some ({ q with lastIn := decide (fs.length - 1 ∈ js ++ [j]), len := len },
          (startOf fs (j + 1) : ℤ)) ∧
      q.len ≤ len ∧ startOf fs (j + 1) ≤ len ∧ len ≤ startOf fs fs.length ∧
      (fs.length - 1 ∈ js ++ [j] → len = startOf fs fs.length) := by
  have hl := h.len
  have hfu := h.full
  have hlastIn := h.lastIn
  unfold IpFragment.noteEnd
  rw [hct.mf j hj]
  by_cases hla : j + 1 < fs.length
  · have hne : fs.length - 1 ≠ j := by omega
    have hm : fs.length - 1 ∈ js ++ [j] ↔ fs.length - 1 ∈ js := by simp [hne]
    have height := hct.eight_dvd hla
    have hmd : ¬ (startOf fs (j + 1) : ℤ) % 8 ≠ 0 := by omega
    have hle := startOf_mono fs (le_of_lt hla)
    rw [if_neg (by simp [hla])]
    simp only [if_neg hmd, hm, ← hlastIn]
    split
    · have hn : q.lastIn = false := by
        rw [Bool.eq_false_iff]
        intro hin
        have := hfu hin
        omega
      rw [hn]
      refine ⟨_, rfl, by omega, le_rfl, by omega, ?_⟩
      intro hin
      rw [hlastIn] at hn
      exact absurd hin (of_decide_eq_false hn)
    · refine ⟨q.len, rfl, le_rfl, by omega, hl, ?_⟩
      intro hin
      exact hfu (by rw [hlastIn]; exact decide_eq_true hin)
  · have hj' : j + 1 = fs.length := by omega
    have hm : fs.length - 1 ∈ js ++ [j] := by simp [← hj']
    rw [if_pos (by simp [hla]), hj', if_neg]
    · refine ⟨startOf fs fs.length, by rw [decide_eq_true hm], hl, le_rfl, le_rfl, fun _ => rfl⟩
    intro hc
    rcases hc with hc | hc
    · omega
    · exact hc.2 (hfu hc.1).symm

/-- The buffers of a queue around the place of a fragment: those before it, its duplicate if
there is one, and those behind it. -/
theorem exists_around (hj : j < fs.length) (h : l.map q.skbs = (arrived fs js).map (skbOf fs)) :
    ∃ l1 d l3, l = l1 ++ (d ++ l3) ∧
      (∀ p ∈ l1, (q.skbs p).last ≤ startOf fs j) ∧ (∀ p ∈ d, q.skbs p = skbOf fs j) ∧
      (∀ p ∈ l3, (startOf fs (j + 1) : ℤ) ≤ (q.skbs p).offset) ∧
      l1.map q.skbs ++ skbOf fs j :: l3.map q.skbs = (arrived fs (js ++ [j])).map (skbOf fs) := by
  rw [arrived_eq hj, map_append, map_append] at h
  obtain ⟨l1, l', rfl, h1, h'⟩ := map_eq_append_iff.1 h
  obtain ⟨d, l3, rfl, hd, h3⟩ := map_eq_append_iff.1 h'
  have hfrom {m : List Ptr} {is : List ℕ} (hmap : m.map q.skbs = is.map (skbOf fs)) {p : Ptr}
      (hp : p ∈ m) : ∃ i ∈ is, skbOf fs i = q.skbs p :=
    mem_map.1 (hmap ▸ mem_map_of_mem hp)
  refine ⟨l1, d, l3, rfl, ?_, ?_, ?_, ?_⟩
  · intro p hp
    obtain ⟨i, hi, heq⟩ := hfrom h1 hp
    have hlt := mem_range.1 (mem_of_mem_filter hi)
    rw [← heq]
    exact last_le_of_lt (hlt.trans hj) hlt
  · intro p hp
    obtain ⟨i, hi, heq⟩ := hfrom hd hp
    split at hi
    · rw [← mem_singleton.1 hi]
      exact heq.symm
    · cases hi
  · intro p hp
    obtain ⟨i, hi, heq⟩ := hfrom h3 hp
    have hrng := mem_range'_1.1 (mem_of_mem_filter hi)
    rw [← heq, ← last_skbOf hj]
    exact last_le_of_lt hj hrng.1
  · rw [arrived_concat hj, h1, h3, map_append, map_cons]

/-- No overlap with the fragment before: nothing is cut off. -/
theorem cutPrev_apart {prev : Option Ptr} (ok : Bool)
    (h : ∀ p, prev = some p → (q.skbs p).last ≤ offset) :
    cutPrev q prev s offset fin ok = .ok (s, offset) := by
  cases prev with
  | none => rfl
  | some p =>
    have hle := h p rfl
    simp only [cutPrev]
    rw [if_neg (by omega)]

/-- The loop stops where the fragments behind are apart. -/
theorem eatLoop_apart (prev : Option Ptr) (ok : Bool) (fuel : ℕ)
    (h : ∀ p, l.head? = some p → fin ≤ (q.skbs p).offset) :
    eatLoop fin ok prev (fuel + 1) q l.head? = some (q, l.head?, true) := by
  cases hl : l.head? with
  | none => rfl
  | some p =>
    have hle := h p hl
    simp only [eatLoop]
    rw [if_neg (by omega)]

/-- **A fragment finds its place**, and takes that of its duplicate. -/
theorem Cut.place (hc : Cut fs payload) (hque : Queue q l)
    (hsk : l.map q.skbs = (arrived fs js).map (skbOf fs)) (hj : j < fs.length)
    (hl : startOf fs (j + 1) ≤ q.len) (hskb : skb ∉ l) (al : Allocs) :
    ∃ l1 l3 next q', findPlace q (startOf fs j) = some (l1.getLast?, next) ∧
      l1 ++ skb :: l3 ⊆ skb :: l ∧ Queue q' (l1 ++ skb :: l3) ∧
      (l1 ++ skb :: l3).map q'.skbs = (arrived fs (js ++ [j])).map (skbOf fs) ∧
      q'.len = q.len ∧ q'.lastIn = q.lastIn ∧ q'.complete = q.complete ∧
      q'.firstIn = (q.firstIn || decide (j = 0)) ∧ linkFrag q skb
          { offset := 0, headroom := (fragAt fs j).hdr, data := (fragAt fs j).piece }
          l1.getLast? next (startOf fs j) (startOf fs (j + 1)) al =
        if q'.firstIn = true ∧ q'.lastIn = true ∧ q'.meat = q'.len then
          ipFragReasm q' l1.getLast? al
        else some (q', .inprogress) := by
  have hlt := hc.startOf_lt hj
  obtain ⟨l1, d, l3, rfl, hb, hd, hbeh, hm⟩ := exists_around hj hsk
  have hcv : ∀ p ∈ d, q.Covered (startOf fs (j + 1)) p := by
    intro p hp
    unfold Ipq.Covered
    rw [hd p hp, last_skbOf hj]
    exact ⟨Int.ofNat_lt.2 hlt, le_rfl⟩
  have hfi : findPlace q (startOf fs j) = some (l1.getLast?, (d ++ l3).head?) := by
    refine findPlace_eq hque ?_ ?_
    · intro p hp
      have hfil := hque.sorted.filled _ (mem_map_of_mem (mem_append_left _ hp))
      have hla := Skb.offset_lt_last hfil
      have hle := hb p hp
      omega
    intro p hp
    rcases mem_append.1 hp with hp | hp
    · rw [hd p hp]
      exact le_rfl
    have hle := hbeh p hp
    omega
  obtain ⟨fuel, hfl⟩ : ∃ fuel, q.meat.toNat + 1 = d.length + (fuel + 1) := by
    have hct := hque.length_lt
    simp only [length_append] at hct
    exact ⟨q.meat.toNat - d.length, by omega⟩
  obtain ⟨q1, hq1, hchn, hlp⟩ :=
    eatLoop_drop al.pullNext (fuel + 1) hque.chain hque.nodup hcv
  have hetn := Eaten.of_drop hque hq1 hchn
  have hsm : q1.skbs = q.skbs := by rw [hq1]
  have hst := eatLoop_apart l1.getLast? al.pullNext fuel (by
    intro p hp
    rw [hsm]
    exact hbeh p (mem_of_head? hp))
  rw [← hfl, hst] at hlp
  have hsr : Sorted q1.len (l1.map q1.skbs ++ skbOf fs j :: l3.map q1.skbs) := by
    have hopn := hetn.opened.sorted
    rw [map_append] at hopn
    refine hopn.insert (hc.filled j hj) (Int.natCast_nonneg _) ?_ ?_ ?_
    · rw [last_skbOf hj, hetn.len]
      exact hl
    · intro a ha
      obtain ⟨p, hp, rfl⟩ := mem_map.1 ha
      rw [hsm]
      exact hb p hp
    intro a ha
    obtain ⟨p, hp, rfl⟩ := mem_map.1 ha
    rw [hsm, last_skbOf hj]
    exact hbeh p hp
  have hsub : l1 ++ l3 ⊆ l1 ++ (d ++ l3) :=
    (List.Sublist.append_left (sublist_append_right d l3) l1).subset
  obtain ⟨hq2, hm2⟩ := hetn.opened.insert (fun hmm => hskb (hsub hmm)) hsr
  rw [hsm, hm] at hm2
  have hpv : cutPrev q l1.getLast? ⟨0, (fragAt fs j).hdr, (fragAt fs j).piece⟩ (startOf fs j)
      (startOf fs (j + 1)) al.pullPrev = .ok (_, _) :=
    cutPrev_apart al.pullPrev (fun p hp => hb p (mem_of_getLast? hp))
  have hlk := linkFrag_eq skb hpv hlp rfl
  refine ⟨l1, l3, _, _, hfi, ?_, hq2, hm2, hetn.len, hetn.lastIn, hetn.complete, ?_, hlk⟩
  · exact fun p hp => cons_subset_cons skb hsub (perm_middle.mem_iff.1 hp)
  simp [insertFrag, Ipq.link, hetn.firstIn, hc.offset_eq_zero_iff hj]

/-- All the memory that is needed, with a clone at `fp`. -/
def plenty (fp : Ptr) : Allocs where
  pullHdr := true
  trim := true
  pullPrev := true
  pullNext := true
  clone := some fp
  expandHead := true

/-- **A fragment arrives.** -/
theorem Holds.arrive (hc : Cut fs payload) (h : Holds fs js q l) (hj : j < fs.length)
    (hskb : skb ∉ l) (fp : Ptr) :
    ∃ l1 l2 q', l1 ++ skb :: l2 ⊆ skb :: l ∧ Holds fs (js ++ [j]) q' (l1 ++ skb :: l2) ∧
      ipFragQueue q skb (fragAt fs j).pkt (plenty fp) =
        if q'.firstIn = true ∧ q'.lastIn = true ∧ q'.meat = q'.len then
          ipFragReasm q' l1.getLast? (plenty fp) else some (q', .inprogress) := by
  obtain ⟨len, hnt, hgr, he, hbd, hfu⟩ := h.noteEnd hc hj
  have hlt := hc.startOf_lt hj
  obtain ⟨l1, l2, next, q', hfi, hsub, hque, hsk, hl, hlastIn, hcm, hfirstIn, hlk⟩ :=
    hc.place (h.queue.grow hgr (b := decide (fs.length - 1 ∈ js ++ [j]))) h.skbs hj he hskb
      (plenty fp)
  refine ⟨l1, l2, q', hsub, ⟨hque, hsk, ?_, hlastIn, ?_, ?_, ?_⟩, ?_⟩
  · rw [hfirstIn]
    rw [h.firstIn]
    simp [eq_comm]
  · rw [hl]
    exact hbd
  · intro hin
    rw [hlastIn] at hin
    rw [hl]
    exact hfu (of_decide_eq_true hin)
  · rw [hcm]
    exact h.complete
  have hpl : pskbPull true { offset := 0, headroom := [], data := (fragAt fs j).pkt }
      (ipHdrlen (fragAt fs j).pkt) =
      some { offset := 0, headroom := (fragAt fs j).hdr, data := (fragAt fs j).piece } := by
    rw [hc.hdrlen j hj, pskbPull_true (by simp [Fragment.pkt])]
    simp [Skb.cut, Fragment.pkt]
  have htr : ((startOf fs (j + 1) : ℤ) - startOf fs j).toNat = (fragAt fs j).piece.length := by
    rw [startOf_succ hj]
    omega
  rw [ipFragQueue, if_neg (by simp [h.complete])]
  simp only [hc.offset j hj, hc.length_pkt hj, hnt, plenty, hpl, pskbTrimRcsum, htr]
  rw [if_neg (by omega)]
  simp only [reduceIte, take_length]
  rw [hfi]
  exact hlk

/-! ## The last fragment -/

theorem bytes_range (hk : k ≤ fs.length) : bytes ((range k).map (skbOf fs)) = startOf fs k := by
  induction k with
  | zero => rfl
  | succ k ih =>
    rw [range_succ, map_append, bytes_append, ih (by omega), map_singleton, bytes_cons,
      startOf_succ (by omega)]
    simp [skbOf]

theorem map_fragAt : (range fs.length).map (fragAt fs) = fs := by
  refine ext_getElem (by simp) ?_
  intro i _ hi
  simp [fragAt, getElem?_eq_getElem hi]

/-- The bytes and the flags are those of a whole datagram when every fragment has arrived, and
not before. -/
theorem Holds.whole_iff (hc : Cut fs payload) (h : Holds fs js q l) (hfs : 0 < fs.length) :
    (q.firstIn = true ∧ q.lastIn = true ∧ q.meat = q.len) ↔ ∀ j < fs.length, j ∈ js := by
  have hmt : q.meat = bytes ((arrived fs js).map (skbOf fs)) := by
    rw [h.queue.meat, h.skbs]
  have htot := bytes_range (le_refl fs.length)
  constructor
  · rintro ⟨-, hla, hct⟩
    by_contra hms
    have hne : (arrived fs js).map (skbOf fs) ≠ (range fs.length).map (skbOf fs) := by
      intro heq
      have hl : (arrived fs js).length = (range fs.length).length := by
        have := congrArg length heq
        rwa [length_map, length_map] at this
      refine hms ?_
      intro j hj
      have hm := mem_range.2 hj
      rw [← filter_sublist.eq_of_length hl] at hm
      exact of_decide_eq_true (mem_filter.1 hm).2
    have hlt : bytes ((arrived fs js).map (skbOf fs)) <
        bytes ((range fs.length).map (skbOf fs)) := by
      refine bytes_lt_of_sublist (filter_sublist.map (skbOf fs)) hne ?_
      intro s hs
      obtain ⟨j, hj, rfl⟩ := mem_map.1 hs
      exact hc.filled j (mem_range.1 hj)
    have hfu := h.full hla
    omega
  · intro ha
    have hla : q.lastIn = true := by
      rw [h.lastIn]
      exact decide_eq_true (ha _ (by omega))
    refine ⟨?_, hla, ?_⟩
    · rw [h.firstIn]
      exact decide_eq_true (ha 0 hfs)
    · rw [hmt, arrived_eq_range ha, htot, h.full hla]

/-- `ntohs(iph->tot_len)`. -/
def totLen (pkt : List Byte) : BitVec 16 := pkt.getD 2 0 ++ pkt.getD 3 0

/-- The header of the first fragment is changed and stays before the data. -/
theorem setIpHdr_append {hdr : List Byte} (hl : 20 ≤ hdr.length) (data : List Byte)
    (n : BitVec 16) : setIpHdr (hdr ++ data) n = setIpHdr hdr n ++ data := by
  unfold setIpHdr
  rw [set_append_left _ _ (by omega), set_append_left _ _ (by rw [length_set]; omega),
    set_append_left _ _ (by simp only [length_set]; omega),
    set_append_left _ _ (by simp only [length_set]; omega)]

theorem totLen_setIpHdr {hdr : List Byte} (hl : 20 ≤ hdr.length) (data : List Byte)
    (n : BitVec 16) : totLen (setIpHdr hdr n ++ data) = n := by
  have h2 : (setIpHdr hdr n ++ data).getD 2 0 = n.extractLsb' 8 8 := by
    rw [getD_eq_getElem?_getD, getElem?_append_left (by simp [setIpHdr]; omega)]
    simp [setIpHdr, show 2 < hdr.length by omega]
  have h3 : (setIpHdr hdr n ++ data).getD 3 0 = n.extractLsb' 0 8 := by
    rw [getD_eq_getElem?_getD, getElem?_append_left (by simp [setIpHdr]; omega)]
    simp [setIpHdr, show 3 < hdr.length by omega]
  have happ : n.extractLsb' 8 8 ++ n.extractLsb' 0 8 = n.extractLsb' 0 (8 + 8) :=
    BitVec.extractLsb'_append_extractLsb'_eq_extractLsb' rfl
  rw [totLen, h2, h3]
  exact happ.trans BitVec.extractLsb'_eq_self

/-- **The last fragment arrives** and the datagram is put together. -/
theorem Holds.reasm (hc : Cut fs payload) {l1 l2 : List Ptr} {fp : Ptr}
    (h : Holds fs js q (l1 ++ skb :: l2)) (ha : ∀ j < fs.length, j ∈ js) (hfs : 0 < fs.length)
    (hsz : (fragAt fs 0).hdr.length + payload.length ≤ 65535) (hfp : fp ∉ l1 ++ skb :: l2) :
    ∃ q', ipFragReasm q l1.getLast? (plenty fp) = some (q', .done (setIpHdr (fragAt fs 0).hdr
        (BitVec.ofNat 16 ((fragAt fs 0).hdr.length + payload.length)) ++ payload)) := by
  have hl : q.len = payload.length := by
    rw [h.full ((h.whole_iff hc hfs).2 ha).2.1, hc.startOf_length]
  obtain ⟨F, hF⟩ : ∃ F, (range fs.length).map (skbOf fs) = skbOf fs 0 :: F := by
    obtain ⟨n, hn⟩ := Nat.exists_eq_add_of_lt hfs
    rw [hn, range_succ_eq_map]
    exact ⟨_, rfl⟩
  have hqd : (l1 ++ skb :: l2).map q.skbs = skbOf fs 0 :: F := by
    rw [h.skbs, arrived_eq_range ha, hF]
  have hda : ((skbOf fs 0 :: F).map Skb.data).flatten = payload := by
    have hpcs : (range fs.length).map (Skb.data ∘ skbOf fs) =
        ((range fs.length).map (fragAt fs)).map Fragment.piece := by
      rw [map_map]
      rfl
    rw [← hF, map_map, hpcs, map_fragAt, hc.payload]
  have hhdr : ipHdrlen (skbOf fs 0).packet = (fragAt fs 0).hdr.length := hc.hdrlen 0 hfs
  have hfr : ∀ fp', (plenty fp).clone = some fp' → fp' ∉ l1 ++ skb :: l2 := by
    intro fp' hfp'
    rw [← Option.some.inj hfp']
    exact hfp
  obtain ⟨q', l', _, _, _, _, hrea⟩ := h.queue.reasm hqd hfr
  refine ⟨{ q' with fragments := none, fragmentsTail := none }, ?_⟩
  rw [hrea, if_neg (by simp [plenty]), hhdr, hl, if_neg (by omega), hda]
  have hofInt : BitVec.ofInt 16 (((fragAt fs 0).hdr.length : ℤ) + (payload.length : ℤ)) =
      BitVec.ofNat 16 ((fragAt fs 0).hdr.length + payload.length) := by
    rw [← Int.natCast_add, BitVec.ofInt_natCast]
  rw [← setIpHdr_append (hc.ihl 0 hfs)]
  rfl

/-- Fragment `j` arrives, and there is enough memory. -/
structure Delivers (fs : List Fragment) (a : Arrival) (j : ℕ) : Prop where
  lt : j < fs.length
  pkt : a.pkt = (fragAt fs j).pkt
  al : ∃ fp, a.al = plenty fp

/-- One more fragment, with the datagram complete or not. -/
theorem Holds.deliver (hct : Cut fs payload) (h : Holds fs js q l) {a : Arrival} (ha : a.Fresh q)
    (haj : Delivers fs a j) (hsz : (fragAt fs 0).hdr.length + payload.length ≤ 65535) :
    ∃ q', if ∀ i < fs.length, i ∈ js ++ [j] then
        ipFragQueue q a.skb a.pkt a.al = some (q', .done (setIpHdr (fragAt fs 0).hdr
          (BitVec.ofNat 16 ((fragAt fs 0).hdr.length + payload.length)) ++ payload)) else
        ipFragQueue q a.skb a.pkt a.al = some (q', .inprogress) ∧
          ∃ l', Holds fs (js ++ [j]) q' l' := by
  obtain ⟨fp, hal⟩ := haj.al
  obtain ⟨hskb, hcl⟩ := ha.notMem h.queue
  have hfs : 0 < fs.length := lt_of_le_of_lt (Nat.zero_le j) haj.lt
  obtain ⟨l1, l2, q', hsub, hhld, hsp⟩ := h.arrive hct haj.lt hskb fp
  have hwh := hhld.whole_iff hct hfs
  rw [haj.pkt, hal, hsp]
  by_cases hall : ∀ i < fs.length, i ∈ js ++ [j]
  · have hfp : fp ∉ l1 ++ a.skb :: l2 := by
      obtain ⟨hne, hne'⟩ := hcl fp (by rw [hal]; rfl)
      intro hm
      rcases mem_cons.1 (hsub hm) with heq | hm
      · exact hne' heq
      · exact hne hm
    obtain ⟨q'', hrea⟩ := hhld.reasm hct hall hfs hsz hfp
    refine ⟨q'', ?_⟩
    rw [if_pos hall, if_pos (hwh.2 hall), hrea]
  · refine ⟨q', ?_⟩
    rw [if_neg hall, if_neg (fun hc => hall (hwh.1 hc))]
    exact ⟨rfl, _, hhld⟩

/-- As long as a fragment is missing, the queue holds those that have arrived. -/
theorem Run.holds (hc : Cut fs payload)
    (hsz : (fragAt fs 0).hdr.length + payload.length ≤ 65535) {as : List Arrival} {rs : List Ret}
    (h : Run as rs q) {ajs : List (Arrival × ℕ)} (has : as = ajs.map Prod.fst)
    (hajs : ∀ aj ∈ ajs, Delivers fs aj.1 aj.2) (hms : ∃ j < fs.length, j ∉ ajs.map Prod.snd) :
    (∀ r ∈ rs, r = .inprogress) ∧ ∃ l, Holds fs (ajs.map Prod.snd) q l := by
  induction h generalizing ajs with
  | start skbs next =>
    rw [eq_comm, map_eq_nil_iff] at has
    rw [has]
    exact ⟨by simp, [], holds_empty fs skbs next⟩
  | @arrive as rs q q' a r h ha hr ih =>
    obtain ⟨ajs, last, rfl, has', hla⟩ := map_eq_append_iff.1 has.symm
    obtain ⟨aj, rfl, haj⟩ := map_eq_singleton_iff.1 hla
    obtain ⟨j, hj, hn⟩ := hms
    rw [map_append] at hn ⊢
    obtain ⟨hrs, l, hhld⟩ := ih has'.symm (fun x hx => hajs x (mem_append_left _ hx))
      ⟨j, hj, fun hm => hn (mem_append_left _ hm)⟩
    have hdel := hajs aj (mem_append_right _ mem_cons_self)
    rw [haj] at hdel
    obtain ⟨q'', hsp⟩ := hhld.deliver hc ha hdel hsz
    rw [if_neg (fun hal => hn (hal j hj)), hr, Option.some.injEq] at hsp
    obtain ⟨⟨rfl, rfl⟩, hhld'⟩ := hsp
    exact ⟨forall_mem_append.2 ⟨hrs, fun r hr => mem_singleton.1 hr⟩, hhld'⟩

end Arrive

/-- **Reassembly is exact.** The fragments of a payload arrive on a new queue in any order and
any number of times. As long as one is missing, each of them is queued. The last one makes the
datagram: the header of the first fragment, and the payload. -/
theorem reasm_exact {fs : List Fragment} {payload : List Byte} (hcut : Cut fs payload)
    (hsize : (fragAt fs 0).hdr.length + payload.length ≤ 65535) {rs : List Ret} {q : Ipq}
    {ajs : List (Arrival × ℕ)} (h : Run (ajs.map Prod.fst) rs q)
    (hajs : ∀ aj ∈ ajs, Delivers fs aj.1 aj.2) (hmiss : ∃ j < fs.length, j ∉ ajs.map Prod.snd)
    {a : Arrival} {j : ℕ} (ha : a.Fresh q) (haj : Delivers fs a j) :
    (∀ r ∈ rs, r = .inprogress) ∧
      ∃ q' r, ipFragQueue q a.skb a.pkt a.al = some (q', r) ∧
        ((∃ i < fs.length, i ∉ ajs.map Prod.snd ++ [j]) → r = .inprogress) ∧
        ((∀ i < fs.length, i ∈ ajs.map Prod.snd ++ [j]) →
          ∃ dgram hdr, r = .done dgram ∧ dgram = hdr ++ payload ∧
            hdr = setIpHdr (fragAt fs 0).hdr (totLen dgram) ∧
            (totLen dgram).toNat = (fragAt fs 0).hdr.length + payload.length) := by
  obtain ⟨hrs, l, hholds⟩ := h.holds hcut hsize rfl hajs hmiss
  refine ⟨hrs, ?_⟩
  have hfs : 0 < fs.length := Nat.lt_of_le_of_lt (Nat.zero_le j) haj.lt
  obtain ⟨q', hstep⟩ := hholds.deliver hcut ha haj hsize
  by_cases hall : ∀ i < fs.length, i ∈ ajs.map Prod.snd ++ [j]
  · rw [if_pos hall] at hstep
    refine ⟨q', _, hstep, ?_, fun _ => ⟨_, _, rfl, rfl, ?_, ?_⟩⟩
    · rintro ⟨i, hi, hnot⟩
      exact absurd (hall i hi) hnot
    · rw [totLen_setIpHdr (hcut.ihl 0 hfs)]
    rw [totLen_setIpHdr (hcut.ihl 0 hfs), BitVec.toNat_ofNat]
    omega
  · rw [if_neg hall] at hstep
    exact ⟨q', _, hstep.1, fun _ => rfl, fun hc => absurd hc hall⟩

/-- Eleven bytes in two fragments. -/
def twoFragments : List Fragment :=
  [{ hdr := [0x45, 0, 0, 0, 0, 0, 0x20, 0] ++ replicate 12 0, piece := replicate 8 1 },
    { hdr := [0x45, 0, 0, 0, 0, 0, 0, 1] ++ replicate 12 0, piece := replicate 3 2 }]

theorem twoFragments_cut : Cut twoFragments (replicate 8 1 ++ replicate 3 2) where
  payload := rfl
  filled := by decide
  eight := by
    have ha : ∀ j < 2, j + 1 < twoFragments.length →
        8 ∣ (fragAt twoFragments j).piece.length := by decide
    intro j hj
    exact ha j (Nat.lt_of_succ_lt hj) hj
  hdrlen := by decide
  ihl := by decide
  offset := by decide
  mf := by decide

/-- The second fragment comes first. -/
theorem reasm_exact_twoFragments :
    ∃ q q' dgram, ipFragQueue someIpq 0 (fragAt twoFragments 1).pkt (plenty 9) =
        some (q, .inprogress) ∧
      ipFragQueue q 1 (fragAt twoFragments 0).pkt (plenty 9) = some (q', .done dgram) ∧
      dgram.drop 20 = replicate 8 1 ++ replicate 3 2 ∧ (totLen dgram).toNat = 31 := by
  obtain ⟨q, -, hlast, hrun, hfresh, -⟩ := twoFragments_run
  have hrun' : Run ([(lastFragment, 1)].map Prod.fst) [.inprogress] q := hrun
  obtain ⟨-, q', r, hr, -, hdone⟩ := reasm_exact (j := 0) twoFragments_cut (by decide) hrun'
    (by simpa using ⟨by decide, rfl, 9, rfl⟩) ⟨0, by decide, by decide⟩ hfresh
    ⟨by decide, rfl, 9, rfl⟩
  obtain ⟨dgram, hdr, rfl, hdgram, hhdr, htot⟩ := hdone (by decide)
  refine ⟨q, q', dgram, hlast, hr, ?_, htot⟩
  have hlen : hdr.length = 20 := by
    rw [hhdr]
    simp [setIpHdr]
    rfl
  rw [hdgram, ← hlen, drop_left]

end NestLinux.IpFragment
