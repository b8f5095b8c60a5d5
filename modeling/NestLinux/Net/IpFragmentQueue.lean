import NestLinux.Net.IpFragment
import Mathlib.Algebra.BigOperators.Group.List.Basic
import Mathlib.Algebra.Order.Ring.Int
import Mathlib.Data.List.Pairwise
import Mathlib.Data.List.TakeWhile

/-!
# The queue of fragments

What the steps of `ip_frag_queue` do to the queue. The fragments that are queued are seen as
a list of buffers: sorted, apart, none of them empty, and counted by `meat`. Each step keeps
that, and its lemma says which list there is afterwards.
-/

namespace NestLinux.IpFragment

open Lib Function List Skb Option

variable {q q' : Ipq} {l l1 l2 l3 : List Ptr} {F F1 F2 : List Skb} {s s' : Skb} {len lo fin : ℤ}
  {n : ℕ} {offset : ℤ} {d : List Ptr} {f : Skb} {p skb : Ptr} {prev : Option Ptr} {al : Allocs}

/-- The number of bytes of some buffers. -/
def bytes (F : List Skb) : ℤ := (F.map fun s => (s.data.length : ℤ)).sum

@[simp] theorem bytes_nil : bytes [] = 0 := rfl

@[simp] theorem bytes_cons : bytes (s :: F) = s.data.length + bytes F := by simp [bytes]

@[simp] theorem bytes_append : bytes (F1 ++ F2) = bytes F1 + bytes F2 := by simp [bytes]

/-- Buffers that are sorted and apart, not empty, and end at or below `len`. -/
structure Sorted (len : ℤ) (F : List Skb) : Prop where
  apart : F.Pairwise fun s s' => s.last ≤ s'.offset
  filled : ∀ s ∈ F, s.data ≠ []
  start : ∀ s ∈ F, 0 ≤ s.offset
  bound : ∀ s ∈ F, s.last ≤ len

/-- The queue holds the buffers of `l`. -/
structure Queue (q : Ipq) (l : List Ptr) : Prop where
  chain : Chain q.next q.fragments l none
  nodup : l.Nodup
  tail : q.fragmentsTail = l.getLast?
  sorted : Sorted q.len (l.map q.skbs)
  meat : q.meat = bytes (l.map q.skbs)

theorem Skb.offset_lt_last (h : s.data ≠ []) : s.offset < s.last := by
  have hp := length_pos_iff.2 h
  unfold last
  omega

/-! ## Lists of buffers -/

theorem sorted_nil : Sorted len [] where
  apart := List.Pairwise.nil
  filled := by simp
  start := by simp
  bound := by simp

theorem Sorted.mono {len' : ℤ} (h : Sorted len F) (hle : len ≤ len') : Sorted len' F where
  apart := h.apart
  filled := h.filled
  start := h.start
  bound s hs := Int.le_trans (h.bound s hs) hle

theorem Sorted.sublist (h : Sorted len F1) (hsub : F2.Sublist F1) : Sorted len F2 where
  apart := h.apart.sublist hsub
  filled s hs := h.filled s (hsub.subset hs)
  start s hs := h.start s (hsub.subset hs)
  bound s hs := h.bound s (hsub.subset hs)

theorem forall_mem_middle {P : Skb → Prop} (h : ∀ a ∈ F1 ++ F2, P a) (hs : P s) :
    ∀ a ∈ F1 ++ s :: F2, P a :=
  fun a ha => forall_mem_cons.2 ⟨hs, h⟩ a (perm_middle.mem_iff.1 ha)

theorem Sorted.insert (h : Sorted len (F1 ++ F2)) (hfl : s.data ≠ []) (hst : 0 ≤ s.offset)
    (hbd : s.last ≤ len) (h1 : ∀ s' ∈ F1, s'.last ≤ s.offset)
    (h2 : ∀ s' ∈ F2, s.last ≤ s'.offset) : Sorted len (F1 ++ s :: F2) where
  apart := by
    have happ := pairwise_append.1 h.apart
    exact pairwise_append.2 ⟨happ.1, pairwise_cons.2 ⟨h2, happ.2.1⟩,
      fun a ha => forall_mem_cons.2 ⟨h1 a ha, happ.2.2 a ha⟩⟩
  filled := forall_mem_middle h.filled hfl
  start := forall_mem_middle h.start hst
  bound := forall_mem_middle h.bound hbd

/-- No buffer is empty, so there are not more buffers than bytes. -/
theorem length_le_bytes (h : ∀ s ∈ F, s.data ≠ []) : (F.length : ℤ) ≤ bytes F := by
  induction F with
  | nil => simp
  | cons s F ih =>
    have hp := length_pos_iff.2 (h s mem_cons_self)
    have hrs := ih (fun a ha => h a (mem_cons_of_mem s ha))
    rw [bytes_cons, length_cons]
    omega

theorem Queue.length_lt (h : Queue q l) : l.length < q.meat.toNat + 1 := by
  have hle := length_le_bytes h.sorted.filled
  rw [← h.meat, length_map] at hle
  omega

/-! ## Pulling and trimming -/

/-- A buffer without its first bytes. -/
def Skb.cut (s : Skb) (n : ℕ) : Skb where
  offset := s.offset + n
  headroom := s.headroom ++ s.data.take n
  data := s.data.drop n

@[simp] theorem Skb.cut_zero (s : Skb) : s.cut 0 = s := by
  simp [cut]

theorem Skb.last_cut (h : n ≤ s.data.length) : (s.cut n).last = s.last := by
  simp only [last, cut, length_drop]
  omega

theorem Skb.packet_cut (s : Skb) (n : ℕ) : (s.cut n).packet = s.packet := by
  simp [packet, cut]

@[simp] theorem pskbPull_false : pskbPull false s n = none := if_neg (by simp)

/-- A pull moves the first bytes out of the data. -/
theorem pskbPull_true (hn : n ≤ s.data.length) :
    pskbPull true s n = some { s.cut n with offset := s.offset } := if_pos ⟨hn, rfl⟩

/-! ## The end of the datagram -/

/-- The length grows, and what ends with a fragment ends below it. -/
theorem noteEnd_some {mf : Bool} {e : ℤ} (h : noteEnd q fin mf = some (q', e)) :
    (∃ b len, q' = { q with lastIn := b, len := len } ∧ q.len ≤ len ∧ e ≤ len) ∧
      (e = fin ∨ e = fin / 8 * 8) := by
  unfold noteEnd at h
  split at h
  · split at h
    · cases h
    obtain ⟨rfl, rfl⟩ := Prod.mk.inj (some.inj h)
    exact ⟨⟨true, fin, rfl, by omega, Int.le_refl _⟩, Or.inl rfl⟩
  simp only at h
  have hor : (if fin % 8 ≠ 0 then fin / 8 * 8 else fin) = fin ∨
      (if fin % 8 ≠ 0 then fin / 8 * 8 else fin) = fin / 8 * 8 := by
    split
    · exact .inr rfl
    · exact .inl rfl
  generalize (if fin % 8 ≠ 0 then fin / 8 * 8 else fin) = fin' at h hor
  split at h
  · split at h
    · cases h
    obtain ⟨rfl, rfl⟩ := Prod.mk.inj (some.inj h)
    exact ⟨⟨q.lastIn, fin', rfl, by omega, Int.le_refl _⟩, hor⟩
  · obtain ⟨rfl, rfl⟩ := Prod.mk.inj (some.inj h)
    exact ⟨⟨q.lastIn, q.len, rfl, Int.le_refl _, by omega⟩, hor⟩

theorem Queue.grow (h : Queue q l) {b : Bool} (hle : q.len ≤ len) :
    Queue { q with lastIn := b, len := len } l where
  chain := h.chain
  nodup := h.nodup
  tail := h.tail
  sorted := h.sorted.mono hle
  meat := h.meat

/-! ## The place of a fragment -/

/-- The fragments before an offset, and those behind it. -/
theorem Queue.split_at (h : Queue q l) (offset : ℤ) :
    ∃ l1 l2, l = l1 ++ l2 ∧ (∀ p ∈ l1, (q.skbs p).offset < offset) ∧
      ∀ p ∈ l2, offset ≤ (q.skbs p).offset := by
  have hst : l.Pairwise fun p p' => (q.skbs p).offset ≤ (q.skbs p').offset := by
    have hm := pairwise_map.1 h.sorted.apart
    refine hm.imp_of_mem ?_
    intro p p' hp _ hle
    have hlt := offset_lt_last (h.sorted.filled _ (mem_map_of_mem hp))
    omega
  clear h
  induction l with
  | nil => exact ⟨[], [], rfl, by simp, by simp⟩
  | cons p l ih =>
    obtain ⟨hp, hl⟩ := pairwise_cons.1 hst
    by_cases hlt : (q.skbs p).offset < offset
    · obtain ⟨l1, l2, rfl, h1, h2⟩ := ih hl
      exact ⟨p :: l1, l2, rfl, by simpa [hlt] using h1, h2⟩
    refine ⟨[], p :: l, rfl, by simp, ?_⟩
    intro p' hp'
    cases hp' with
    | head => omega
    | tail _ hp' =>
      have hle := hp p' hp'
      omega

/-- **The place of a fragment**: behind those that start before it. -/
theorem findPlace_eq (h : Queue q (l1 ++ l2))
    (h1 : ∀ p ∈ l1, (q.skbs p).offset < offset) (h2 : ∀ p ∈ l2, offset ≤ (q.skbs p).offset) :
    findPlace q offset = some (l1.getLast?, l2.head?) := by
  have htl := h.tail
  unfold findPlace
  cases hq : q.fragmentsTail with
  | none =>
    rw [hq] at htl
    have hn := append_eq_nil_iff.1 (getLast?_eq_none_iff.1 htl.symm)
    rw [hn.1, hn.2]
    rfl
  | some tail =>
    rw [hq] at htl
    simp only
    by_cases hlt : (q.skbs tail).offset < offset
    · have hn : l2 = [] := by
        rw [getLast?_append] at htl
        cases hla : l2.getLast? with
        | none => exact getLast?_eq_none_iff.1 hla
        | some p =>
          rw [hla] at htl
          have hp := h2 p (mem_of_getLast? hla)
          rw [← some.inj htl] at hp
          omega
      rw [if_pos hlt, htl, hn, append_nil]
      rfl
    · rw [if_neg hlt, walkTo_eq h.chain ?_ ?_ h.length_lt, or_none]
      · intro p hp
        have hlt := h1 p hp
        simpa using hlt
      · intro p hp
        simpa using h2 p (mem_of_head? hp)

/-! ## The overlap with the fragments behind -/

/-- The fragment is covered up to `fin`. -/
def Ipq.Covered (q : Ipq) (fin : ℤ) (p : Ptr) : Prop :=
  (q.skbs p).offset < fin ∧ (q.skbs p).last ≤ fin

/-- Fragments that are covered are dropped. -/
theorem eatLoop_drop (ok : Bool) (fuel : ℕ)
    (hchn : Chain q.next q.fragments (l1 ++ (d ++ l3)) none) (hnd : (l1 ++ (d ++ l3)).Nodup)
    (hd : ∀ p ∈ d, q.Covered fin p) : ∃ q', q' = { q with
        next := q'.next
        fragments := q'.fragments
        meat := q.meat - bytes (d.map q.skbs) } ∧
      Chain q'.next q'.fragments (l1 ++ l3) none ∧
      eatLoop fin ok l1.getLast? (d.length + fuel) q (d ++ l3).head? =
        eatLoop fin ok l1.getLast? fuel q' l3.head? := by
  induction d generalizing q with
  | nil =>
    refine ⟨q, by simp, hchn, ?_⟩
    rw [length_nil, Nat.zero_add]
    rfl
  | cons p d ih =>
    have hsl := hchn.split
    have hnd' : (l1 ++ (d ++ l3)).Nodup :=
      hnd.sublist (List.Sublist.append_left (sublist_cons_self p (d ++ l3)) l1)
    have hnx : q.next p = (d ++ l3).head? := hsl.2.2.head
    have hc := hd p mem_cons_self
    obtain ⟨q', hq', hchn', hlp⟩ :=
      ih (q := { q.link l1.getLast? (q.next p) with meat := q.meat - (q.skbs p).data.length })
        (hsl.1.splice hsl.2.2 hnd') hnd' (fun a ha => hd a (mem_cons_of_mem p ha))
    refine ⟨q', ?_, hchn', ?_⟩
    · rw [hq']
      simp [Ipq.link, Int.sub_sub]
    have hl : ¬ fin - (q.skbs p).offset < (q.skbs p).data.length := by
      have hla := hc.2
      unfold last at hla
      omega
    have hfl : (p :: d).length + fuel = (d.length + fuel) + 1 := by
      rw [length_cons]
      omega
    rw [← hlp, hfl]
    simp only [cons_append, head?_cons, eatLoop, if_pos hc.1, if_neg hl]
    rw [hnx]

/-- The queue while a fragment is to go in between `l1` and `l2`. -/
structure Opened (q : Ipq) (l1 l2 : List Ptr) : Prop where
  chain : Chain q.next q.fragments (l1 ++ l2) none
  nodup : (l1 ++ l2).Nodup
  tail : l2 ≠ [] → q.fragmentsTail = l2.getLast?
  sorted : Sorted q.len ((l1 ++ l2).map q.skbs)
  meat : q.meat = bytes ((l1 ++ l2).map q.skbs)

theorem Opened.queue (h : Opened q l1 l2) (hne : l2 ≠ []) : Queue q (l1 ++ l2) where
  chain := h.chain
  nodup := h.nodup
  tail := by
    rw [h.tail hne, getLast?_append_of_ne_nil _ hne]
  sorted := h.sorted
  meat := h.meat

theorem map_update_of_notMem {f : Ptr → Skb} (hp : p ∉ l) : l.map (update f p s) = l.map f := by
  refine map_congr_left fun a ha => ?_
  exact update_of_ne (ne_of_mem_of_not_mem ha hp) _ _

/-- What the loop can leave behind. -/
structure Eaten (q q' : Ipq) (l1 l2 : List Ptr) : Prop where
  opened : Opened q' l1 l2
  len : q'.len = q.len
  firstIn : q'.firstIn = q.firstIn
  lastIn : q'.lastIn = q.lastIn
  complete : q'.complete = q.complete
  kept : ∀ p ∈ l1 ++ l2, ∃ n ≤ (q.skbs p).data.length, q'.skbs p = (q.skbs p).cut n

/-- Where the last fragment before ends, all of them have ended. -/
theorem Eaten.front (h : Queue q (l1 ++ l3)) (hetn : Eaten q q' l1 l2)
    (hpv : ∀ p, l1.getLast? = some p → (q.skbs p).last ≤ offset) :
    ∀ s ∈ l1.map q'.skbs, s.last ≤ offset := by
  intro s hs
  obtain ⟨p, hp, rfl⟩ := mem_map.1 hs
  obtain ⟨n, hn, hc⟩ := hetn.kept p (mem_append_left _ hp)
  rw [hc, last_cut hn]
  have hpv' := hpv _ (getLast?_eq_some_getLast (ne_nil_of_mem hp))
  by_cases hla : p = l1.getLast (ne_nil_of_mem hp)
  · rw [hla]
    exact hpv'
  have hm := pairwise_map.1 h.sorted.apart
  have hmm : p ∈ l1.dropLast := by
    have hsl := dropLast_append_getLast (ne_nil_of_mem hp)
    rw [← hsl] at hp
    rcases mem_append.1 hp with hp | hp
    · exact hp
    · exact absurd (mem_singleton.1 hp) hla
  have hm1 := (pairwise_append.1 hm).1
  rw [← dropLast_append_getLast (ne_nil_of_mem hp)] at hm1
  have hle := (pairwise_append.1 hm1).2.2 p hmm _ mem_cons_self
  have hlt := offset_lt_last (h.sorted.filled (q.skbs (l1.getLast (ne_nil_of_mem hp)))
    (mem_map_of_mem (mem_append_left _ (getLast_mem _))))
  omega

theorem Eaten.of_drop (h : Queue q (l1 ++ (d ++ l2))) (hq : q' = { q with
      next := q'.next
      fragments := q'.fragments
      meat := q.meat - bytes (d.map q.skbs) })
    (hchn : Chain q'.next q'.fragments (l1 ++ l2) none) : Eaten q q' l1 l2 := by
  have hsub : (l1 ++ l2).Sublist (l1 ++ (d ++ l2)) :=
    List.Sublist.append_left (sublist_append_right d l2) l1
  have hsk : q'.skbs = q.skbs := by rw [hq]
  have hl : q'.len = q.len := by rw [hq]
  refine ⟨⟨hchn, h.nodup.sublist hsub, ?_, ?_, ?_⟩, hl, by rw [hq], by rw [hq], by rw [hq], ?_⟩
  · intro hne
    rw [hq]
    rw [h.tail, getLast?_append_of_ne_nil _ (by simp [hne]), getLast?_append_of_ne_nil _ hne]
  · rw [hsk, hl]
    exact h.sorted.sublist (hsub.map q.skbs)
  · rw [hq]
    rw [h.meat]
    simp only [map_append, bytes_append]
    omega
  · intro p _
    refine ⟨0, Nat.zero_le _, ?_⟩
    rw [hsk, cut_zero]

theorem Eaten.cut (h : Eaten q q' l1 (p :: l2)) (hsm : q'.skbs = q.skbs)
    (hn : n < (q.skbs p).data.length) : Eaten q { q' with
      skbs := update q'.skbs p ((q'.skbs p).cut n)
      meat := q'.meat - n } l1 (p :: l2) := by
  have hnd := nodup_append.1 h.opened.nodup
  have hp1 : p ∉ l1 := fun hp => hnd.2.2 p hp p mem_cons_self rfl
  have hp2 : p ∉ l2 := (nodup_cons.1 hnd.2.1).1
  have hm : (l1 ++ p :: l2).map (update q'.skbs p ((q'.skbs p).cut n)) =
      l1.map q'.skbs ++ (q'.skbs p).cut n :: l2.map q'.skbs := by
    rw [map_append, map_cons, update_self, map_update_of_notMem hp1, map_update_of_notMem hp2]
  have hold : (l1 ++ p :: l2).map q'.skbs = l1.map q'.skbs ++ q'.skbs p :: l2.map q'.skbs := by
    simp
  have hsr := h.opened.sorted
  rw [hold] at hsr
  rw [← hsm] at hn
  have hpm : q'.skbs p ∈ l1.map q'.skbs ++ q'.skbs p :: l2.map q'.skbs := by simp
  have happ := pairwise_append.1 hsr.apart
  refine ⟨⟨h.opened.chain, h.opened.nodup, h.opened.tail, ?_, ?_⟩, h.len, h.firstIn, h.lastIn,
    h.complete, ?_⟩
  · rw [hm]
    refine Sorted.insert (hsr.sublist ?_) ?_ ?_ ?_ ?_ ?_
    · exact List.Sublist.append_left (sublist_cons_self _ _) _
    · rw [Skb.cut, ne_eq, drop_eq_nil_iff]
      omega
    · have hst := hsr.start _ hpm
      simp only [Skb.cut]
      omega
    · rw [Skb.last_cut (by omega)]
      exact hsr.bound _ hpm
    · intro a ha
      have hle := happ.2.2 a ha _ mem_cons_self
      simp only [Skb.cut]
      omega
    · intro a ha
      rw [Skb.last_cut (by omega)]
      exact (pairwise_cons.1 happ.2.1).1 a ha
  · rw [hm, h.opened.meat, hold]
    simp only [bytes_append, bytes_cons, Skb.cut, length_drop]
    omega
  intro a ha
  simp only
  by_cases hap : a = p
  · rw [hap, update_self, hsm]
    exact ⟨n, by rw [hsm] at hn; omega, rfl⟩
  rw [update_of_ne hap]
  exact h.kept a ha

/-- A list up to the first element without a property. -/
theorem exists_split (C : Ptr → Prop) (l : List Ptr) :
    ∃ d l', l = d ++ l' ∧ (∀ p ∈ d, C p) ∧ ∀ p, l'.head? = some p → ¬ C p := by
  classical
  refine ⟨l.takeWhile (fun p => decide (C p)), l.dropWhile (fun p => decide (C p)),
    takeWhile_append_dropWhile.symm, ?_, ?_⟩
  · intro p hp
    have hC := mem_takeWhile_imp hp
    exact of_decide_eq_true hC
  intro p hp
  have hn := head?_dropWhile_not (fun p => decide (C p)) l
  rw [hp] at hn
  simpa using hn

/-- **The loop over the fragments behind**, in full. -/
theorem eatLoop_spec (ok : Bool) (h : Queue q (l1 ++ l2)) : ∃ l3 q' b, l3.Sublist l2 ∧
      eatLoop fin ok l1.getLast? (q.meat.toNat + 1) q l2.head? = some (q', l3.head?, b) ∧
      Eaten q q' l1 l3 ∧ (b = false → l3 ≠ []) ∧
      (b = true → ∀ p ∈ l3, fin ≤ (q'.skbs p).offset) := by
  obtain ⟨d, l3, rfl, hd, hhd⟩ := exists_split (q.Covered fin) l2
  obtain ⟨fuel, hfl⟩ : ∃ fuel, q.meat.toNat + 1 = d.length + (fuel + 1) := by
    have hl := h.length_lt
    simp only [length_append] at hl
    exact ⟨q.meat.toNat - d.length, by omega⟩
  obtain ⟨q', hq', hchn, hlp⟩ := eatLoop_drop ok (fuel + 1) h.chain h.nodup hd
  rw [hfl]
  have hetn := Eaten.of_drop h hq' hchn
  have hsm : q'.skbs = q.skbs := by rw [hq']
  rw [hlp]
  have hsub : l3.Sublist (d ++ l3) := sublist_append_right d l3
  cases l3 with
  | nil => exact ⟨[], q', true, hsub, rfl, hetn, by simp, by simp⟩
  | cons p l3 =>
    have hrs {q'' : Ipq} (he : Eaten q q'' l1 (p :: l3)) (hp : fin ≤ (q''.skbs p).offset) :
        ∀ a ∈ p :: l3, fin ≤ (q''.skbs a).offset := by
      intro a ha
      cases ha with
      | head => exact hp
      | tail _ ha =>
        have hm := pairwise_map.1 he.opened.sorted.apart
        have hle := (pairwise_cons.1 (pairwise_append.1 hm).2.1).1 a ha
        have hlt := offset_lt_last (he.opened.sorted.filled (q''.skbs p) (mem_map_of_mem (by simp)))
        omega
    by_cases hov : (q'.skbs p).offset < fin
    · have hla : fin < (q.skbs p).last := by
        have hnt := hhd p rfl
        unfold Ipq.Covered at hnt
        rw [hsm] at hov
        omega
      have hi : fin - (q'.skbs p).offset < (q'.skbs p).data.length := by
        rw [hsm]
        unfold last at hla
        omega
      have hn : (fin - (q'.skbs p).offset).toNat < (q.skbs p).data.length := by
        rw [hsm] at hi hov ⊢
        omega
      simp only [head?_cons, eatLoop, if_pos hov, if_pos hi]
      cases ok with
      | false =>
        rw [pskbPull_false]
        exact ⟨p :: l3, q', false, hsub, rfl, hetn, by simp, by simp⟩
      | true =>
        have hc := hetn.cut hsm hn
        rw [pskbPull_true (by omega)]
        have hcs : ((fin - (q'.skbs p).offset).toNat : ℤ) = fin - (q'.skbs p).offset :=
          Int.toNat_of_nonneg (by omega)
        have heq : ({ (q'.skbs p).cut (fin - (q'.skbs p).offset).toNat with
            offset := (q'.skbs p).offset + (fin - (q'.skbs p).offset) } : Skb) =
            (q'.skbs p).cut (fin - (q'.skbs p).offset).toNat := by
          simp [cut, hcs]
        rw [hcs] at hc
        simp only [heq]
        refine ⟨p :: l3, _, true, hsub, rfl, hc, by simp, fun _ => hrs hc ?_⟩
        simp only [update_self, cut]
        omega
    · simp only [head?_cons, eatLoop, if_neg hov]
      exact ⟨p :: l3, q', true, hsub, rfl, hetn, by simp, fun _ => hrs hetn (by omega)⟩

/-! ## Insertion -/

/-- **The fragment goes in.** -/
theorem Opened.insert (h : Opened q l1 l2) (hskb : skb ∉ l1 ++ l2)
    (hst : Sorted q.len (l1.map q.skbs ++ s :: l2.map q.skbs)) :
    Queue (insertFrag q skb s l1.getLast? l2.head?) (l1 ++ skb :: l2) ∧
      (l1 ++ skb :: l2).map (insertFrag q skb s l1.getLast? l2.head?).skbs =
        l1.map q.skbs ++ s :: l2.map q.skbs := by
  have hskb1 : skb ∉ l1 := fun hm => hskb (mem_append_left _ hm)
  have hskb2 : skb ∉ l2 := fun hm => hskb (mem_append_right _ hm)
  have hmp : (l1 ++ skb :: l2).map (insertFrag q skb s l1.getLast? l2.head?).skbs =
      l1.map q.skbs ++ s :: l2.map q.skbs := by
    simp only [insertFrag, Ipq.link, map_append, map_cons, update_self]
    rw [map_update_of_notMem hskb1, map_update_of_notMem hskb2]
  have hnd : (l1 ++ skb :: l2).Nodup :=
    nodup_middle.2 (nodup_cons.2 ⟨hskb, h.nodup⟩)
  refine ⟨⟨?_, hnd, ?_, ?_, ?_⟩, hmp⟩
  · have hsl := h.chain.split
    have h2 : Chain (update q.next skb l2.head?) (some skb) (skb :: l2) none := by
      refine ⟨rfl, ?_⟩
      rw [update_self]
      exact hsl.2.update hskb2
    exact (hsl.1.update hskb1).splice h2 hnd
  · rw [getLast?_append_of_ne_nil _ (by simp)]
    simp only [insertFrag]
    cases hl : l2 with
    | nil => rfl
    | cons p l =>
      rw [← hl, h.tail (by simp [hl]), hl]
      rfl
  · rw [hmp]
    exact hst
  rw [hmp]
  simp only [insertFrag, Ipq.link]
  rw [h.meat]
  simp only [map_append, bytes_append, bytes_cons]
  omega

/-- The overlap with the fragment before is cut off, or the fragment is rejected. -/
theorem cutPrev_spec (ok : Bool) (hla : offset + s.data.length = fin) (hlt : offset < fin) :
    (∃ r, cutPrev q prev s offset fin ok = .error r ∧ (r = .einval ∨ r = .enomem)) ∨
      ∃ n < s.data.length, cutPrev q prev s offset fin ok =
          .ok ({ s.cut n with offset := s.offset }, offset + n) ∧
        ∀ p, prev = some p → (q.skbs p).last ≤ offset + n := by
  have hp : 0 < s.data.length := by omega
  have hz : ({ s.cut 0 with offset := s.offset } : Skb) = s := by simp
  cases prev with
  | none =>
    refine .inr ⟨0, hp, ?_, by simp⟩
    simp [cutPrev]
  | some p =>
    simp only [cutPrev]
    by_cases hi : 0 < (q.skbs p).last - offset
    · rw [if_pos hi]
      by_cases hfin : fin ≤ offset + ((q.skbs p).last - offset)
      · rw [if_pos hfin]
        exact .inl ⟨.einval, rfl, Or.inl rfl⟩
      rw [if_neg hfin]
      have hcs : (((q.skbs p).last - offset).toNat : ℤ) = (q.skbs p).last - offset :=
        Int.toNat_of_nonneg (by omega)
      have hn : ((q.skbs p).last - offset).toNat < s.data.length := by omega
      cases ok with
      | false => exact .inl ⟨.enomem, by rw [pskbPull_false], Or.inr rfl⟩
      | true =>
        refine .inr ⟨((q.skbs p).last - offset).toNat, hn, ?_, ?_⟩
        · rw [pskbPull_true (by omega), hcs]
        intro p' hp'
        rw [← some.inj hp']
        omega
    · rw [if_neg hi]
      refine .inr ⟨0, hp, ?_, ?_⟩
      · simp
      intro p' hp'
      rw [← some.inj hp']
      omega

/-- A fragment that is not rejected goes in, and may complete the datagram. -/
theorem linkFrag_eq (skb : Ptr) {next next' : Option Ptr} {offset' : ℤ}
    (hc : cutPrev q prev s offset fin al.pullPrev = .ok (s', offset'))
    (heat : eatLoop fin al.pullNext prev (q.meat.toNat + 1) q next = some (q', next', true))
    {q2 : Ipq}
    (hq : insertFrag q' skb { s' with offset := offset' } prev next' = q2) :
    linkFrag q skb s prev next offset fin al =
      if q2.firstIn = true ∧ q2.lastIn = true ∧ q2.meat = q2.len then ipFragReasm q2 prev al
      else some (q2, .inprogress) := by
  unfold linkFrag
  rw [hc, ← hq]
  rw [heat]

/-! ## Gluing -/

/-- **The head is swapped**: the chain has other buffers, and they hold the same. -/
theorem Queue.swapped {first fp : Ptr} (h : Queue q (first :: l1 ++ skb :: l2))
    (hfp : fp ∉ first :: l1 ++ skb :: l2) {prev : Ptr} (hpv : (first :: l1).getLast? = some prev) :
    ∃ q', swapHead q prev fp = some q' ∧ Queue q' (skb :: l1 ++ fp :: l2) ∧
      (skb :: l1 ++ fp :: l2).map q'.skbs = (first :: l1 ++ skb :: l2).map q.skbs ∧
      q'.len = q.len ∧ q'.meat = q.meat ∧ q'.complete = q.complete := by
  have hsl := h.chain.split
  have hf : q.fragments = some first := h.chain.1
  have hskb : q.next skb = l2.head? := hsl.2.2.head
  have hnx : q.next prev = some skb := hsl.1.next_getLast hpv
  have hnd := h.nodup
  have hskb1 : skb ∉ first :: l1 := fun hm =>
    (nodup_append.1 hnd).2.2 skb hm skb mem_cons_self rfl
  have hskb2 : skb ∉ l2 := (nodup_cons.1 (nodup_append.1 hnd).2.1).1
  have hfp1 : fp ∉ first :: l1 := fun hm => hfp (mem_append_left _ hm)
  have hfp2 : fp ∉ skb :: l2 := fun hm => hfp (mem_append_right _ hm)
  have hfb : skb ≠ fp := fun heq => hfp2 (heq ▸ mem_cons_self)
  have hsub : (first :: l1 ++ l2).Nodup :=
    hnd.sublist (List.Sublist.append_left (sublist_cons_self skb l2) _)
  have hnd1 : (first :: l1 ++ fp :: l2).Nodup :=
    nodup_middle.2 (nodup_cons.2 ⟨by
      rw [mem_append, not_or]
      exact ⟨hfp1, fun hm => hfp2 (mem_cons_of_mem _ hm)⟩, hsub⟩)
  have hskb3 : skb ∉ l1 ++ fp :: l2 := by
    rw [mem_append, mem_cons, not_or, not_or]
    exact ⟨fun hm => hskb1 (mem_cons_of_mem _ hm), hfb, hskb2⟩
  -- the clone is linked in, and then the buffer takes the place of the first one
  have hcl : Chain (update q.next fp (q.next skb)) (some fp) (fp :: l2) none := by
    refine ⟨rfl, ?_⟩
    rw [update_self, hskb]
    exact hsl.2.2.head ▸ hsl.2.2.update fun hm => hfp2 (mem_cons_of_mem _ hm)
  have hlnk := (hsl.1.update hfp1).splice hcl hnd1
  rw [hpv] at hlnk
  have hsw : ∃ q', swapHead q prev fp = some q' := by
    simp [swapHead, hnx, hf]
  obtain ⟨q', hq'⟩ := hsw
  have hsta := hq'
  simp only [swapHead, hnx, hf, some.injEq] at hsta
  have hsk : q'.skbs = update (update q.skbs fp (q.skbs skb)) skb
      (update q.skbs fp (q.skbs skb) first) := by rw [← hsta]
  have hln : q'.next = update (update (update q.next fp (q.next skb)) prev (some fp)) skb
      (update (update q.next fp (q.next skb)) prev (some fp) first) := by rw [← hsta]
  have hmp : (skb :: l1 ++ fp :: l2).map q'.skbs = (first :: l1 ++ skb :: l2).map q.skbs := by
    have hfr : first ≠ fp := fun heq => hfp1 (heq ▸ mem_cons_self)
    have hfp3 : fp ∉ l1 := fun hm => hfp1 (mem_cons_of_mem _ hm)
    have hfp4 : fp ∉ l2 := fun hm => hfp2 (mem_cons_of_mem _ hm)
    rw [hsk, cons_append, map_cons, map_update_of_notMem hskb3, map_append, map_cons,
      map_update_of_notMem hfp3, map_update_of_notMem hfp4,
      update_of_ne hfr]
    simp
  refine ⟨q', hq', ⟨?_, ?_, ?_, ?_, ?_⟩, hmp, by rw [← hsta], by rw [← hsta], by rw [← hsta]⟩
  · refine ⟨by rw [← hsta], ?_⟩
    rw [hln, update_self]
    exact hlnk.2.update hskb3
  · exact nodup_cons.2 ⟨hskb3, (nodup_cons.1 hnd1).2⟩
  · rw [← hsta, getLast?_append_of_ne_nil _ (by simp)]
    rw [hskb, h.tail, getLast?_append_of_ne_nil _ (by simp)]
    cases l2 <;> rfl
  · rw [hmp, ← hsta]
    exact h.sorted
  rw [hmp, ← hsta]
  exact h.meat

theorem glueLoop_eq {start : Option Ptr} {fuel : ℕ} (h : Chain q.next start l none)
    (hfl : l.length < fuel) : glueLoop q fuel start = some ((l.map q.skbs).map data).flatten := by
  induction l generalizing start fuel with
  | nil =>
    cases fuel with
    | zero => omega
    | succ fuel =>
      rw [show start = none from h]
      rfl
  | cons p l ih =>
    cases fuel with
    | zero => omega
    | succ fuel =>
      rw [length_cons] at hfl
      rw [h.1]
      simp only [glueLoop]
      rw [ih h.2 (by omega)]
      rfl

/-- **The fragments are glued together**, unless the datagram is too long or there is no
memory. -/
theorem Queue.glue_eq (h : Queue q l) (hF : l.map q.skbs = f :: F) (al : Allocs) : glue q al =
      if (ipHdrlen f.packet + q.len : ℤ) > 65535 then some (q, .e2big) else if al.expandHead then
        some ({ q with fragments := none, fragmentsTail := none },
          .done (setIpHdr (f.headroom ++ ((f :: F).map data).flatten)
            (BitVec.ofInt 16 (ipHdrlen f.packet + q.len))))
      else some (q, .enomem) := by
  cases l with
  | nil => cases hF
  | cons first l =>
    obtain ⟨rfl, rfl⟩ := cons.inj hF
    have hf : q.fragments = some first := h.chain.1
    have hl := h.length_lt
    rw [length_cons] at hl
    have hrs : glueLoop q (q.meat.toNat + 1) (q.next first) = some _ :=
      glueLoop_eq h.chain.2 (by omega)
    unfold glue
    rw [hf]
    simp only [hrs]
    split
    · rfl
    split
    · simp [packet]
    · rfl

/-- **The gluing**, from the queue with the last fragment in it. -/
theorem Queue.reasm (h : Queue q (l1 ++ skb :: l2)) (hF : (l1 ++ skb :: l2).map q.skbs = f :: F)
    (hfp : ∀ fp, al.clone = some fp → fp ∉ l1 ++ skb :: l2) :
    ∃ q' l', Queue q' l' ∧ l'.map q'.skbs = f :: F ∧ q'.len = q.len ∧ q'.complete = true ∧
      ipFragReasm q l1.getLast? al = if l1 ≠ [] ∧ al.clone = none then some (q', .enomem)
        else if (ipHdrlen f.packet + q.len : ℤ) > 65535 then some (q', .e2big)
        else if al.expandHead then some ({ q' with fragments := none, fragmentsTail := none },
            .done (setIpHdr (f.headroom ++ ((f :: F).map data).flatten)
              (BitVec.ofInt 16 (ipHdrlen f.packet + q.len))))
        else some (q', .enomem) := by
  have hkl : Queue { q with complete := true } (l1 ++ skb :: l2) :=
    ⟨h.chain, h.nodup, h.tail, h.sorted, h.meat⟩
  unfold ipFragReasm
  cases l1 with
  | nil =>
    refine ⟨_, _, hkl, hF, rfl, rfl, ?_⟩
    exact hkl.glue_eq hF al
  | cons first l1 =>
    have hpv := getLast?_eq_some_getLast (cons_ne_nil first l1)
    rw [hpv]
    cases hcl : al.clone with
    | none =>
      refine ⟨_, _, hkl, hF, rfl, rfl, ?_⟩
      rw [if_pos (by simp)]
    | some fp =>
      obtain ⟨q', hsw, hq', hm, hl, _, hcm⟩ :=
        hkl.swapped (hfp fp hcl) hpv
      refine ⟨q', _, hq', hm.trans hF, hl, hcm, ?_⟩
      rw [if_neg (by simp)]
      simp only [hsw, bind_some]
      rw [hq'.glue_eq (hm.trans hF) al, hl]

end NestLinux.IpFragment
