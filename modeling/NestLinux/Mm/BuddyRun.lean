import NestLinux.Mm.Buddy
import NestLinux.Lib.Dyadic
import Mathlib.Algebra.BigOperators.Group.Finset.Piecewise

/-!
# Runs of the buddy allocator

The lists hold the free blocks, and the fields of the pages say which they are: so the test for
a free buddy is right, and each operation takes blocks out of the set of free blocks and puts
blocks into it.
-/

namespace NestLinux.Buddy

open Lib Function Finset

def Zone.blocks (z : Zone) : Set (ℕ × ℕ) := {b | ∃ type, b.1 ∈ z.freeList b.2 type}

/-- The lists hold each block once, the counters count them, and the pages of the zone know
which of them are first in a block, and of which order. -/
structure Listed (inZone : ℕ → Prop) (z : Zone) : Prop where
  once : ∀ {p o o' : ℕ} {t t' : MigrateType}, p ∈ z.freeList o t → p ∈ z.freeList o' t' →
    o = o' ∧ t = t'
  nodup : ∀ o t, (z.freeList o t).Nodup
  nrFree : ∀ o, z.nrFree o = ∑ t, ((z.freeList o t).length : ℤ)
  flag : ∀ p, inZone p → (z.pageBuddy p = true ↔ ∃ o t, p ∈ z.freeList o t)
  order : ∀ {p o : ℕ} {t : MigrateType}, p ∈ z.freeList o t → z.pagePrivate p = o
  inZone : ∀ {p o : ℕ} {t : MigrateType}, p ∈ z.freeList o t → inZone p

variable {inZone : ℕ → Prop} {z z' : Zone} {p o x : ℕ} {t : MigrateType}

theorem mem_blocks : (p, o) ∈ z.blocks ↔ ∃ t, p ∈ z.freeList o t := Iff.rfl

/-! ### A block joins or leaves the lists -/

/-- A change of the zone that puts the block at `p` on the list of its order and type. -/
structure Link (z : Zone) (p o : ℕ) (t : MigrateType) (z' : Zone) : Prop where
  list : (z'.freeList o t).Perm (p :: z.freeList o t)
  others : ∀ o' t', ¬ (o' = o ∧ t' = t) → z'.freeList o' t' = z.freeList o' t'
  nrFree : z'.nrFree = update z.nrFree o (z.nrFree o + 1)
  flag : z'.pageBuddy = update z.pageBuddy p true
  order : z'.pagePrivate = update z.pagePrivate p o

theorem Link.mem_iff (h : Link z p o t z') {o' : ℕ} {t' : MigrateType} :
    x ∈ z'.freeList o' t' ↔ x = p ∧ o' = o ∧ t' = t ∨ x ∈ z.freeList o' t' := by
  by_cases heq : o' = o ∧ t' = t
  · obtain ⟨rfl, rfl⟩ := heq
    rw [h.list.mem_iff]
    simp
  · rw [h.others o' t' heq]
    simp [heq]

theorem Link.blocks_eq (h : Link z p o t z') : z'.blocks = insert (p, o) z.blocks := by
  ext ⟨q, k⟩
  rw [Set.mem_insert_iff, Prod.mk.injEq]
  constructor
  · rintro ⟨t', ht'⟩
    rcases h.mem_iff.1 ht' with ⟨hq, hk, _⟩ | hm
    · exact .inl ⟨hq, hk⟩
    · exact .inr ⟨t', hm⟩
  · rintro (⟨rfl, rfl⟩ | ⟨t', ht'⟩)
    · exact ⟨t, h.mem_iff.2 (.inl ⟨rfl, rfl, rfl⟩)⟩
    · exact ⟨t', h.mem_iff.2 (.inr ht')⟩

/-- The lists stay in order when a new block joins them. -/
theorem Listed.link (h : Listed inZone z) (hlk : Link z p o t z') (hp : inZone p)
    (hn : ∀ o' t', p ∉ z.freeList o' t') : Listed inZone z' where
  once := by
    intro q k k' s s' hq hq'
    rcases hlk.mem_iff.1 hq with ⟨rfl, rfl, rfl⟩ | hq
    · rcases hlk.mem_iff.1 hq' with ⟨_, rfl, rfl⟩ | hq'
      · exact ⟨rfl, rfl⟩
      · exact absurd hq' (hn _ _)
    rcases hlk.mem_iff.1 hq' with ⟨rfl, _, _⟩ | hq'
    · exact absurd hq (hn _ _)
    · exact h.once hq hq'
  nodup := by
    intro k s
    by_cases heq : k = o ∧ s = t
    · obtain ⟨rfl, rfl⟩ := heq
      exact hlk.list.nodup_iff.2 (List.nodup_cons.2 ⟨hn _ _, h.nodup _ _⟩)
    rw [hlk.others k s heq]
    exact h.nodup k s
  nrFree := by
    intro k
    rw [hlk.nrFree]
    by_cases hk : k = o
    · subst hk
      rw [update_self, h.nrFree, ← add_sum_erase _ _ (mem_univ t),
        ← add_sum_erase univ (fun s => ((z'.freeList k s).length : ℤ))
          (mem_univ t), hlk.list.length_eq, List.length_cons]
      have hrs : ∑ s ∈ univ.erase t, ((z'.freeList k s).length : ℤ) =
          ∑ s ∈ univ.erase t, ((z.freeList k s).length : ℤ) := by
        refine sum_congr rfl fun s hs => ?_
        rw [hlk.others k s fun heq => ne_of_mem_erase hs heq.2]
      omega
    · rw [update_of_ne hk, h.nrFree]
      refine sum_congr rfl fun s _ => ?_
      rw [hlk.others k s fun heq => hk heq.1]
  flag := by
    intro q hq
    rw [hlk.flag]
    by_cases heq : q = p
    · subst heq
      rw [update_self]
      exact ⟨fun _ => ⟨o, t, hlk.mem_iff.2 (.inl ⟨rfl, rfl, rfl⟩)⟩, fun _ => rfl⟩
    · rw [update_of_ne heq, h.flag q hq]
      simp [hlk.mem_iff, heq]
  order := by
    intro q k s hq
    rw [hlk.order]
    rcases hlk.mem_iff.1 hq with ⟨rfl, rfl, _⟩ | hq
    · exact update_self ..
    have hne : q ≠ p := fun heq => hn _ _ (heq ▸ hq)
    rw [update_of_ne hne, h.order hq]
  inZone := by
    intro q k s hq
    rcases hlk.mem_iff.1 hq with ⟨rfl, _, _⟩ | hq
    · exact hp
    · exact h.inZone hq

/-- Taking a block from its list. -/
def unlink (z : Zone) (p o : ℕ) : Zone := rmvPageOrder (addNrFree (listDel z p) o (-1)) p

theorem mem_unlink {k q o' : ℕ} {s : MigrateType} :
    q ∈ (unlink z p o').freeList k s ↔ q ∈ z.freeList k s ∧ q ≠ p := by
  simp [unlink, rmvPageOrder, addNrFree, listDel]

theorem length_filter_ne {l : List ℕ} (h : l.Nodup) (hp : p ∈ l) :
    ((l.filter fun q => q ≠ p).length : ℤ) = l.length - 1 := by
  have her : (l.filter fun q => q ≠ p) = l.erase p := by
    rw [h.erase_eq_filter p]
    refine List.filter_congr fun q _ => ?_
    by_cases hq : q = p <;> simp [hq]
  rw [her, List.length_erase_of_mem hp]
  have := List.length_pos_of_mem hp
  omega

/-- The lists stay in order when a block leaves them. -/
theorem Listed.unlink (h : Listed inZone z) (hp : p ∈ z.freeList o t) :
    Listed inZone (unlink z p o) where
  once hq hq' := h.once (mem_unlink.1 hq).1 (mem_unlink.1 hq').1
  nodup k s := (h.nodup k s).filter _
  nrFree := by
    have ho (k : ℕ) (s : MigrateType) (hne : ¬ (k = o ∧ s = t)) :
        (z.freeList k s).filter (fun q => q ≠ p) = z.freeList k s := by
      refine List.filter_eq_self.2 fun q hq => decide_eq_true ?_
      rintro rfl
      exact hne (h.once hq hp)
    intro k
    change update z.nrFree o (z.nrFree o + -1) k =
      ∑ s, (((z.freeList k s).filter fun q => q ≠ p).length : ℤ)
    by_cases hk : k = o
    · subst hk
      rw [update_self, h.nrFree, ← add_sum_erase _ _ (mem_univ t), ← add_sum_erase univ
          (fun s => (((z.freeList k s).filter fun q => q ≠ p).length : ℤ)) (mem_univ t),
        length_filter_ne (h.nodup k t) hp]
      have hrs : ∑ s ∈ univ.erase t, (((z.freeList k s).filter fun q => q ≠ p).length : ℤ) =
            ∑ s ∈ univ.erase t, ((z.freeList k s).length : ℤ) := by
        refine sum_congr rfl fun s hs => ?_
        rw [ho k s fun heq => ne_of_mem_erase hs heq.2]
      omega
    · rw [update_of_ne hk, h.nrFree]
      refine sum_congr rfl fun s _ => ?_
      rw [ho k s fun heq => hk heq.1]
  flag := by
    intro q hq
    change update z.pageBuddy p false q = true ↔ _
    by_cases heq : q = p
    · subst heq
      simp [mem_unlink]
    rw [update_of_ne heq, h.flag q hq]
    simp [mem_unlink, heq]
  order := by
    intro q k s hq
    rw [mem_unlink] at hq
    change update z.pagePrivate p 0 q = k
    rw [update_of_ne hq.2, h.order hq.1]
  inZone hq := h.inZone (mem_unlink.1 hq).1

theorem Listed.blocks_unlink (h : Listed inZone z) (hp : p ∈ z.freeList o t) :
    (Buddy.unlink z p o).blocks = z.blocks \ {(p, o)} := by
  ext ⟨q, k⟩
  simp only [Set.mem_sdiff, Set.mem_singleton_iff, mem_blocks, mem_unlink, Prod.mk.injEq]
  constructor
  · rintro ⟨s, hq, hne⟩
    exact ⟨⟨s, hq⟩, fun heq => hne heq.1⟩
  rintro ⟨⟨s, hq⟩, hne⟩
  refine ⟨s, hq, ?_⟩
  rintro rfl
  exact hne ⟨rfl, (h.once hq hp).1⟩

/-! ### The zone between and within the operations -/

/-- The frame is one of the zone. -/
def MemMap.InZone (mem : MemMap) (zone p : ℕ) : Prop :=
  mem.pfnValidWithin p = true ∧ mem.pageZoneId p = zone

section Operations

variable {M zone : ℕ} {mem : MemMap} {F : Set ℕ}

/-- The zone between the operations: the pages `F` are free. -/
structure Idle (maxOrder zone : ℕ) (mem : MemMap) (z : Zone) (F : Set ℕ) : Prop where
  listed : Listed (mem.InZone zone) z
  free : FreeBlocks maxOrder z.blocks
  covered_eq : covered z.blocks = F
  inZone : ∀ x ∈ F, mem.InZone zone x

/-- The zone within an operation: of the pages `F`, those of one block are not on the lists. -/
structure Busy (maxOrder zone : ℕ) (mem : MemMap) (z : Zone) (p o : ℕ) (F : Set ℕ) : Prop where
  listed : Listed (mem.InZone zone) z
  hand : InHand maxOrder z.blocks p o F
  inZone : ∀ x ∈ F, mem.InZone zone x

section

variable (h : Busy M zone mem z p o F)

include h

theorem Busy.cells_subset : cells p o ⊆ F := by
  rw [← h.hand.union]
  exact Set.subset_union_right

theorem Busy.not_listed (hx : x ∈ cells p o) (k : ℕ) (s : MigrateType) : x ∉ z.freeList k s :=
  fun hm => h.hand.not_mem (b := (x, k)) hx ⟨s, hm⟩

omit h in
/-- **The test for a free buddy** is right. -/
theorem pageIsBuddy_iff {buddy : ℕ} (h : Listed (mem.InZone zone) z) (hp : mem.InZone zone p) :
    pageIsBuddy mem z p buddy o = true ↔ (buddy, o) ∈ z.blocks := by
  constructor
  · intro hbud
    simp only [pageIsBuddy, ite_not] at hbud
    split at hbud
    · cases hbud
    rename_i hv
    split at hbud
    · rename_i hsm
      rw [Bool.and_eq_true, beq_iff_eq] at hbud
      have hin : mem.InZone zone buddy := ⟨by simpa using hv, hsm ▸ hp.2⟩
      obtain ⟨k, s, hm⟩ := (h.flag buddy hin).1 hbud.1
      rw [← hbud.2, h.order hm]
      exact ⟨s, hm⟩
    · cases hbud
  · rintro ⟨s, hm⟩
    have hin := h.inZone hm
    simp [pageIsBuddy, hin.1, hin.2, hp.2, h.order hm, (h.flag buddy hin).2 ⟨o, s, hm⟩]

omit h in
theorem Idle.take (h : Idle M zone mem z F) (hp : p ∈ z.freeList o t) :
    Busy M zone mem (unlink z p o) p o F where
  listed := h.listed.unlink hp
  hand := by
    rw [h.listed.blocks_unlink hp, ← h.covered_eq]
    exact h.free.take ⟨t, hp⟩
  inZone := h.inZone

theorem Busy.merge (ho : o + 1 < M) (hbud : (p ^^^ 2 ^ o, o) ∈ z.blocks) :
    Busy M zone mem (unlink z (p ^^^ 2 ^ o) o) (Nat.ldiff p (2 ^ o)) (o + 1) F := by
  obtain ⟨t, ht⟩ := hbud
  refine ⟨h.listed.unlink ht, ?_, h.inZone⟩
  rw [h.listed.blocks_unlink ht]
  exact h.hand.merge ho ⟨t, ht⟩

theorem Busy.put (hbud : o + 1 < M → (p ^^^ 2 ^ o, o) ∉ z.blocks)
    (hlk : Link z p o t z') : Idle M zone mem z' F := by
  obtain ⟨hfe, hc⟩ := h.hand.put hbud
  have hp := h.inZone p (h.cells_subset (self_mem_cells))
  refine ⟨h.listed.link hlk hp (h.not_listed (self_mem_cells)), ?_, ?_, h.inZone⟩
  · rw [hlk.blocks_eq]
    exact hfe
  rw [hlk.blocks_eq]
  exact hc

end

theorem Busy.split (h : Busy M zone mem z p (o + 1) F) (hlk : Link z (p + 2 ^ o) o t z') :
    Busy M zone mem z' p o F := by
  have hm : p + 2 ^ o ∈ cells p (o + 1) := by
    rw [mem_cells]
    have := Nat.two_pow_pos o
    omega
  refine ⟨h.listed.link hlk (h.inZone _ (h.cells_subset hm)) (h.not_listed hm), ?_, h.inZone⟩
  rw [hlk.blocks_eq]
  exact h.hand.split

/-! ### Freeing -/

/-- **The loop of `__free_one_page`** takes free buddies from the lists, until there is none. -/
theorem mergeLoop_spec (fuel : ℕ) (s : Merge) (h : Busy M zone mem s.zone s.page s.order F)
    (hidx : s.pageIdx = s.page % 2 ^ M) (hfl : M ≤ s.order + fuel) :
    let s' := mergeLoop M mem fuel s
    Busy M zone mem s'.zone s'.page s'.order F ∧
      (s'.order + 1 < M → (s'.page ^^^ 2 ^ s'.order, s'.order) ∉ s'.zone.blocks) := by
  induction fuel generalizing s with
  | zero =>
    have := h.hand.lt
    omega
  | succ fuel ih =>
    have hlt := h.hand.lt
    have hpg := h.inZone s.page (h.cells_subset (self_mem_cells))
    have hbud : pageFindBuddy s.page s.pageIdx s.order = s.page ^^^ 2 ^ s.order := by
      rw [pageFindBuddy, hidx, Nat.one_shiftLeft]
      exact add_xor_sub h.hand.dvd hlt
    rw [mergeLoop]
    simp only [hbud]
    split
    · split
      · rename_i hn
        refine ⟨h, fun _ hm => ?_⟩
        rw [(pageIsBuddy_iff h.listed hpg).2 hm] at hn
        cases hn
      rename_i hfe
      rw [Bool.not_eq_true, Bool.not_eq_false'] at hfe
      refine ih _ ?_ ?_ ?_
      · have hcm : s.page + findCombinedIndex s.pageIdx s.order - s.pageIdx =
            Nat.ldiff s.page (2 ^ s.order) := by
          rw [findCombinedIndex, hidx, Nat.one_shiftLeft]
          exact add_ldiff_sub h.hand.dvd hlt
        simp only [hcm]
        exact h.merge (by omega) ((pageIsBuddy_iff h.listed hpg).1 hfe)
      · simp only [findCombinedIndex, hidx, Nat.one_shiftLeft]
        rw [add_ldiff_sub h.hand.dvd hlt, ldiff_mod]
      simp only
      omega
    · exact ⟨h, fun ho => by omega⟩

theorem updateList_self (l : List ℕ) : (updateList z o t l).freeList o t = l := by
  simp [updateList]

theorem updateList_of_ne {l : List ℕ} {o' : ℕ} {t' : MigrateType} (h : ¬ (o' = o ∧ t' = t)) :
    (updateList z o t l).freeList o' t' = z.freeList o' t' := by
  by_cases ho : o' = o
  · subst ho
    have ht : t' ≠ t := fun ht => h ⟨rfl, ht⟩
    simp [updateList, ht]
  · simp [updateList, ho]

theorem link_of_perm {l : List ℕ} (hpr : l.Perm (p :: z.freeList o t))
    (hli : z'.freeList = (updateList z o t l).freeList)
    (hnr : z'.nrFree = update z.nrFree o (z.nrFree o + 1))
    (hfl : z'.pageBuddy = update z.pageBuddy p true)
    (hord : z'.pagePrivate = update z.pagePrivate p o) : Link z p o t z' where
  list := by
    rw [hli, updateList_self]
    exact hpr
  others o' t' hne := by
    rw [hli]
    exact updateList_of_ne hne
  nrFree := hnr
  flag := hfl
  order := hord

/-- **`__free_one_page`** makes the pages of the block free. -/
theorem Idle.freeOnePage (h : Idle M zone mem z F) (ho : o < M) (hd : 2 ^ o ∣ p)
    (hin : ∀ x ∈ cells p o, mem.InZone zone x) (hn : Disjoint (cells p o) F) :
    Idle M zone mem (freeOnePage M mem z p o t) (F ∪ cells p o) := by
  have hbs : Busy M zone mem z p o (F ∪ cells p o) := by
    refine ⟨h.listed, ⟨h.free, ho, hd, ?_, ?_⟩, ?_⟩
    · rw [h.covered_eq]
      exact hn
    · rw [h.covered_eq]
    rintro x (hx | hx)
    · exact h.inZone x hx
    · exact hin x hx
  have hidx : p &&& (1 <<< M - 1) = p % 2 ^ M := by
    rw [Nat.one_shiftLeft, Nat.and_two_pow_sub_one_eq_mod]
  obtain ⟨hlp, hla⟩ :=
    mergeLoop_spec M ⟨p, p &&& (1 <<< M - 1), o, none, z⟩ hbs hidx (by simp)
  refine hlp.put (t := t) hla ?_
  rw [Buddy.freeOnePage]
  split
  · exact link_of_perm (List.perm_append_singleton _ _) rfl rfl rfl rfl
  · exact link_of_perm (List.Perm.refl _) rfl rfl rfl rfl

/-! ### Allocating -/

/-- **`expand`** gives back the upper halves. -/
theorem Busy.expand (h : Busy M zone mem z p o F) {low size : ℕ} (hl : low ≤ o)
    (hsz : size = 2 ^ o) : Busy M zone mem (expand p low t o size z) p low F := by
  induction o generalizing z size with
  | zero =>
    rw [Nat.le_zero.1 hl]
    exact h
  | succ high ih =>
    rw [Buddy.expand]
    split
    · have hhl : size >>> 1 = 2 ^ high := by
        omega
      simp only [hhl]
      refine ih (h.split (t := t) ?_) (by omega) rfl
      exact link_of_perm (List.Perm.refl _) rfl rfl rfl rfl
    · have heq : low = high + 1 := by omega
      rw [heq]
      exact h

/-- What `__rmqueue_smallest` returns. -/
inductive Taken (maxOrder zone : ℕ) (mem : MemMap) (z : Zone) (F : Set ℕ) (order : ℕ)
    (type : MigrateType) : Option ℕ × Zone → Prop
  | none (hempty : ∀ o, order ≤ o → o < maxOrder → z.freeList o type = []) :
      Taken maxOrder zone mem z F order type (none, z)
  | some {page : ℕ} {z' : Zone} (hbusy : Busy maxOrder zone mem z' page order F) :
      Taken maxOrder zone mem z F order type (some page, z')

theorem Idle.rmqueueLoop (h : Idle M zone mem z F) (fuel : ℕ) {current : ℕ} (ho : o ≤ current)
    (hb : ∀ k, o ≤ k → k < current → z.freeList k t = []) (hfl : M ≤ current + fuel) :
    Taken M zone mem z F o t (rmqueueLoop M z o t fuel current) := by
  induction fuel generalizing current with
  | zero => exact .none fun k hk hlt => hb k hk (by omega)
  | succ fuel ih =>
    rw [Buddy.rmqueueLoop]
    split
    · split
      · rename_i hn
        refine ih (by omega) (fun k hk hlt => ?_) (by omega)
        rcases Nat.lt_succ_iff_lt_or_eq.1 hlt with hlt | rfl
        · exact hb k hk hlt
        · exact hn
      · rename_i page rest hli
        have hm : page ∈ z.freeList current t := by simp [hli]
        exact .some ((h.take hm).expand ho (Nat.one_shiftLeft current))
    · exact .none fun k hk hlt => hb k hk (by omega)

/-- **`__rmqueue_smallest`** takes a block, or finds that there is none. -/
theorem Idle.rmqueueSmallest (h : Idle M zone mem z F) (o : ℕ) (t : MigrateType) :
    Taken M zone mem z F o t (rmqueueSmallest M z o t) :=
  h.rmqueueLoop M le_rfl (fun k hk hlt => absurd hlt (by omega)) (by omega)

theorem Busy.idle (h : Busy M zone mem z p o F) : Idle M zone mem z (F \ cells p o) :=
  ⟨h.listed, h.hand.free, h.hand.covered_eq, fun x hx => h.inZone x hx.1⟩

end Operations

/-! ### Runs -/

/-- The free lists are empty, and no page of the zone is marked. -/
structure Empty (zone : ℕ) (mem : MemMap) (z : Zone) : Prop where
  freeList : ∀ o t, z.freeList o t = []
  nrFree : ∀ o, z.nrFree o = 0
  pageBuddy : ∀ p, mem.InZone zone p → z.pageBuddy p = false

/-- Blocks are freed and allocated, from empty lists on; `F` are the pages that were freed and not
since allocated. -/
inductive Run (maxOrder zone : ℕ) (mem : MemMap) : Zone → Set ℕ → Prop
  | empty {z : Zone} (h : Empty zone mem z) : Run maxOrder zone mem z ∅
  | free {z : Zone} {F : Set ℕ} {page order : ℕ} {type : MigrateType}
      (h : Run maxOrder zone mem z F)
      (horder : order < maxOrder) (haligned : 2 ^ order ∣ page)
      (hzone : ∀ x ∈ cells page order, mem.InZone zone x) (hnew : Disjoint (cells page order) F) :
      Run maxOrder zone mem (freeOnePage maxOrder mem z page order type) (F ∪ cells page order)
  | alloc {z z' : Zone} {F : Set ℕ} {page order : ℕ} {type : MigrateType}
      (h : Run maxOrder zone mem z F)
      (hpage : rmqueueSmallest maxOrder z order type = (some page, z')) :
      Run maxOrder zone mem z' (F \ cells page order)
  | fail {z z' : Zone} {F : Set ℕ} {order : ℕ} {type : MigrateType} (h : Run maxOrder zone mem z F)
      (hnone : rmqueueSmallest maxOrder z order type = (none, z')) : Run maxOrder zone mem z' F

theorem Empty.idle {M zone : ℕ} {mem : MemMap} (h : Empty zone mem z) : Idle M zone mem z ∅ := by
  have hbl : z.blocks = ∅ := by
    simp [Zone.blocks, h.freeList]
  refine ⟨⟨?_, ?_, ?_, ?_, ?_, ?_⟩, ?_, ?_, by simp⟩
  · simp [h.freeList]
  · simp [h.freeList]
  · simp [h.freeList, h.nrFree]
  · intro p hp
    simp [h.pageBuddy p hp, h.freeList]
  · simp [h.freeList]
  · simp [h.freeList]
  · rw [hbl]
    exact freeBlocks_empty
  · rw [hbl, covered_empty]

theorem Run.idle {M zone : ℕ} {mem : MemMap} {F : Set ℕ} (h : Run M zone mem z F) :
    Idle M zone mem z F := by
  induction h with
  | empty h => exact h.idle
  | free _ hord hal hzn hn ih => exact ih.freeOnePage hord hal hzn hn
  | @alloc _ _ _ _ order type _ hpg ih =>
    have htkn := ih.rmqueueSmallest order type
    rw [hpg] at htkn
    cases htkn with
    | some hbs => exact hbs.idle
  | @fail _ _ _ order type _ hno ih =>
    have htkn := ih.rmqueueSmallest order type
    rw [hno] at htkn
    cases htkn with
    | none _ => exact ih

/-- **The buddy allocator.** In every state of every run the blocks on the lists are aligned and
disjoint, and their pages are those that were freed and not since allocated; the pages marked are
the first ones of the blocks, with their orders; the counters count the blocks; no block below the
highest order is free together with its buddy. An allocation returns a block of the order asked for
that was free, or finds that no list of the migratetype has a block of this order or a higher
one. -/
theorem run_buddy {maxOrder zone : ℕ} {mem : MemMap} {z : Zone} {F : Set ℕ}
    (h : Run maxOrder zone mem z F) :
    (∀ o t, ∀ p ∈ z.freeList o t, o < maxOrder ∧ 2 ^ o ∣ p) ∧
    ((∀ o t, (z.freeList o t).Nodup) ∧
      ∀ o t o' t', ∀ p ∈ z.freeList o t, ∀ q ∈ z.freeList o' t', (p, o, t) ≠ (q, o', t') →
        Disjoint (cells p o) (cells q o')) ∧
    (∀ x, x ∈ F ↔ ∃ o t, ∃ p ∈ z.freeList o t, x ∈ cells p o) ∧
    (∀ p, mem.InZone zone p → (z.pageBuddy p = true ↔ ∃ o t, p ∈ z.freeList o t)) ∧
    (∀ o t, ∀ p ∈ z.freeList o t, z.pagePrivate p = o) ∧
    (∀ o, z.nrFree o = ∑ t, ((z.freeList o t).length : ℤ)) ∧
    (∀ o t t', o < maxOrder - 1 → ∀ p ∈ z.freeList o t, p ^^^ 2 ^ o ∉ z.freeList o t') ∧
    ∀ order type, (∀ page, (rmqueueSmallest maxOrder z order type).1 = some page →
        2 ^ order ∣ page ∧ cells page order ⊆ F) ∧
      ((rmqueueSmallest maxOrder z order type).1 = none →
        ∀ o, order ≤ o → o < maxOrder → z.freeList o type = []) := by
  have hidle := h.idle
  refine ⟨?_, ⟨hidle.listed.nodup, ?_⟩, ?_, hidle.listed.flag, ?_, hidle.listed.nrFree, ?_, ?_⟩
  · exact fun o t p hp => ⟨hidle.free.lt (p, o) ⟨t, hp⟩, hidle.free.dvd (p, o) ⟨t, hp⟩⟩
  · intro o t o' t' p hp q hq hne
    refine hidle.free.disjoint (p, o) ⟨t, hp⟩ (q, o') ⟨t', hq⟩ fun heq => hne ?_
    obtain ⟨rfl, rfl⟩ := Prod.mk.injEq _ _ _ _ ▸ heq
    rw [(hidle.listed.once hp hq).2]
  · intro x
    rw [← hidle.covered_eq]
    constructor
    · rintro ⟨⟨p, o⟩, ⟨t, hp⟩, hx⟩
      exact ⟨o, t, p, hp, hx⟩
    rintro ⟨o, t, p, hp, hx⟩
    exact ⟨(p, o), ⟨t, hp⟩, hx⟩
  · exact fun o t p hp => hidle.listed.order hp
  · exact fun o t t' ho p hp hq => hidle.free.maximal (p, o) ⟨t, hp⟩ (by simp only; omega) ⟨t', hq⟩
  intro order type
  have htaken := hidle.rmqueueSmallest order type
  generalize rmqueueSmallest maxOrder z order type = res at htaken
  cases htaken with
  | none hempty => exact ⟨by simp, fun _ => hempty⟩
  | some hbusy =>
    refine ⟨fun page hpage => ?_, by simp⟩
    cases hpage
    exact ⟨hbusy.hand.dvd, hbusy.cells_subset⟩

def sixteen : MemMap := ⟨fun p => decide (p < 16), fun _ => 0⟩

/-- Two buddies are freed, which makes them one block. -/
def twoFreed : Zone :=
  freeOnePage 11 sixteen
    (freeOnePage 11 sixteen ⟨fun _ _ => [], fun _ => 0, fun _ => false, fun _ => 0⟩ 4 0 .movable)
    5 0 .unmovable

/-- The block is split for an allocation of one page. -/
theorem run_buddy_split :
    ((∅ ∪ cells 4 0 ∪ cells 5 0) \ cells 4 0 : Set ℕ) = {x | ∃ o t,
      ∃ p ∈ (rmqueueSmallest 11 twoFreed 0 .unmovable).2.freeList o t, x ∈ cells p o} := by
  have hsingle (p : ℕ) (hp : p < 16) : ∀ x ∈ cells p 0, sixteen.InZone 0 x := by
    intro x hx
    rw [mem_cells] at hx
    exact ⟨decide_eq_true (by omega), rfl⟩
  have hempty : Run 11 0 sixteen ⟨fun _ _ => [], fun _ => 0, fun _ => false, fun _ => 0⟩ ∅ :=
    .empty ⟨fun _ _ => rfl, fun _ => rfl, fun _ _ => rfl⟩
  have hfreed : Run 11 0 sixteen twoFreed (∅ ∪ cells 4 0 ∪ cells 5 0) := by
    refine .free (.free hempty (by decide) (by decide) (hsingle 4 (by decide))
      (Set.disjoint_empty _)) (by decide) (by decide) (hsingle 5 (by decide)) ?_
    rw [Set.disjoint_left]
    intro x hx hx'
    rw [Set.empty_union] at hx'
    rw [mem_cells] at hx hx'
    omega
  have hpage : rmqueueSmallest 11 twoFreed 0 .unmovable = (some 4, _) :=
    Prod.ext (by decide +kernel) rfl
  exact Set.ext (run_buddy (hfreed.alloc hpage)).2.2.1

end NestLinux.Buddy
