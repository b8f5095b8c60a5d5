import NestLinux.Fs.Jffs2.FragtreeAdd

/-!
# Runs of the JFFS2 fragment tree

Both operations on a fragment tree keep one invariant: the fragments are contiguous from
offset 0, they stand for the layout the history of calls leaves, and every node's count
and obsolete mark fit them. So it holds after every run from an empty tree, whichever
allocations fail on the way.
-/

namespace NestLinux.Jffs2

open Lib
open List hiding nil

variable (rot : Rotations Frag) {s : Fragtree} {x n : Frag} {fn : FullDnode}
  {A B L : List Frag} {base : ℕ → RefFlags} {added : Set ℕ}

/-! ### Whole calls -/

/-- The nodes a history has added. -/
def addedIds (hist : List Event) : Set ℕ := {i | ∃ fn, Event.added fn ∈ hist ∧ fn.id = i}

/-- What holds of a tree after a history of calls. -/
structure Inv (s : Fragtree) (hist : List Event) : Prop where
  laid : Laid s (inorder s.tree)
  counted : Counted s.flags s.frags s.flags (addedIds hist) (inorder s.tree)
  owner : ownerAt (inorder s.tree) = latest hist

/-- A call of `jffs2_add_full_dnode_to_inode` is given a node with data inside 32 bits,
not added before and not obsolete. -/
structure Addable (s : Fragtree) (hist : List Event) (fn : FullDnode) : Prop where
  pos : 0 < fn.size
  bound : fn.ofs + fn.size < 2 ^ 32
  notMem : fn.id ∉ addedIds hist
  live : s.flags fn.id ≠ .obsolete

theorem addedIds_cons (hist : List Event) :
    addedIds (.added fn :: hist) = insert fn.id (addedIds hist) := by
  ext i
  simp only [addedIds, mem_cons]
  constructor
  · rintro ⟨gn, hgn | hgn, rfl⟩
    · cases hgn
      exact .inl rfl
    · exact .inr ⟨gn, hgn, rfl⟩
  · rintro (rfl | ⟨gn, hgn, rfl⟩)
    · exact ⟨fn, .inl rfl, rfl⟩
    · exact ⟨gn, .inr hgn, rfl⟩

theorem addedIds_truncated (size : ℕ) (hist : List Event) :
    addedIds (.truncated size :: hist) = addedIds hist := by
  simp [addedIds]

theorem inv_empty (flags : ℕ → RefFlags) : Inv (Fragtree.empty flags) [] where
  laid := ⟨rfl, trivial, by simp [Fragtree.empty], nodup_nil, by simp [Fragtree.empty]⟩
  counted := ⟨by simp [addedIds], by simp [addedIds], by simp [Fragtree.empty], fun _ _ => rfl⟩
  owner := rfl

/-- Marking a node and the node of a neighbour, both in use. -/
theorem mark_neighbour (hld : Laid s L) (hc : Counted base s.frags s.flags added L) (hx : x ∈ L)
    (hm : n ∈ L) (hn : IsFragOf fn n) : Laid (markNodeNormal x.node (markRefNormal fn s)) L ∧
      Counted base (markNodeNormal x.node (markRefNormal fn s)).frags
        (markNodeNormal x.node (markRefNormal fn s)).flags added L := by
  constructor
  · exact hld.congr (by simp [markRefNormal]) (by simp [markRefNormal])
  have hmk := hc.mark .normal (by simp) (refs_ne_zero_of_mem hm hn.node_eq)
  exact Counted.markNode (s := markRefNormal fn s) hmk hx

/-- A fragment that does not start at offset 0 has one before it. -/
theorem Laid.exists_prev (hld : Laid s L) (hm : n ∈ L) (ho : n.ofs ≠ 0) :
    ∃ q ∈ L, fragPrev n s = some q := by
  obtain ⟨A, B, rfl⟩ := append_of_mem hm
  obtain ⟨hA, -⟩ := hld.around
  rw [fragPrev_walk hld.walk hld.nodup]
  cases hla : A.getLast? with
  | none =>
    rw [getLast?_eq_none_iff] at hla
    rw [hla] at hA
    exact absurd hA.symm ho
  | some q => exact ⟨q, mem_append_left _ (mem_of_getLast? hla), rfl⟩

theorem Laid.next_mem (hld : Laid s L) (hm : n ∈ L) (hnx : fragNext n s = some x) : x ∈ L := by
  obtain ⟨A, B, rfl⟩ := append_of_mem hm
  rw [fragNext_walk hld.walk hld.nodup] at hnx
  have hx := mem_of_head? hnx
  simp [hx]

theorem markPrevPage_spec (hld : Laid s L) (hc : Counted base s.frags s.flags added L)
    (hm : n ∈ L) (hn : IsFragOf fn n) :
    ∃ s', markPrevPage n fn s = some s' ∧ Laid s' L ∧ Counted base s'.frags s'.flags added L := by
  rw [markPrevPage]
  split_ifs with hpg
  · have ho : n.ofs ≠ 0 := fun h0 => hpg (by rw [h0, Nat.zero_and])
    obtain ⟨q, hq, hpv⟩ := hld.exists_prev hm ho
    exact ⟨_, by rw [hpv, Option.map_some], mark_neighbour hld hc hq hm hn⟩
  · exact ⟨s, rfl, hld, hc⟩

theorem markNextPage_spec (hld : Laid s L) (hc : Counted base s.frags s.flags added L)
    (hm : n ∈ L) (hn : IsFragOf fn n) : Laid (markNextPage n fn s) L ∧
      Counted base (markNextPage n fn s).frags (markNextPage n fn s).flags added L := by
  rw [markNextPage]
  split_ifs
  · cases hnx : fragNext n s with
    | none => exact ⟨hld, hc⟩
    | some q => exact mark_neighbour hld hc (hld.next_mem hm hnx) hm hn
  · exact ⟨hld, hc⟩

/-- **Adding a node.** The call returns; it writes the node over the file, or an allocation
fails and it leaves the tree as it was. It does not touch nodes that are not in the tree. -/
theorem Inv.add {hist : List Event} (h : Inv s hist) (hfn : Addable s hist fn)
    (alloc1 alloc2 : Bool) : ∃ ret s', addFullDnodeToInode rot alloc1 alloc2 fn s = some (ret, s') ∧
      (∀ i, i ∉ insert fn.id (addedIds hist) → s'.flags i = s.flags i) ∧
      (ret = 0 ∧ Inv s' (.added fn :: hist) ∨
        (alloc1 && alloc2) = false ∧ ret = enomem ∧ s'.tree = s.tree ∧ Inv s' hist) := by
  rw [addFullDnodeToInode, if_neg hfn.pos.ne']
  cases alloc1 with
  | false => exact ⟨enomem, s, rfl, fun _ _ => rfl, .inr ⟨rfl, rfl, rfl, h⟩⟩
  | true =>
    generalize hnw : (⟨s.nextId, fn.ofs, fn.size, some fn⟩ : Frag) = n
    have hn : IsFragOf fn n := by
      rw [← hnw]
      exact ⟨rfl, rfl, rfl, hfn.pos⟩
    have hid : n.id = s.nextId := by rw [← hnw]
    have hnew : n.id ∉ (inorder s.tree).map Frag.id := by
      intro hm
      obtain ⟨f, hf, hfid⟩ := mem_map.1 hm
      have hlt := h.laid.fresh f hf
      omega
    have hc := h.counted.addNode hn.node_eq hfn.notMem hfn.live
    simp only [newFragment, if_true, hnw, Option.bind_eq_bind]
    generalize hs1 : ({ s with
      nextId := s.nextId + 1, frags := Function.update s.frags fn.id 1 } : Fragtree) = s1
    have hld1 : Laid s1 (inorder s.tree) := by
      rw [← hs1]
      exact ⟨rfl, h.laid.contig, h.laid.bound, h.laid.nodup,
        fun f hf => (h.laid.fresh f hf).trans (Nat.lt_succ_self _)⟩
    have had := addFragToFragtree_spec rot alloc2 hld1 hn hnew
      (by rw [← hs1, hid]; exact Nat.lt_succ_self _) hfn.bound (by rw [← hs1]; exact hc)
    rcases had with ⟨s', L', hr, hld', hc', hm, hov⟩ |
      ⟨s', hal, hr, htr, hnx, hc'⟩
    · obtain ⟨s2, hs2, hld2, hc2⟩ := markPrevPage_spec hld' hc' hm hn
      obtain ⟨hld3, hc3⟩ := markNextPage_spec hld2 hc2 hm hn
      refine ⟨0, markNextPage n fn s2, ?_, hc3.frame, .inl ⟨rfl, ?_⟩⟩
      · rw [hr, Option.bind_some]
        rw [if_neg (by simp), hs2, Option.bind_some]
      obtain rfl := hld3.walk
      refine ⟨hld3, by rw [addedIds_cons]; exact hc3.rebase, ?_⟩
      rw [hov.owner, h.owner, latest]
    refine ⟨enomem, s', ?_, hc'.frame, .inr ⟨by simp [hal], rfl, ?_, ?_⟩⟩
    · rw [hr]
      rfl
    · rw [htr, ← hs1]
    have hz : refs fn.id (inorder s.tree) = 0 := by
      by_contra hne
      exact hfn.notMem (h.counted.mem_added fn.id hne)
    have htr' : s'.tree = s.tree := by rw [htr, ← hs1]
    refine ⟨⟨rfl, ?_, ?_, ?_, ?_⟩, ?_, ?_⟩
    all_goals rw [htr']
    · exact h.laid.contig
    · exact h.laid.bound
    · exact h.laid.nodup
    · exact fun f hf => (hld1.fresh f hf).trans_le hnx
    · exact hc'.forget hn.node_eq hfn.notMem hz
    · exact h.owner

/-- The loop of the truncation removes all fragments behind the new size. -/
theorem eraseFrom_spec {size fuel : ℕ} (hfl : B.length < fuel) (hw : inorder s.tree = A ++ B)
    (hnd : ((A ++ B).map Frag.id).Nodup) (hB : ∀ f ∈ B, size ≤ f.ofs)
    (hc : Counted base s.frags s.flags added (A ++ B)) (hl : (A ++ B).length ≤ 2 ^ 32) :
    ∃ s', eraseFrom rot size fuel B.head? s = some s' ∧ inorder s'.tree = A ∧
      s'.nextId = s.nextId ∧ Counted base s'.frags s'.flags added A := by
  induction B generalizing fuel s with
  | nil =>
    cases fuel with
    | zero => simp at hfl
    | succ fuel =>
      rw [append_nil] at hw hc
      exact ⟨s, rfl, hw, rfl, hc⟩
  | cons y B ih =>
    cases fuel with
    | zero => simp at hfl
    | succ fuel =>
      have hl' : (A ++ B).length ≤ 2 ^ 32 := by
        simp only [length_append, length_cons] at hl ⊢
        omega
      obtain ⟨hw', hnd', hc'⟩ := erase_spec rot hw hnd hc hl
      obtain ⟨s', hr, hwk, hnx, hct⟩ := ih (by simpa using hfl) hw' hnd'
        (fun f hf => hB f (mem_cons_of_mem y hf)) hc' hl'
      refine ⟨s', ?_, hwk, hnx.trans (obsoleteNodeFrag_nextId), hct⟩
      rw [head?_cons, eraseFrom, if_pos (hB y mem_cons_self), fragNext_walk hw hnd]
      exact hr

/-- **Cutting at a size.** The fragments `C` before the size are what the truncated file
consists of, and the loop starts at the fragments `D` behind it. -/
theorem truncateCut_spec (size : ℕ) (hld : Laid s L) (hc : Counted base s.frags s.flags added L) :
    ∃ C D s', truncateCut size s = (D.head?, s') ∧ inorder s'.tree = C ++ D ∧
      (∀ f ∈ D, size ≤ f.ofs) ∧ (C ++ D).map Frag.id = L.map Frag.id ∧
      Contig Frag.ofs Frag.size 0 C ∧ extent Frag.size 0 C < 2 ^ 32 ∧ s'.nextId = s.nextId ∧
      Counted base s'.frags s'.flags added (C ++ D) ∧ ownerAt C = (ownerAt L).truncate size := by
  have hctg := hld.walk ▸ hld.contig
  have hlt := hld.walk ▸ hld.bound
  rw [truncateCut, lookupNodeFrag]
  rcases Nat.lt_or_ge size (extent Frag.size 0 L) with hin | ho
  · obtain ⟨A, x, B, rfl, hxs, hsx⟩ := hld.contig.exists_of_lt (Nat.zero_le _) hin
    obtain ⟨hA, hp, hx, hB, he, -, hBofs⟩ := hld.around
    have hlk : lookupLoop size s.tree none = some x :=
      lookupLoop_of_mem hctg hlt (by simp [hld.walk]) hxs hsx
    have hctgA := (contig_append.1 hld.contig).1
    rw [hlk]
    by_cases heq : x.ofs = size
    · refine ⟨A, x :: B, s, ?_, hld.walk, ?_, rfl, hctgA, by omega, rfl, hc, ?_⟩
      · simp [heq]
      · intro f hf
        rcases mem_cons.1 hf with rfl | hf
        · omega
        have hf := hBofs f hf
        omega
      funext b
      rw [Layout.truncate, ownerAt_append hld.contig, hA]
      by_cases hb : b < size
      · rw [if_pos hb, if_pos (by omega)]
      · rw [if_neg hb, ownerAt_of_le hctgA (by omega)]
    generalize hx1 : ({ x with size := sub32 size x.ofs } : Frag) = x1
    have hst : IsStart x size x1 := hx1 ▸ isStart_shrink hxs (by omega)
    have hid1 := hst.id_eq
    have hpre : KeptTo size x B [x1] := hst.keptTo (by omega) hsx.le
    have hwk1 := setFrag_walk hld.walk hld.nodup hid1
    have hnx : fragNext x (setFrag x1 s) = B.head? := by
      rw [fragNext, ← isFrag_congr hid1]
      exact fragNext_walk hwk1 (nodup_set hld.nodup hid1)
    have hctg1 : Contig Frag.ofs Frag.size 0 (A ++ [x1]) := by
      rw [contig_append, hA]
      exact ⟨hctgA, hpre.contig⟩
    have hext1 : extent Frag.size 0 (A ++ [x1]) = size := by
      rw [extent_append, hA, hpre.extent_eq]
    refine ⟨A ++ [x1], B, setFrag x1 s, ?_, by simpa using hwk1, ?_, by simp [hid1], hctg1,
      by omega, rfl, ?_, ?_⟩
    · simp [heq, fragEnd_eq hx, hsx, hx1, hnx]
    · intro f hf
      have hf := hBofs f hf
      omega
    · refine hc.congr fun i => ?_
      simp only [refs_append, refs_cons, refs_nil, pointsAt_congr hst.node_eq]
      omega
    funext b
    rw [Layout.truncate, ownerAt_append hld.contig, hA]
    by_cases hb : b < size
    · rw [if_pos hb, ownerAt_append hctg1, hA]
      split_ifs
      · rfl
      · exact hpre.owner b (by omega) hb
    · rw [if_neg hb, ownerAt_of_le hctg1 (by omega)]
  · have hlk : lookupLoop size s.tree none = L.getLast? := by
      rw [lookupLoop_of_le hctg hlt (by rwa [hld.walk]) (by simp), Option.or_none, hld.walk]
    rw [hlk]
    refine ⟨L, [], s, ?_, by simpa using hld.walk, by simp, by simp, hld.contig, hld.bound, rfl,
      by simpa using hc, ?_⟩
    · rcases eq_nil_or_concat L with rfl | ⟨A, x, rfl⟩
      · rfl
      rw [concat_eq_append] at hld ho ⊢
      obtain ⟨hA, hp, hx, -⟩ := hld.around
      rw [extent_append, extent_cons, extent_nil, hA] at ho
      rw [getLast?_concat]
      dsimp only
      rw [if_pos (by omega), fragEnd_eq hx, if_neg (by omega), fragNext_walk hld.walk hld.nodup]
    · funext b
      rw [Layout.truncate]
      by_cases hb : b < size
      · rw [if_pos hb]
      · rw [if_neg hb, ownerAt_of_le hld.contig (by omega)]

theorem truncateMark_spec (size : ℕ) (hld : Laid s L) (hc : Counted base s.frags s.flags added L) :
    Laid (truncateMark size s).2 L ∧
      Counted base (truncateMark size s).2.frags (truncateMark size s).2.flags added L := by
  rw [truncateMark]
  split_ifs
  · exact ⟨hld, hc⟩
  cases hla : fragLast s with
  | none => exact ⟨hld, hc⟩
  | some frag =>
    have hm : frag ∈ L := by
      rw [fragLast, hld.walk] at hla
      exact mem_of_getLast? hla
    cases hnd : frag.node with
    | none =>
      simp only [hnd]
      split_ifs <;> exact ⟨hld, hc⟩
    | some fn =>
      simp only [hnd]
      split_ifs
      · exact ⟨hld, hc⟩
      · exact ⟨hld.congr rfl rfl, hc.mark .pristine (by simp) (refs_ne_zero_of_mem hm hnd)⟩
      · exact ⟨hld, hc⟩

/-- **Truncating the file.** The call returns and cuts the layout. -/
theorem Inv.truncate {hist : List Event} (h : Inv s hist) (size : ℕ) :
    ∃ ret s', truncateFragtree rot size s = some (ret, s') ∧ Inv s' (.truncated size :: hist) := by
  obtain ⟨C, D, s1, hc, hwk, hD, hids, hctg, hbd, hnx, hct, ho⟩ :=
    truncateCut_spec size h.laid h.counted
  have hl : (C ++ D).length ≤ 2 ^ 32 := by
    have heq := congrArg length hids
    rw [length_map, length_map] at heq
    exact heq ▸ h.laid.length_lt.le
  have hfl : D.length < s1.tree.numNodes + 1 := by
    rw [numNodes_eq_length, hwk, length_append]
    omega
  have hnd : ((C ++ D).map Frag.id).Nodup := hids ▸ h.laid.nodup
  obtain ⟨s2, her, hwk2, hnx2, hc2⟩ :=
    eraseFrom_spec rot hfl hwk hnd hD hct hl
  have hld2 : Laid s2 C := by
    refine ⟨hwk2, hctg, hbd, ?_, ?_⟩
    · rw [map_append] at hnd
      exact hnd.of_append_left
    intro f hf
    have hm : f.id ∈ (inorder s.tree).map Frag.id := by
      rw [← hids]
      exact mem_map_of_mem (mem_append_left D hf)
    obtain ⟨g, hg, hgid⟩ := mem_map.1 hm
    rw [hnx2, hnx, ← hgid]
    exact h.laid.fresh g hg
  obtain ⟨hld3, hc3⟩ := truncateMark_spec size hld2 hc2
  refine ⟨(truncateMark size s2).1, (truncateMark size s2).2, ?_, ?_⟩
  · rw [truncateFragtree, hc]
    simp only [Option.bind_eq_bind]
    rw [her, Option.bind_some]
  obtain rfl := hld3.walk
  refine ⟨hld3, by rw [addedIds_truncated]; exact hc3.rebase, ?_⟩
  rw [ho, h.owner, latest]

/-- The runs of the two operations from an empty tree, with the history of the calls that
changed the file. -/
inductive Run : Fragtree → List Event → Prop
  | empty (flags : ℕ → RefFlags) : Run (.empty flags) []
  | add {s s' : Fragtree} {hist : List Event} {fn : FullDnode} {alloc₁ alloc₂ : Bool} :
      Run s hist → Addable s hist fn →
      addFullDnodeToInode rot alloc₁ alloc₂ fn s = some (0, s') → Run s' (.added fn :: hist)
  | addFails {s s' : Fragtree} {hist : List Event} {fn : FullDnode} {alloc₁ alloc₂ : Bool} :
      Run s hist → Addable s hist fn →
      addFullDnodeToInode rot alloc₁ alloc₂ fn s = some (enomem, s') → Run s' hist
  | truncate {s s' : Fragtree} {hist : List Event} {size ret : ℕ} :
      Run s hist → truncateFragtree rot size s = some (ret, s') →
      Run s' (.truncated size :: hist)

variable {rot}

theorem Run.inv {hist : List Event} (h : Run rot s hist) : Inv s hist := by
  induction h with
  | empty flags => exact inv_empty flags
  | @add s s' hist fn alloc1 alloc2 _ hfn hca ih =>
    obtain ⟨ret, s'', hr, -, hrs⟩ := ih.add rot hfn alloc1 alloc2
    rw [hca] at hr
    cases hr
    rcases hrs with ⟨-, hiv⟩ | ⟨-, hret, -⟩
    · exact hiv
    · simp [enomem] at hret
  | @addFails s s' hist fn alloc1 alloc2 _ hfn hca ih =>
    obtain ⟨ret, s'', hr, -, hrs⟩ := ih.add rot hfn alloc1 alloc2
    rw [hca] at hr
    cases hr
    rcases hrs with ⟨hret, -⟩ | ⟨-, -, -, hiv⟩
    · simp [enomem] at hret
    · exact hiv
  | @truncate s s' hist size ret _ hca ih =>
    obtain ⟨ret', s'', hr, hiv⟩ := ih.truncate rot size
    rw [hca] at hr
    cases hr
    exact hiv

/-- **The fragment tree after every run.** The fragments are non-empty and contiguous from
offset 0; every byte belongs to the latest node that covers it; every added node counts
its fragments, and is obsolete exactly when it has none; and the next call returns, with
the tree untouched if it fails. -/
theorem fragtree_run {hist : List Event} (h : Run rot s hist) :
    Contig Frag.ofs Frag.size 0 (inorder s.tree) ∧
    (∀ b, ownerAt (inorder s.tree) b = latest hist b) ∧
    (∀ fn, Event.added fn ∈ hist →
      s.frags fn.id = refs fn.id (inorder s.tree) ∧
      (s.flags fn.id = .obsolete ↔ refs fn.id (inorder s.tree) = 0)) ∧
    (∀ fn alloc₁ alloc₂, Addable s hist fn →
      ∃ ret s', addFullDnodeToInode rot alloc₁ alloc₂ fn s = some (ret, s') ∧
        (ret = 0 ∨ ret = enomem ∧ s'.tree = s.tree)) ∧
    ∀ size, ∃ ret s', truncateFragtree rot size s = some (ret, s') := by
  have hinv := h.inv
  refine ⟨hinv.laid.contig, fun b => congrFun hinv.owner b, ?_, ?_, ?_⟩
  · intro fn hfn
    have hmem : fn.id ∈ addedIds hist := ⟨fn, hfn, rfl⟩
    exact ⟨hinv.counted.frags_eq fn.id hmem, hinv.counted.obsolete_iff fn.id hmem⟩
  · intro fn alloc₁ alloc₂ hfn
    obtain ⟨ret, s', hrun, -, hres⟩ := hinv.add rot hfn alloc₁ alloc₂
    refine ⟨ret, s', hrun, ?_⟩
    rcases hres with ⟨hret, -⟩ | ⟨-, hret, htree, -⟩
    · exact .inl hret
    · exact .inr ⟨hret, htree⟩
  · intro size
    obtain ⟨ret, s', hrun, -⟩ := hinv.truncate rot size
    exact ⟨ret, s', hrun⟩

/-- Ten bytes, a node of two bytes inside them that is added at the second try, and a cut
behind its first byte: the old node keeps one fragment. -/
theorem fragtree_run_split :
    ∃ s, Run Rotations.none s [.truncated 5, .added ⟨1, 4, 2⟩, .added ⟨0, 0, 10⟩] ∧
      ownerAt (inorder s.tree) 4 = some ⟨1, 4, 2⟩ ∧ s.frags 0 = 1 := by
  have hrun0 : Run Rotations.none (.empty fun _ => .pristine) [] := .empty _
  have hrun1 := Run.add hrun0
    (⟨by decide, by decide, by simp [addedIds], by decide⟩ : Addable _ _ ⟨0, 0, 10⟩)
    (rfl : addFullDnodeToInode Rotations.none true true ⟨0, 0, 10⟩ _ = some (0, _))
  have hrun2 := Run.addFails hrun1
    (⟨by decide, by decide, by simp [addedIds], by decide⟩ : Addable _ _ ⟨1, 4, 2⟩)
    (rfl : addFullDnodeToInode Rotations.none true false ⟨1, 4, 2⟩ _ = some (enomem, _))
  have hrun3 := Run.add hrun2
    (⟨by decide, by decide, by simp [addedIds], by decide⟩ : Addable _ _ ⟨1, 4, 2⟩)
    (rfl : addFullDnodeToInode Rotations.none true true ⟨1, 4, 2⟩ _ = some (0, _))
  have hrun4 := Run.truncate hrun3 (rfl : truncateFragtree Rotations.none 5 _ = some (5, _))
  refine ⟨_, hrun4, ?_, ?_⟩
  · rw [(fragtree_run hrun4).2.1]
    rfl
  · rfl

end NestLinux.Jffs2
