import NestLinux.Fs.Jffs2.FragtreeSpec
import Mathlib.Data.List.Nodup

/-!
# Adding a fragment to the JFFS2 fragment tree

`jffs2_add_frag_to_fragtree` writes a node over the fragments of the tree, whatever it
meets there. The tree shape enters only where the code relies on it: the lookup walks
down by offsets, a fragment is linked to the right of the last one or inserted below a
fragment it follows. All of that is sound because the fragments are contiguous from
offset 0, which every case keeps.
-/

namespace NestLinux.Jffs2

open BinaryTree Lib Option
open List hiding nil

variable (rot : Rotations Frag) {s : Fragtree} {x y n : Frag} {fn : FullDnode} {A B L : List Frag}
  {base : ℕ → RefFlags} {added : Set ℕ} {p o : ℕ} {t : BinaryTree Frag} {prev : Option Frag}
  {s' s2 : Fragtree} {x1 x2 : Frag} {pre : List Frag}

/-! ### Pointers into the tree -/

theorem replaceFrag_walk (hw : inorder s.tree = A ++ x :: B)
    (hnd : ((A ++ x :: B).map Frag.id).Nodup) (y : Frag) :
    inorder (replaceFrag x y s).tree = A ++ y :: B := by
  rw [replaceFrag, inorder_map, hw]
  exact map_sameKey hnd y

theorem isFrag_congr (hid : y.id = x.id) : isFrag y = isFrag x := by
  funext g
  rw [isFrag, isFrag, sameKey, sameKey, hid]

@[simp] theorem inorder_rebalance (s : Fragtree) (t : BinaryTree Frag) :
    inorder (rebalance rot s t).tree = inorder t := rot.inorder_rotate _ _

section

variable (hw : inorder s.tree = A ++ x :: B) (hnd : ((A ++ x :: B).map Frag.id).Nodup)

include hw hnd

theorem setFrag_walk (hid : y.id = x.id) : inorder (setFrag y s).tree = A ++ y :: B := by
  rw [setFrag, isFrag_congr hid, inorder_map, hw]
  exact map_sameKey hnd y

theorem fragErase_walk : inorder (fragErase rot x s).tree = A ++ B := by
  rw [fragErase, inorder_rebalance, inorder_unlink, hw]
  exact filter_sameKey hnd

theorem fragNext_walk : fragNext x s = B.head? := by
  rw [fragNext, hw]
  exact nextAfter_sameKey hnd

theorem fragPrev_walk : fragPrev x s = A.getLast? := by
  rw [fragPrev, hw]
  exact prevBefore_sameKey hnd

/-- Inserting below a fragment puts the new one right behind it. -/
theorem fragtreeInsert_walk (hA : ∀ f ∈ A, f.ofs < y.ofs) (hx : x.ofs < y.ofs)
    (hB : ∀ f ∈ B, y.ofs < f.ofs) :
    ∃ t, fragtreeInsert rot y x s = some (rebalance rot s t) ∧
      inorder (rebalance rot s t).tree = A ++ x :: y :: B := by
  obtain ⟨hidA, hidB⟩ := sameKey_of_nodup hnd
  have hrt : ∀ f : Frag, f.ofs < y.ofs → insertDir y f = some true := by
    intro f hf
    rw [insertDir, if_pos hf]
  have hlf : ∀ f ∈ B, insertDir y f = some false := by
    intro f hf
    rw [insertDir, if_neg (lt_asymm (hB f hf)), if_pos (hB f hf)]
  obtain ⟨t, ht, hin⟩ := linkFrom_inorder (p := isFrag x) y hw hidA (sameKey_self _ x) hidB
    (fun f hf => hrt f (hA f hf)) (hrt x hx) hlf
  exact ⟨t, by rw [fragtreeInsert, ht, map_some], by rw [inorder_rebalance, hin]⟩

end

theorem linkLast_walk (hw : inorder s.tree = L) (hnd : (L.map Frag.id).Nodup) (y : Frag) :
    ∃ t, linkLast rot L.getLast? y s = some (rebalance rot s t) ∧
      inorder (rebalance rot s t).tree = L ++ [y] := by
  rcases eq_nil_or_concat L with rfl | ⟨A, x, rfl⟩
  · exact ⟨node y nil nil, rfl, inorder_rebalance rot _ _⟩
  rw [concat_eq_append] at hw hnd
  obtain ⟨t, ht, hin⟩ := linkRight_inorder (p := isFrag x) y hw (sameKey_of_nodup hnd).1
    (sameKey_self _ x)
  refine ⟨t, ?_, by simpa using hin⟩
  simp [linkLast, ht]

/-! ### Looking up an offset -/

theorem fragEnd_eq (h : x.ofs + x.size < 2 ^ 32) : fragEnd x = x.ofs + x.size := add32_of_lt h

theorem IsFragOf.end_eq (hn : IsFragOf fn n) (h : fn.ofs + fn.size < 2 ^ 32) :
    fragEnd n = fn.ofs + fn.size := by
  rw [fragEnd, hn.ofs_eq, hn.size_eq, add32_of_lt h]

/-- An offset inside a fragment gives that fragment. -/
theorem lookupLoop_of_mem (h : Contig Frag.ofs Frag.size p (inorder t))
    (hbd : extent Frag.size p (inorder t) < 2 ^ 32) (hx : x ∈ inorder t) (ho : x.ofs ≤ o)
    (ho' : o < x.ofs + x.size) : lookupLoop o t prev = some x := by
  induction t generalizing p prev with
  | nil => simp at hx
  | node f l r ihl ihr =>
    rw [inorder_node] at h hbd hx
    rw [contig_append] at h
    obtain ⟨hl, hlo, hp, hr⟩ := h
    rw [extent_append, extent_cons] at hbd
    have hle := le_extent Frag.size (extent Frag.size p (inorder l) + f.size) (inorder r)
    rw [lookupLoop, fragEnd_eq (by omega)]
    rw [mem_append, mem_cons] at hx
    rcases hx with hx | rfl | hx
    · have hxl := hl.bounds hx
      rw [if_neg (by omega), if_pos (by omega)]
      exact ihl hl (by omega) hx
    · rw [if_neg (by omega), if_neg (by omega)]
    have hxr := hr.bounds hx
    rw [if_pos (by omega)]
    exact ihr hr hbd hx

/-- An offset past the end gives the last fragment. -/
theorem lookupLoop_of_le (h : Contig Frag.ofs Frag.size p (inorder t))
    (hbd : extent Frag.size p (inorder t) < 2 ^ 32) (ho : extent Frag.size p (inorder t) ≤ o)
    (hpv : ∀ q ∈ prev, q.ofs < p) : lookupLoop o t prev = (inorder t).getLast?.or prev := by
  induction t generalizing p prev with
  | nil => rfl
  | node f l r _ ihr =>
    rw [inorder_node] at h hbd ho
    rw [contig_append] at h
    obtain ⟨hl, hlo, hp, hr⟩ := h
    rw [extent_append, extent_cons] at hbd ho
    have hle := le_extent Frag.size (extent Frag.size p (inorder l) + f.size) (inorder r)
    have hpl := le_extent Frag.size p (inorder l)
    have ha : prev.all (·.ofs < f.ofs) = true := by
      rw [Option.all_eq_true]
      intro q hq
      have hqp := hpv q hq
      exact decide_eq_true (by omega)
    rw [lookupLoop, fragEnd_eq (by omega), if_pos (by omega), if_pos ha,
      ihr hr hbd ho (by rintro q ⟨⟩; omega)]
    cases hgl : (inorder r).getLast? with
    | none =>
      rw [getLast?_eq_none_iff] at hgl
      simp [hgl]
    | some q =>
      simp [getLast?_cons, hgl]

/-! ### Removing what a new fragment covers -/

@[simp] theorem markNodeNormal_tree (node : Option FullDnode) :
    (markNodeNormal node s).tree = s.tree := by cases node <;> rfl

@[simp] theorem markNodeNormal_nextId (node : Option FullDnode) :
    (markNodeNormal node s).nextId = s.nextId := by cases node <;> rfl

@[simp] theorem obsoleteNodeFrag_tree :
    (obsoleteNodeFrag x s).tree = s.tree := by
  cases hno : x.node with
  | none => simp only [obsoleteNodeFrag, hno]
  | some fn =>
    simp only [obsoleteNodeFrag, hno]
    split_ifs <;> rfl

@[simp] theorem obsoleteNodeFrag_nextId :
    (obsoleteNodeFrag x s).nextId = s.nextId := by
  cases hno : x.node with
  | none => simp only [obsoleteNodeFrag, hno]
  | some fn =>
    simp only [obsoleteNodeFrag, hno]
    split_ifs <;> rfl

/-- A fragment is taken out of the tree and dropped. -/
theorem erase_spec (hw : inorder s.tree = A ++ x :: B) (hnd : ((A ++ x :: B).map Frag.id).Nodup)
    (hc : Counted base s.frags s.flags added (A ++ x :: B)) (hl : (A ++ x :: B).length ≤ 2 ^ 32) :
    inorder (obsoleteNodeFrag x (fragErase rot x s)).tree = A ++ B ∧
      ((A ++ B).map Frag.id).Nodup ∧
      Counted base (obsoleteNodeFrag x (fragErase rot x s)).frags
        (obsoleteNodeFrag x (fragErase rot x s)).flags added (A ++ B) := by
  refine ⟨?_, hnd.sublist (((sublist_cons_self x B).append_left A).map Frag.id), ?_⟩
  · rw [obsoleteNodeFrag_tree, fragErase_walk rot hw hnd]
  · refine Counted.drop (s := fragErase rot x s) (hc.congr fun i => ?_) ?_
    · simp only [refs_cons, refs_append]
      omega
    · simp only [length_append, length_cons] at hl ⊢
      omega

/-- The loop removes covered fragments up to the first one that reaches further. -/
theorem obsoleteCovered_spec {fuel : ℕ} (hfl : B.length < fuel)
    (hw : inorder s.tree = A ++ n :: B) (hnd : ((A ++ n :: B).map Frag.id).Nodup)
    (hB : Contig Frag.ofs Frag.size p B) (hbd : extent Frag.size p B < 2 ^ 32)
    (hn : n.ofs + n.size < 2 ^ 32) (hp : p ≤ n.ofs + n.size)
    (hc : Counted base s.frags s.flags added (A ++ n :: B)) (hl : (A ++ n :: B).length ≤ 2 ^ 32) :
    ∃ B' s', obsoleteCovered rot n fuel s = some (B'.head?, s') ∧
      inorder s'.tree = A ++ n :: B' ∧ s'.nextId = s.nextId ∧
      Counted base s'.frags s'.flags added (A ++ n :: B') ∧ B'.Sublist B ∧
      cutBelow (n.ofs + n.size) B = cutBelow (n.ofs + n.size) B' ∧
      ∀ y ∈ B'.head?, n.ofs + n.size < y.ofs + y.size ∧ y.ofs + y.size < 2 ^ 32 := by
  induction B generalizing fuel s p with
  | nil =>
    cases fuel with
    | zero => simp at hfl
    | succ fuel =>
      refine ⟨[], s, ?_, hw, rfl, hc, .slnil, rfl, by simp⟩
      rw [obsoleteCovered, fragNext_walk hw hnd]
      rfl
  | cons y B ih =>
    cases fuel with
    | zero => simp at hfl
    | succ fuel =>
      obtain ⟨hy, hps, hB'⟩ := contig_cons.1 hB
      rw [extent_cons] at hbd
      have hle := le_extent Frag.size (p + y.size) B
      have hyn : fragEnd y = y.ofs + y.size := fragEnd_eq (by omega)
      rw [obsoleteCovered, fragNext_walk hw hnd, head?_cons]
      dsimp only
      rw [hyn, fragEnd_eq hn]
      by_cases hcv : y.ofs + y.size ≤ n.ofs + n.size
      · have hasc : A ++ n :: y :: B = (A ++ [n]) ++ y :: B := by simp
        have hasc' : A ++ n :: B = (A ++ [n]) ++ B := by simp
        obtain ⟨hw', hnd', hc'⟩ := erase_spec rot (hw.trans hasc) (hasc ▸ hnd) (hasc ▸ hc)
          (hasc ▸ hl)
        rw [← hasc'] at hw' hnd' hc'
        have hl' : (A ++ n :: B).length ≤ 2 ^ 32 := by
          simp only [length_append, length_cons] at hl ⊢
          omega
        rw [if_pos hcv]
        obtain ⟨B', s', hr, hw'', hnx, hc'', hsub, hct, hhd⟩ :=
          ih (by simpa using hfl) hw' hnd' hB' hbd (by omega) hc' hl'
        refine ⟨B', s', hr, hw'', hnx.trans (obsoleteNodeFrag_nextId), hc'', hsub.cons y, ?_, hhd⟩
        rw [cutBelow, if_pos hcv, hct]
      · refine ⟨y :: B, s, ?_, hw, rfl, hc, .refl _, rfl, ?_⟩
        · rw [if_neg hcv]
          rfl
        rintro z ⟨⟩
        omega

/-- **Trimming behind a new fragment.** What is left behind it starts where it ends. -/
theorem trimFollowing_spec (hw : inorder s.tree = A ++ n :: B)
    (hnd : ((A ++ n :: B).map Frag.id).Nodup)
    (hB : Contig Frag.ofs Frag.size p B) (hbd : extent Frag.size p B < 2 ^ 32)
    (hn : n.ofs + n.size < 2 ^ 32) (hp : p ≤ n.ofs + n.size) (hno : n.node = some fn)
    (hc : Counted base s.frags s.flags added (A ++ n :: B)) (hl : (A ++ n :: B).length ≤ 2 ^ 32) :
    ∃ s', trimFollowing rot n fn s = some (0, s') ∧
      inorder s'.tree = A ++ n :: cutBelow (n.ofs + n.size) B ∧ s'.nextId = s.nextId ∧
      Counted base s'.frags s'.flags added (A ++ n :: cutBelow (n.ofs + n.size) B) := by
  have hfl : B.length < s.tree.numNodes + 1 := by
    rw [numNodes_eq_length, hw]
    simp only [length_append, length_cons]
    omega
  obtain ⟨B', s', hr, hw', hnx, hc', hsub, hct, hhd⟩ :=
    obsoleteCovered_spec rot hfl hw hnd hB hbd hn hp hc hl
  rw [hct]
  cases B' with
  | nil =>
    refine ⟨s', ?_, hw', hnx, hc'⟩
    simp [trimFollowing, hr]
  | cons y R =>
    obtain ⟨hrh, hy⟩ := hhd y rfl
    have hnd' : ((A ++ n :: y :: R).map Frag.id).Nodup :=
      hnd.sublist (((hsub.cons_cons n).append_left A).map Frag.id)
    rw [cutBelow, if_neg (by omega)]
    by_cases heq : n.ofs + n.size = y.ofs
    · rw [if_pos heq]
      refine ⟨s', ?_, hw', hnx, hc'⟩
      simp [trimFollowing, hr, fragEnd_eq hn, heq]
    rw [if_neg heq]
    generalize hcu : ({ y with
      ofs := n.ofs + n.size, size := y.ofs + y.size - (n.ofs + n.size) } : Frag) = y'
    have hid : y'.id = y.id := by rw [← hcu]
    have hsm : y'.node = y.node := by rw [← hcu]
    have hasc : ∀ z : Frag, A ++ n :: z :: R = (A ++ [n]) ++ z :: R := by simp
    have hw'' := setFrag_walk (hw'.trans (hasc y)) (hasc y ▸ hnd') hid
    have hct' : Counted base s'.frags s'.flags added (A ++ n :: y' :: R) :=
      hc'.congr fun i => by simp [refs_cons, pointsAt_congr hsm]
    have hmk := Counted.markNode (s := setFrag y' s') (x := y') hct' (by simp)
    have hmk' := hmk.mark .normal (by simp)
      (refs_ne_zero_of_mem (by simp) hno)
    refine ⟨markRefNormal fn (markNodeNormal y'.node (setFrag y' s')), ?_, ?_, ?_, hmk'⟩
    · have hsz : sub32 (y.ofs + y.size) (n.ofs + n.size)
          = y.ofs + y.size - (n.ofs + n.size) := sub32_of_le (by omega) (by omega)
      simp [trimFollowing, hr, fragEnd_eq hn, fragEnd_eq hy, heq, hsz, hcu, hsm]
    · rw [hasc y', ← hw'']
      simp [markRefNormal]
    · simpa [markRefNormal, setFrag] using hnx

/-! ### Adding a fragment -/

/-- What adding the fragment `n` of the node `fn` to the fragments `L` of `s` may do:
write it, or fail without touching the tree. -/
def Adds (s : Fragtree) (base : ℕ → RefFlags) (added : Set ℕ) (alloc : Bool) (n : Frag)
    (fn : FullDnode) (L : List Frag)
    (r : Option (ℤ × Fragtree)) : Prop :=
  (∃ s' L', r = some (0, s') ∧ Laid s' L' ∧ Counted base s'.frags s'.flags added L' ∧ n ∈ L' ∧
    Overwrites fn L L') ∨
  ∃ s', alloc = false ∧ r = some (enomem, s') ∧ s'.tree = s.tree ∧ s.nextId ≤ s'.nextId ∧
    Counted base s'.frags s'.flags added (n :: L)

theorem adds_of {L' : List Frag} (hld : Laid s L) (hbd : fn.ofs + fn.size < 2 ^ 32)
    (hov : Overwrites fn L L') (hwk : inorder s'.tree = L') (hnd : (L'.map Frag.id).Nodup)
    (hids : ∀ f ∈ L', f.id < s'.nextId) (hct : Counted base s'.frags s'.flags added L')
    (hm : n ∈ L') : Adds s base added alloc n fn L (some (0, s')) := by
  refine .inl ⟨s', L', rfl, ⟨hwk, hov.contig, ?_, hnd, hids⟩, hct, hm, hov⟩
  have hext := hov.extent_eq
  have hL := hld.bound
  omega

theorem nodup_insert (h : ((A ++ B).map Frag.id).Nodup) (hn : n.id ∉ (A ++ B).map Frag.id) :
    ((A ++ n :: B).map Frag.id).Nodup := by
  rw [map_append, map_cons, nodup_middle, ← map_append]
  exact nodup_cons.2 ⟨hn, h⟩

/-- A fragment object keeps its place in the tree when its range changes. -/
theorem nodup_set (h : ((A ++ x :: B).map Frag.id).Nodup) (hid : y.id = x.id) :
    ((A ++ y :: B).map Frag.id).Nodup := by
  simpa [hid] using h

theorem Laid.length_lt (hld : Laid s L) : L.length < 2 ^ 32 := by
  have hle := length_add_le_extent hld.contig
  have hL := hld.bound
  omega

/-- The new fragment among fragments that were there before. -/
theorem Laid.among {P Q : List Frag} (hld : Laid s L) (hnw : n.id ∉ L.map Frag.id)
    (hfr : n.id < s.nextId) (hsub : ((P ++ Q).map Frag.id).Sublist (L.map Frag.id)) :
    ((P ++ n :: Q).map Frag.id).Nodup ∧ ∀ f ∈ P ++ n :: Q, f.id < s.nextId := by
  refine ⟨nodup_insert (hld.nodup.sublist hsub) fun hm => hnw (hsub.subset hm), fun f hf => ?_⟩
  have hf' : f = n ∨ f ∈ P ++ Q := by
    simp only [mem_append, mem_cons] at hf ⊢
    tauto
  rcases hf' with rfl | hf'
  · exact hfr
  obtain ⟨g, hg, hgid⟩ := mem_map.1 (hsub.subset (mem_map_of_mem hf'))
  exact hgid ▸ hld.fresh g hg

/-- The start of a fragment, up to an offset. -/
structure IsStart (x : Frag) (o : ℕ) (x1 : Frag) : Prop where
  id_eq : x1.id = x.id
  ofs_eq : x1.ofs = x.ofs
  size_eq : x1.size = o - x.ofs
  node_eq : x1.node = x.node

theorem isStart_shrink (hxo : x.ofs ≤ o) (ho : o < 2 ^ 32) :
    IsStart x o { x with size := sub32 o x.ofs } :=
  ⟨rfl, rfl, sub32_of_le hxo (by omega), rfl⟩

/-- The fragments `pre` hold what the fragment `x` and those behind it hold before an offset. -/
structure KeptTo (o : ℕ) (x : Frag) (B pre : List Frag) : Prop where
  contig : Contig Frag.ofs Frag.size x.ofs pre
  extent_eq : extent Frag.size x.ofs pre = o
  owner : ∀ b, x.ofs ≤ b → b < o → ownerAt pre b = ownerAt (x :: B) b

theorem keptTo_nil (hxo : x.ofs = o) : KeptTo o x B [] :=
  ⟨contig_nil, hxo, fun b hxb hb => by omega⟩

theorem IsStart.keptTo (h : IsStart x o x1) (hxo : x.ofs < o) (hox : o ≤ x.ofs + x.size) :
    KeptTo o x B [x1] := by
  have ho := h.ofs_eq
  have hsz := h.size_eq
  refine ⟨⟨ho, by omega, trivial⟩, ?_, fun b hxb hb => ?_⟩
  · rw [extent_cons, extent_nil]
    omega
  · rw [ownerAt_cons, ownerAt_cons, if_pos ⟨by omega, by omega⟩, if_pos ⟨hxb, by omega⟩, h.node_eq]

section Overlap

variable (hld : Laid s (A ++ x :: B)) (hn : IsFragOf fn n)
  (hnw : n.id ∉ (A ++ x :: B).map Frag.id) (hfr : n.id < s.nextId)
  (hbd : fn.ofs + fn.size < 2 ^ 32)
  (hc : Counted base s.frags s.flags added (n :: (A ++ x :: B)))

include hld

/-- The offsets around a fragment of the tree. -/
theorem Laid.around : extent Frag.size 0 A = x.ofs ∧ 0 < x.size ∧ x.ofs + x.size < 2 ^ 32 ∧
      Contig Frag.ofs Frag.size (x.ofs + x.size) B ∧
      extent Frag.size (x.ofs + x.size) B < 2 ^ 32 ∧ (∀ f ∈ A, f.ofs < x.ofs) ∧
      ∀ f ∈ B, x.ofs + x.size ≤ f.ofs := by
  have hctg := hld.contig
  rw [contig_append] at hctg
  obtain ⟨hA, hx, hp, hB⟩ := hctg
  have he := hld.bound
  rw [extent_append, extent_cons, ← hx] at he
  rw [← hx] at hB
  have hle := le_extent Frag.size (x.ofs + x.size) B
  refine ⟨hx.symm, hp, by omega, hB, he, ?_, ?_⟩
  · intro f hf
    have hfA := hA.bounds hf
    omega
  · intro f hf
    exact (hB.bounds hf).1

omit hld in
include hn hc in
/-- Marking the two nodes that share a fragment keeps the counts. -/
theorem counted_markBoth : Counted base (markNodeNormal x.node (markRefNormal fn s)).frags
      (markNodeNormal x.node (markRefNormal fn s)).flags added (n :: (A ++ x :: B)) := by
  have hmk := hc.mark .normal (by simp) (refs_ne_zero_of_mem mem_cons_self hn.node_eq)
  exact Counted.markNode (s := markRefNormal fn s) (x := x) hmk (by simp)

include hn in
/-- The end of a fragment stays behind the new node. -/
theorem overwrites_rest (hpre : KeptTo fn.ofs x B pre) (hxo : x.ofs ≤ fn.ofs)
    (hox : fn.ofs + fn.size < x.ofs + x.size) (ho2 : x2.ofs = fn.ofs + fn.size)
    (hend : x2.ofs + x2.size = x.ofs + x.size) (hnd2 : x2.node = x.node) :
    Overwrites fn (A ++ x :: B) (A ++ (pre ++ n :: x2 :: B)) := by
  obtain ⟨hA, hp, hx, hB, he, -, -⟩ := hld.around
  have hen : fn.ofs + fn.size + x2.size = x.ofs + x.size := by omega
  apply overwrites_of hn hld.contig (hA.trans_le hxo) (hA ▸ hpre.contig) (hA ▸ hpre.extent_eq)
    (hA ▸ hpre.owner)
  · exact ⟨ho2, by omega, by rwa [hen]⟩
  · have hle := le_extent Frag.size (x.ofs + x.size) B
    rw [extent_cons, extent_cons, hen, hA]
    omega
  · exact fun b hb => ownerAt_rest hnd2 hend (by omega) (by omega)

include hn hnw hfr in
/-- The start of `x` is kept, and the new fragment is inserted below it. -/
theorem shrink_insert (hwk : inorder s2.tree = A ++ x :: B) (hst : IsStart x fn.ofs x1)
    (hxo : x.ofs < fn.ofs) (hox : fn.ofs < x.ofs + x.size) :
    ∃ t, fragtreeInsert rot n x1 (setFrag x1 s2) = some (rebalance rot (setFrag x1 s2) t) ∧
      inorder (rebalance rot (setFrag x1 s2) t).tree = (A ++ [x1]) ++ n :: B ∧
      (((A ++ [x1]) ++ n :: B).map Frag.id).Nodup ∧
      ∀ f ∈ (A ++ [x1]) ++ n :: B, f.id < s.nextId := by
  obtain ⟨-, -, -, -, -, hAofs, hBofs⟩ := hld.around
  rw [← hn.ofs_eq] at hxo hox
  obtain ⟨t, his, hwk'⟩ := fragtreeInsert_walk rot (y := n)
    (setFrag_walk hwk hld.nodup hst.id_eq) (nodup_set hld.nodup hst.id_eq)
    (fun f hf => (hAofs f hf).trans hxo) (hst.ofs_eq.trans_lt hxo)
    (fun f hf => hox.trans_le (hBofs f hf))
  exact ⟨t, his, by simpa using hwk', hld.among hnw hfr (by simp [hst.id_eq])⟩

include hn hnw hfr hbd hc in
/-- The new node lies inside a fragment and splits it. -/
theorem overlapNode_split (alloc : Bool) (hxo : x.ofs < fn.ofs)
    (hox : fn.ofs + fn.size < x.ofs + x.size) :
    Adds s base added alloc n fn (A ++ x :: B) (overlapNode rot alloc n fn x s) := by
  obtain ⟨hA, hp, hx, hB, he, hAofs, hBofs⟩ := hld.around
  have hmk := counted_markBoth hn hc
  have hnp := hn.pos
  rw [overlapNode, hn.ofs_eq, if_pos hxo, hn.end_eq hbd, fragEnd_eq hx, if_pos hox]
  cases alloc with
  | false =>
    refine .inr ⟨_, rfl, rfl, ?_, ?_, hmk⟩ <;> simp [markRefNormal]
  | true =>
    generalize hs1 : markNodeNormal x.node (markRefNormal fn s) = s1 at hmk ⊢
    have htr1 : s1.tree = s.tree := by simp [← hs1, markRefNormal]
    have hnx1 : s1.nextId = s.nextId := by simp [← hs1, markRefNormal]
    generalize hx1 : ({ x with size := sub32 fn.ofs x.ofs } : Frag) = x1
    have hst : IsStart x fn.ofs x1 := hx1 ▸ isStart_shrink hxo.le (by omega)
    generalize hx2 : (⟨s1.nextId, fn.ofs + fn.size, sub32 (sub32 (x.ofs + x.size) fn.ofs) n.size,
      x.node⟩ : Frag) = x2
    have ho1 := hst.ofs_eq
    have ho2 : x2.ofs = fn.ofs + fn.size := by rw [← hx2]
    have hsz2 : x2.size = x.ofs + x.size - (fn.ofs + fn.size) := by
      rw [← hx2]
      dsimp only
      rw [hn.size_eq, sub32_of_le (a := x.ofs + x.size) (by omega) (by omega),
        sub32_of_le (by omega) (by omega)]
      omega
    have hov := overwrites_rest hld hn (hst.keptTo hxo (by omega)) hxo.le hox ho2 (by omega)
      (by rw [← hx2])
    have hid2 : x2.id = s.nextId := by rw [← hx2, ← hnx1]
    generalize hs2 : ({ s1 with
      nextId := s1.nextId + 1
      frags := x.node.elim s1.frags fun node =>
        Function.update s1.frags node.id (add32 (s1.frags node.id) 1) } : Fragtree) = s2
    have hwk2 : inorder s2.tree = A ++ x :: B := by rw [← hs2, ← hld.walk, ← htr1]
    obtain ⟨t3, hi3, hwk3, hnd3, hfr3⟩ :=
      shrink_insert rot hld hn hnw hfr hwk2 hst hxo (by omega)
    have hb : ∀ f ∈ A ++ [x1], f.ofs < x2.ofs := by
      intro f hf
      rcases mem_append.1 hf with hf | hf
      · have hf := hAofs f hf
        omega
      rw [mem_singleton.1 hf]
      omega
    obtain ⟨t4, hi4, hwk4⟩ := fragtreeInsert_walk rot hwk3 hnd3 hb
      (by rw [hn.ofs_eq]; omega) (fun f hf => by have hf := hBofs f hf; omega)
    have hl : (n :: (A ++ x :: B)).length + 1 < 2 ^ 32 := by
      have hle := length_add_le_extent hov.contig
      have hext := hov.extent_eq
      have hL := hld.bound
      simp only [length_append, length_cons, length_nil] at hle ⊢
      omega
    have hsl := hmk.split (x := x) (y := x2) (by simp) (by rw [← hx2]) hl
    have hnotMem2 : x2.id ∉ ((A ++ [x1] ++ [n]) ++ B).map Frag.id := by
      intro hm
      obtain ⟨f, hf, hfid⟩ := mem_map.1 hm
      have hlt : f.id < s.nextId := hfr3 f (by simpa using hf)
      omega
    have hnd4 := nodup_insert (by simpa using hnd3) hnotMem2
    simp only [newFragment, if_true, bind_eq_bind, hx2, hs2]
    rw [hi3, bind_some, hi4, bind_some]
    apply adds_of hld hbd hov
    · simpa using hwk4
    · simpa using hnd4
    · have hnx : (rebalance rot (rebalance rot (setFrag x1 s2) t3) t4).nextId
          = s.nextId + 1 := by simp [rebalance, setFrag, ← hs2, hnx1]
      intro f hf
      have hf' : f = x2 ∨ f ∈ (A ++ [x1]) ++ n :: B := by
        simp only [mem_append, mem_cons, not_mem_nil] at hf ⊢
        tauto
      rw [hnx]
      rcases hf' with rfl | hf'
      · omega
      have hlt := hfr3 f hf'
      omega
    · have hfs : (rebalance rot (rebalance rot (setFrag x1 s2) t3) t4).frags = s2.frags := rfl
      have hflg : (rebalance rot (rebalance rot (setFrag x1 s2) t3) t4).flags = s2.flags := rfl
      rw [hfs, hflg, ← hs2]
      refine hsl.congr fun i => ?_
      simp only [refs_append, refs_cons, refs_nil, pointsAt_congr hst.node_eq]
      omega
    · simp

include hn in
/-- Everything from the new node's start on that it covers goes. -/
theorem overwrites_tail (hpre : KeptTo fn.ofs x B pre) (hxo : x.ofs ≤ fn.ofs)
    (hox : x.ofs + x.size ≤ fn.ofs + fn.size) :
    Overwrites fn (A ++ x :: B) (A ++ (pre ++ n :: cutBelow (fn.ofs + fn.size) B)) := by
  obtain ⟨hA, hp, hx, hB, he, -, -⟩ := hld.around
  apply overwrites_of hn hld.contig (hA.trans_le hxo) (hA ▸ hpre.contig) (hA ▸ hpre.extent_eq)
    (hA ▸ hpre.owner)
  · exact contig_cutBelow hB hox
  · rw [extent_cutBelow hB hox, extent_cons, hA]
  intro b hb
  rw [ownerAt_cutBelow hB hox hb, ownerAt_cons, if_neg (by omega)]

include hn hbd in
/-- The new fragment is in its place, and what it covers behind it is trimmed. -/
theorem adds_trim (hwk : inorder s2.tree = (A ++ pre) ++ n :: B)
    (hnd : (((A ++ pre) ++ n :: B).map Frag.id).Nodup)
    (hids : ∀ f ∈ (A ++ pre) ++ n :: B, f.id < s2.nextId)
    (hct : Counted base s2.frags s2.flags added ((A ++ pre) ++ n :: B)) (hl : pre.length ≤ 1)
    (hox : x.ofs + x.size ≤ fn.ofs + fn.size)
    (hov : Overwrites fn (A ++ x :: B) (A ++ (pre ++ n :: cutBelow (fn.ofs + fn.size) B))) :
    Adds s base added alloc n fn (A ++ x :: B) (trimFollowing rot n fn s2) := by
  obtain ⟨-, -, -, hB, he, -, -⟩ := hld.around
  have hnn : n.ofs + n.size = fn.ofs + fn.size := by rw [hn.ofs_eq, hn.size_eq]
  have hl' : ((A ++ pre) ++ n :: B).length ≤ 2 ^ 32 := by
    have hL := hld.length_lt
    simp only [length_append, length_cons] at hL ⊢
    omega
  obtain ⟨s', htr, hwk', hnx', hc'⟩ := trimFollowing_spec rot hwk hnd hB he
    (by omega) (by omega) hn.node_eq hct hl'
  rw [hnn] at hwk' hc'
  have hsub : (((A ++ pre) ++ n :: cutBelow (fn.ofs + fn.size) B).map Frag.id).Sublist
      (((A ++ pre) ++ n :: B).map Frag.id) := by
    simp only [map_append, map_cons]
    exact ((map_id_cutBelow_sublist).cons_cons n.id).append_left _
  rw [← append_assoc] at hov
  rw [htr]
  refine adds_of hld hbd hov hwk' (hnd.sublist hsub) ?_ hc' (by simp)
  · intro f hf
    obtain ⟨g, hg, hgid⟩ := mem_map.1 (hsub.subset (mem_map_of_mem hf))
    rw [hnx', ← hgid]
    exact hids g hg

include hn hnw hfr hbd hc in
/-- The new node starts inside a fragment and reaches its end. -/
theorem overlapNode_trim (alloc : Bool) (hxo : x.ofs < fn.ofs) (hfx : fn.ofs < x.ofs + x.size)
    (hox : x.ofs + x.size ≤ fn.ofs + fn.size) :
    Adds s base added alloc n fn (A ++ x :: B) (overlapNode rot alloc n fn x s) := by
  obtain ⟨hA, hp, hx, -, -, -, -⟩ := hld.around
  have hmk := counted_markBoth hn hc
  rw [overlapNode, hn.ofs_eq, if_pos hxo, hn.end_eq hbd, fragEnd_eq hx, if_neg (by omega)]
  generalize hs1 : markNodeNormal x.node (markRefNormal fn s) = s1 at hmk ⊢
  have hwk1 : inorder s1.tree = A ++ x :: B := by simp [← hs1, markRefNormal, hld.walk]
  have hnx1 : s1.nextId = s.nextId := by simp [← hs1, markRefNormal]
  generalize hx1 : ({ x with size := sub32 fn.ofs x.ofs } : Frag) = x1
  have hst : IsStart x fn.ofs x1 := hx1 ▸ isStart_shrink hxo.le (by omega)
  obtain ⟨t, his, hwk, hnd, hids⟩ := shrink_insert rot hld hn hnw hfr hwk1 hst hxo hfx
  have hct : Counted base s1.frags s1.flags added ((A ++ [x1]) ++ n :: B) := by
    refine hmk.congr fun i => ?_
    simp only [refs_append, refs_cons, refs_nil, pointsAt_congr hst.node_eq]
    omega
  simp only [bind_eq_bind]
  rw [his, bind_some]
  exact adds_trim rot hld hn hbd hwk hnd (hnx1.symm ▸ hids) hct le_rfl hox
    (overwrites_tail hld hn (hst.keptTo hxo hfx.le) hxo.le hox)

include hnw hfr in
/-- The new fragment takes the place of `x`. -/
theorem replace_ids : ((A ++ n :: B).map Frag.id).Nodup ∧ ∀ f ∈ A ++ n :: B, f.id < s.nextId :=
  hld.among hnw hfr (((sublist_cons_self x B).append_left A).map Frag.id)

include hn hnw hfr hbd hc in
/-- The new node starts where a fragment starts and reaches its end. -/
theorem overlapNode_replace (alloc : Bool) (hxo : x.ofs = fn.ofs)
    (hox : x.ofs + x.size ≤ fn.ofs + fn.size) :
    Adds s base added alloc n fn (A ++ x :: B) (overlapNode rot alloc n fn x s) := by
  obtain ⟨hA, hp, hx, -, -, -, -⟩ := hld.around
  rw [overlapNode, hn.ofs_eq, if_neg (by omega), hn.end_eq hbd, fragEnd_eq hx, if_pos hox]
  have hwk := replaceFrag_walk hld.walk hld.nodup n
  have hct : Counted base s.frags s.flags added (x :: (A ++ n :: B)) := by
    refine hc.congr fun i => ?_
    simp only [refs_append, refs_cons]
    omega
  have hdp := Counted.drop (s := replaceFrag x n s) hct (by simpa using hld.length_lt)
  have hov := overwrites_tail hld hn (keptTo_nil hxo) hxo.le hox
  obtain ⟨hnd, hids⟩ := replace_ids hld hnw hfr
  rw [← append_nil A] at hnd hids
  apply adds_trim rot hld hn hbd _ hnd _ _ (Nat.zero_le 1) hox hov
  · simpa using hwk
  · rw [obsoleteNodeFrag_nextId]
    exact hids
  · simpa using hdp

include hn hnw hfr hbd hc in
/-- The new node starts where a fragment starts and leaves its end. -/
theorem overlapNode_head (alloc : Bool) (hxo : x.ofs = fn.ofs)
    (hox : fn.ofs + fn.size < x.ofs + x.size) :
    Adds s base added alloc n fn (A ++ x :: B) (overlapNode rot alloc n fn x s) := by
  obtain ⟨hA, hp, hx, -, -, hAofs, hBofs⟩ := hld.around
  have hnp := hn.pos
  rw [overlapNode, hn.ofs_eq, if_neg (by omega), hn.end_eq hbd, fragEnd_eq hx, if_neg (by omega)]
  have hwk := replaceFrag_walk hld.walk hld.nodup n
  have hnd := (replace_ids hld hnw hfr).1
  generalize hx2 : ({ x with ofs := add32 x.ofs n.size, size := sub32 x.size n.size } : Frag) = x2
  have hid2 : x2.id = x.id := by rw [← hx2]
  have ho2 : x2.ofs = fn.ofs + fn.size := by
    rw [← hx2]
    dsimp only
    rw [hn.size_eq, hxo, add32_of_lt hbd]
  have hsz2 : x2.size = x.size - fn.size := by
    rw [← hx2]
    dsimp only
    rw [hn.size_eq, sub32_of_le (by omega) (by omega)]
  have hnd2 : x2.node = x.node := by rw [← hx2]
  have hov := overwrites_rest hld hn (keptTo_nil hxo) hxo.le hox ho2 (by omega) hnd2
  have hnew := hld.among hnw hfr (P := A) (Q := x2 :: B) (by simp [hid2])
  obtain ⟨t, his, hwk'⟩ := fragtreeInsert_walk rot (y := x2) hwk hnd
    (fun f hf => by have hf := hAofs f hf; omega) (by rw [hn.ofs_eq]; omega)
    (fun f hf => by have hf := hBofs f hf; omega)
  simp only [bind_eq_bind]
  rw [his, bind_some]
  refine adds_of hld hbd hov hwk' hnew.1 hnew.2 ?_ (by simp)
  · refine hc.congr fun i => ?_
    simp only [refs_append, refs_cons, refs_nil, pointsAt_congr hnd2]
    omega

include hn hnw hfr hbd hc in
/-- **A node that starts inside a fragment.** -/
theorem overlapNode_spec (alloc : Bool) (hxo : x.ofs ≤ fn.ofs) (hfx : fn.ofs < x.ofs + x.size) :
    Adds s base added alloc n fn (A ++ x :: B) (overlapNode rot alloc n fn x s) := by
  rcases Nat.lt_or_eq_of_le hxo with hlt | heq
  · by_cases hox : fn.ofs + fn.size < x.ofs + x.size
    · exact overlapNode_split rot hld hn hnw hfr hbd hc alloc hlt hox
    · exact overlapNode_trim rot hld hn hnw hfr hbd hc alloc hlt hfx (Nat.not_lt.1 hox)
  by_cases hox : fn.ofs + fn.size < x.ofs + x.size
  · exact overlapNode_head rot hld hn hnw hfr hbd hc alloc heq hox
  · exact overlapNode_replace rot hld hn hnw hfr hbd hc alloc heq (Nat.not_lt.1 hox)

end Overlap

section Beyond

variable (hld : Laid s L) (hn : IsFragOf fn n) (hnw : n.id ∉ L.map Frag.id)
  (hfr : n.id < s.nextId) (hbd : fn.ofs + fn.size < 2 ^ 32)
  (hc : Counted base s.frags s.flags added (n :: L))

include hld

/-- The end of the last fragment is the end of the file. -/
theorem Laid.lastend_eq : L.getLast?.elim 0 fragEnd = extent Frag.size 0 L := by
  rcases eq_nil_or_concat L with rfl | ⟨A, x, rfl⟩
  · rfl
  rw [concat_eq_append] at hld ⊢
  obtain ⟨hA, -, hx, -⟩ := hld.around
  rw [getLast?_concat, elim_some, fragEnd_eq hx, extent_append, hA, extent_cons, extent_nil]

include hn in
/-- The new node behind the end, with what fills the gap. -/
theorem overwrites_end (he : extent Frag.size 0 L ≤ fn.ofs)
    (hp : Contig Frag.ofs Frag.size (extent Frag.size 0 L) pre)
    (hpreEnd : extent Frag.size (extent Frag.size 0 L) pre = fn.ofs)
    (hhl : ∀ f ∈ pre, f.node = none) : Overwrites fn L (L ++ (pre ++ [n])) := by
  have hno : ∀ b, ownerAt pre b = none := by
    intro b
    cases hat : extentAt Frag.ofs Frag.size b pre with
    | none => rw [ownerAt, hat, bind_none]
    | some f => rw [ownerAt, hat, bind_some, hhl f (mem_of_find?_eq_some hat)]
  have hL := hld.contig
  rw [← append_nil L] at hL
  have hov := overwrites_of hn hL he hp hpreEnd (fun b _ _ => hno b)
    contig_nil (by rw [extent_nil, extent_nil]; omega) (fun b _ => rfl)
  rwa [append_nil] at hov

include hn hnw hfr hbd hc in
/-- **A node behind the end of the file.** -/
theorem noOverlappingNode_spec (alloc : Bool) (he : extent Frag.size 0 L ≤ fn.ofs) :
    Adds s base added alloc n fn L
      (noOverlappingNode rot alloc n fn L.getLast? (extent Frag.size 0 L) s) := by
  rw [noOverlappingNode]
  by_cases hg : extent Frag.size 0 L < fn.ofs
  · rw [if_pos hg]
    cases alloc with
    | false => exact .inr ⟨s, rfl, rfl, rfl, le_rfl, hc⟩
    | true =>
      generalize hhl : (⟨s.nextId, extent Frag.size 0 L, sub32 fn.ofs (extent Frag.size 0 L),
        none⟩ : Frag) = hole
      have ho : hole.ofs = extent Frag.size 0 L := by rw [← hhl]
      have hsz : hole.size = fn.ofs - extent Frag.size 0 L := by
        rw [← hhl]
        exact sub32_of_le (by omega) (by omega)
      have hid : hole.id = s.nextId := by rw [← hhl]
      have hno : hole.node = none := by rw [← hhl]
      have hov : Overwrites fn L (L ++ ([hole] ++ [n])) := by
        apply overwrites_end hld hn he
        · exact ⟨ho, by omega, trivial⟩
        · rw [extent_cons, extent_nil]
          omega
        · simpa using hno
      obtain ⟨t1, hlk1, hwk1⟩ := linkLast_walk rot (s := { s with nextId := s.nextId + 1 })
        hld.walk hld.nodup hole
      have hnotMem : hole.id ∉ (L ++ []).map Frag.id := by
        intro hm
        obtain ⟨f, hf, hfid⟩ := mem_map.1 hm
        have hlt := hld.fresh f (by simpa using hf)
        omega
      have hnd1 := nodup_insert (by simpa using hld.nodup) hnotMem
      obtain ⟨t2, hlk2, hwk2⟩ := linkLast_walk rot (s := rebalance rot
        { s with nextId := s.nextId + 1 } t1) hwk1 hnd1 n
      rw [getLast?_concat] at hlk2
      simp only [newFragment, if_true, bind_eq_bind, hhl]
      rw [hlk1, bind_some, hlk2, bind_some]
      apply adds_of hld hbd hov
      · simpa using hwk2
      · have hnd2 := nodup_insert (A := L ++ [hole]) (B := []) (n := n) (by simpa using hnd1)
          (by simpa [hid, hfr.ne] using hnw)
        simpa using hnd2
      · intro f hf
        simp only [mem_append, mem_cons, not_mem_nil, or_false] at hf
        rw [rebalance, rebalance]
        rcases hf with hf | rfl | rfl
        · exact (hld.fresh f hf).trans (Nat.lt_succ_self _)
        · exact hid ▸ Nat.lt_succ_self _
        · exact hfr.trans (Nat.lt_succ_self _)
      · refine hc.congr fun i => ?_
        simp only [refs_append, refs_cons_hole hno, refs_cons, refs_nil]
        omega
      · simp
  · rw [if_neg hg]
    have hov : Overwrites fn L (L ++ ([] ++ [n])) :=
      overwrites_end hld hn he contig_nil (by rw [extent_nil]; omega) (by simp)
    obtain ⟨t, hlk, hwk⟩ := linkLast_walk rot hld.walk hld.nodup n
    simp only [bind_eq_bind]
    rw [hlk, bind_some]
    have hnew := hld.among hnw hfr (P := L) (Q := []) (by simp)
    apply adds_of hld hbd hov hwk hnew.1 hnew.2
    · refine hc.congr fun i => ?_
      simp only [nil_append, refs_append, refs_cons, refs_nil]
      omega
    · simp

end Beyond

/-- Marks on nodes do not change the fragments. -/
theorem Laid.congr (h : Laid s L) (htr : s'.tree = s.tree)
    (hnx : s'.nextId = s.nextId) : Laid s' L :=
  ⟨htr ▸ h.walk, h.contig, h.bound, h.nodup, hnx ▸ h.fresh⟩

/-- **Adding a fragment.** `jffs2_add_frag_to_fragtree` writes the node over the old
fragments, or fails without touching them. -/
theorem addFragToFragtree_spec (alloc : Bool) (hld : Laid s L) (hn : IsFragOf fn n)
    (hnw : n.id ∉ L.map Frag.id) (hfr : n.id < s.nextId)
    (hbd : fn.ofs + fn.size < 2 ^ 32) (hc : Counted base s.frags s.flags added (n :: L)) :
    Adds s base added alloc n fn L (addFragToFragtree rot alloc n fn s) := by
  have hctg := hld.walk ▸ hld.contig
  have hlt := hld.walk ▸ hld.bound
  rw [addFragToFragtree, lookupNodeFrag]
  rcases lt_or_ge fn.ofs (extent Frag.size 0 L) with hin | ho
  · obtain ⟨A, x, B, rfl, hxo, hfx⟩ := hld.contig.exists_of_lt (Nat.zero_le _) hin
    have hlk : lookupLoop fn.ofs s.tree none = some x :=
      lookupLoop_of_mem hctg hlt (by simp [hld.walk]) hxo hfx
    obtain ⟨-, -, hx, -⟩ := hld.around
    rw [hlk, elim_some, fragEnd_eq hx, hn.ofs_eq, if_neg (by omega)]
    exact overlapNode_spec rot hld hn hnw hfr hbd hc alloc hxo hfx
  have hlk : lookupLoop fn.ofs s.tree none = L.getLast? := by
    rw [lookupLoop_of_le hctg hlt (by rwa [hld.walk]) (by simp), or_none, hld.walk]
  rw [hlk, hld.lastend_eq, hn.ofs_eq, if_pos ho]
  dsimp only
  generalize hs1 : (if extent Frag.size 0 L ≠ 0 ∧ (extent Frag.size 0 L - 1) >>> pageCacheShift
      = fn.ofs >>> pageCacheShift then
    markRefNormal fn (markNodeNormal (L.getLast?.bind (·.node)) s) else s) = s1
  have hmr : s1.tree = s.tree ∧ s1.nextId = s.nextId ∧
      Counted base s1.frags s1.flags added (n :: L) := by
    rw [← hs1]
    split_ifs
    · refine ⟨by simp [markRefNormal], by simp [markRefNormal], ?_⟩
      refine Counted.mark ?_ .normal (by simp) (refs_ne_zero_of_mem mem_cons_self hn.node_eq)
      cases hla : L.getLast? with
      | none => exact hc
      | some x => exact hc.markNode (mem_cons_of_mem n (mem_of_getLast? hla))
    · exact ⟨rfl, rfl, hc⟩
  obtain ⟨htr, hnx, hc1⟩ := hmr
  rw [Adds, ← htr, ← hnx]
  exact noOverlappingNode_spec rot (hld.congr htr hnx) hn hnw (hnx ▸ hfr) hbd hc1
    alloc ho

end NestLinux.Jffs2
