import NestLinux.Kernel.Resource
import Mathlib.Data.List.Pairwise

/-!
# Runs of the resource tree

The tree below a root is well formed in every state that requests, insertions,
allocations and releases reach (`Tree`): the children of a node are sorted and apart, lie
inside it and point back to it. A call that fails leaves every node of the tree as it was.

Each call is taken apart into what its walks find (`requestWalk_ok`, `coverWalk_ok`), which
splits a list of children, and what it then links. There are two ways to link: a leaf
below a node, or a node between another and some consecutive children of it; the first is
the second with no children (`Tree.link`).
-/

namespace NestLinux.ResourceTree

open Function List Option

variable {n c r q fuel : ℕ} {l : List ℕ} {rank : ℕ → ℕ} {ok : Bool}

/-! ## The tree -/

/-- The node is in the tree below a root. -/
def InTree (s : Heap) (root n : ℕ) : Prop :=
  Relation.ReflTransGen (fun a b => b ∈ (s a).child) root n

/-- The children of a node are in order. -/
structure Children (s : Heap) (n : ℕ) : Prop where
  parent : ∀ c ∈ (s n).child, (s c).parent = some n
  valid : ∀ c ∈ (s n).child, (s c).start ≤ (s c).last
  inside : ∀ c ∈ (s n).child, (s n).start ≤ (s c).start ∧ (s c).last ≤ (s n).last
  sorted : (s n).child.Pairwise fun a b => (s a).last < (s b).start

/-- The tree below a root is well formed, and no path in it comes back. -/
structure Tree (s : Heap) (root : ℕ) : Prop where
  root_parent : (s root).parent = none
  children : ∀ n, InTree s root n → Children s n
  ranked : ∃ rank : ℕ → ℕ, ∀ n, InTree s root n → ∀ c ∈ (s n).child, rank c < rank n

variable {s s' : Heap} {root new p : ℕ} {kids after before : List ℕ}

theorem InTree.child (h : InTree s root n) (hc : c ∈ (s n).child) : InTree s root c :=
  Relation.ReflTransGen.tail h hc

/-- The tree does not depend on what is outside it. -/
theorem InTree.congr (hs : ∀ r, InTree s root r → s' r = s r)
    (h : InTree s' root n) : InTree s root n := by
  induction h with
  | refl => exact Relation.ReflTransGen.refl
  | tail _ hc ih =>
    rw [hs _ ih] at hc
    exact ih.child hc

theorem InTree.congr_iff (hs : ∀ r, InTree s root r → s' r = s r) (n : ℕ) :
    InTree s' root n ↔ InTree s root n := by
  refine ⟨InTree.congr hs, ?_⟩
  intro h
  induction h with
  | refl => exact Relation.ReflTransGen.refl
  | tail hn hc ih =>
    rw [← hs _ hn] at hc
    exact ih.child hc

/-- Fewer children keep their order where no range changes. -/
theorem Children.sublist (h : Children s n)
    (hn : (s' n).start = (s n).start ∧ (s' n).last = (s n).last)
    (hsub : (s' n).child.Sublist (s n).child) (hc : ∀ c ∈ (s' n).child, (s' c).parent = some n ∧
      (s' c).start = (s c).start ∧ (s' c).last = (s c).last) : Children s' n := by
  refine ⟨fun c hm => (hc c hm).1, ?_, ?_, ?_⟩
  · intro c hm
    rw [(hc c hm).2.1, (hc c hm).2.2]
    exact h.valid c (hsub.subset hm)
  · intro c hm
    rw [(hc c hm).2.1, (hc c hm).2.2, hn.1, hn.2]
    exact h.inside c (hsub.subset hm)
  · refine (h.sorted.sublist hsub).imp_of_mem fun ha hb hab => ?_
    rwa [(hc _ ha).2.2, (hc _ hb).2.1]

theorem Children.congr (h : Children s n) (hn : s' n = s n)
    (hc : ∀ c ∈ (s n).child, s' c = s c) : Children s' n := by
  refine h.sublist (by simp [hn]) (by simp [hn]) fun c hm => ?_
  rw [hn] at hm
  simp [hc c hm, h.parent c hm]

theorem Tree.congr (h : Tree s root) (hs : ∀ r, InTree s root r → s' r = s r) : Tree s' root := by
  refine ⟨?_, ?_, ?_⟩
  · rw [hs root Relation.ReflTransGen.refl]
    exact h.root_parent
  · intro n hn
    have hn' := hn.congr hs
    exact (h.children n hn').congr (hs n hn') (fun c hc => hs c (hn'.child hc))
  obtain ⟨rank, hra⟩ := h.ranked
  refine ⟨rank, ?_⟩
  intro n hn c hc
  have hn' := hn.congr hs
  rw [hs n hn'] at hc
  exact hra n hn' c hc

/-! ## The walks -/

/-- A place for the new resource among the children. -/
theorem requestWalk_ok {l' : List ℕ} (h : requestWalk s new l = .ok l') :
    ∃ before after, l = before ++ after ∧ l' = before ++ new :: after ∧
      (∀ c ∈ before, (s c).last < (s new).start) ∧
      ∀ c ∈ after.head?, (s new).last < (s c).start := by
  fun_induction requestWalk s new l generalizing l' with
  | case1 => exact ⟨[], [], rfl, (Except.ok.inj h).symm, by simp, by simp⟩
  | case2 tmp rest haft =>
    exact ⟨[], tmp :: rest, rfl, (Except.ok.inj h).symm, by simp, by simpa using haft⟩
  | case3 tmp rest haft hbf l hrs ih =>
    obtain ⟨before, after, rfl, rfl, hb, ha⟩ := ih hrs
    exact ⟨tmp :: before, after, rfl, (Except.ok.inj h).symm, forall_mem_cons.2 ⟨hbf, hb⟩, ha⟩
  | case4 => cases h
  | case5 => cases h

/-- The first child in the way of the new resource. -/
theorem requestWalk_error (h : requestWalk s new l = .error c) :
    ∃ before after, l = before ++ c :: after ∧ (∀ x ∈ before, (s x).last < (s new).start) ∧
      (s new).start ≤ (s c).last ∧ (s c).start ≤ (s new).last := by
  fun_induction requestWalk s new l with
  | case1 => cases h
  | case2 => cases h
  | case3 => cases h
  | case4 tmp rest haft hbf x hrs ih =>
    cases h
    obtain ⟨before, after, rfl, hb, hc⟩ := ih hrs
    exact ⟨tmp :: before, after, rfl, forall_mem_cons.2 ⟨hbf, hb⟩, hc⟩
  | case5 tmp rest haft hbf =>
    cases h
    exact ⟨[], rest, rfl, by simp, Nat.not_lt.1 hbf, Nat.not_lt.1 haft⟩

/-- The siblings that the new resource covers, from the first of the list on. -/
theorem coverWalk_ok (h : coverWalk s new l = .ok (kids, after)) : l = kids ++ after ∧
      (∀ c ∈ kids, (s new).start ≤ (s c).start ∧ (s c).last ≤ (s new).last) ∧
      ∀ c ∈ after.head?, (s new).last < (s c).start := by
  fun_induction coverWalk s new l generalizing kids after with
  | case1 =>
    cases h
    simp
  | case2 => cases h
  | case3 next hnx =>
    cases h
    exact ⟨rfl, by simp; omega, by simp⟩
  | case4 next hnx sibling more hg =>
    cases h
    exact ⟨rfl, by simp; omega, by simpa using hg⟩
  | case5 next hnx sibling more hg kids after hrs ih =>
    cases h
    obtain ⟨hl, hkd, haft⟩ := ih hrs
    exact ⟨by rw [hl, cons_append], forall_mem_cons.2 ⟨by omega, hkd⟩, haft⟩
  | case6 => cases h

/-- A sibling that the new resource overlaps partially. -/
theorem coverWalk_error (h : coverWalk s new l = .error c) :
    c ∈ l ∧ ((s c).start < (s new).start ∨ (s new).last < (s c).last) := by
  fun_induction coverWalk s new l with
  | case2 next rest hpr =>
    cases h
    exact ⟨mem_cons_self, hpr⟩
  | case6 next hnx sibling more hg x hrs ih =>
    cases h
    exact ⟨mem_cons_of_mem _ (ih hrs).1, (ih hrs).2⟩
  | _ => cases h

/-! ## Linking a node -/

/-- The heap with a new node below a parent, in the place of some of its children, which go
below the new node. -/
structure Links (s s' : Heap) (p new : ℕ) (before kids after : List ℕ) : Prop where
  split : (s p).child = before ++ (kids ++ after)
  at_parent : s' p = { s p with child := before ++ new :: after }
  at_new : s' new = { s new with parent := some p, child := kids }
  at_kids : ∀ c ∈ kids, s' c = { s c with parent := some new }
  other : ∀ r, r ≠ p → r ≠ new → r ∉ kids → s' r = s r

/-- The new node fits: it is inside its parent, between the children before and after it,
and covers those that go below it. -/
structure Fits (s : Heap) (p new : ℕ) (before kids after : List ℕ) : Prop where
  valid : (s new).start ≤ (s new).last
  inside : (s p).start ≤ (s new).start ∧ (s new).last ≤ (s p).last
  before : ∀ c ∈ before, (s c).last < (s new).start
  kids : ∀ c ∈ kids, (s new).start ≤ (s c).start ∧ (s c).last ≤ (s new).last
  after : ∀ c ∈ after, (s new).last < (s c).start

section Link

theorem Tree.root_not_mem_child (h : Tree s root) (hp : InTree s root p) : root ∉ (s p).child := by
  intro hr
  have hpr := (h.children p hp).parent root hr
  rw [h.root_parent] at hpr
  cases hpr

theorem Tree.ne_of_mem_child (h : Tree s root) (hp : InTree s root p)
    (hc : c ∈ (s p).child) : c ≠ p := by
  obtain ⟨rank, hra⟩ := h.ranked
  intro heq
  have := hra p hp c hc
  rw [heq] at this
  exact Nat.lt_irrefl _ this

namespace Links

section

variable (hl : Links s s' p new before kids after)

include hl

theorem mem_child (hc : c ∈ before ∨ c ∈ kids ∨ c ∈ after) : c ∈ (s p).child := by
  rw [hl.split, mem_append, mem_append]
  exact hc

theorem range (r : ℕ) : (s' r).start = (s r).start ∧ (s' r).last = (s r).last := by
  by_cases hrp : r = p
  · rw [hrp, hl.at_parent]
    exact ⟨rfl, rfl⟩
  by_cases hrun : r = new
  · rw [hrun, hl.at_new]
    exact ⟨rfl, rfl⟩
  by_cases hrk : r ∈ kids
  · rw [hl.at_kids r hrk]
    exact ⟨rfl, rfl⟩
  rw [hl.other r hrp hrun hrk]
  exact ⟨rfl, rfl⟩

theorem child_of_ne (hrp : r ≠ p) (hrun : r ≠ new) : (s' r).child = (s r).child := by
  by_cases hrk : r ∈ kids
  · rw [hl.at_kids r hrk]
  · rw [hl.other r hrp hrun hrk]

theorem parent_of_not_mem (hrun : r ≠ new) (hrk : r ∉ kids) : (s' r).parent = (s r).parent := by
  by_cases hrp : r = p
  · rw [hrp, hl.at_parent]
  · rw [hl.other r hrp hrun hrk]

/-- The nodes of the tree are the old ones and the new one. -/
theorem inTree (hp : InTree s root p) (hn : InTree s' root n) : n = new ∨ InTree s root n := by
  induction hn with
  | refl => exact .inr Relation.ReflTransGen.refl
  | tail _ hc ih =>
    rename_i a b _
    by_cases hbn : b = new
    · exact .inl hbn
    refine .inr ?_
    by_cases han : a = new
    · rw [han, hl.at_new] at hc
      exact hp.child (hl.mem_child (Or.inr (Or.inl hc)))
    by_cases hap : a = p
    · rw [hap, hl.at_parent] at hc
      simp only [mem_append, mem_cons, hbn, false_or] at hc
      refine hp.child (hl.mem_child ?_)
      cases hc with
      | inl hb => exact .inl hb
      | inr ha => exact .inr (Or.inr ha)
    · rw [hl.child_of_ne hap han] at hc
      exact (ih.resolve_left han).child hc

/-- The three parts of the children of the parent follow each other. -/
theorem sorted (hpc : Children s p) : before.Pairwise (fun a b => (s a).last < (s b).start) ∧
      kids.Pairwise (fun a b => (s a).last < (s b).start) ∧
      after.Pairwise (fun a b => (s a).last < (s b).start) ∧
      (∀ a ∈ before, ∀ b ∈ kids ++ after, (s a).last < (s b).start) ∧
      ∀ a ∈ kids, ∀ b ∈ after, (s a).last < (s b).start := by
  have hst := hpc.sorted
  rw [hl.split, pairwise_append, pairwise_append] at hst
  exact ⟨hst.1, hst.2.1.1, hst.2.1.2.1, hst.2.2, hst.2.1.2.2⟩

theorem children_new (hf : Fits s p new before kids after) (hpc : Children s p) :
    Children s' new := by
  have hch : (s' new).child = kids := by rw [hl.at_new]
  have hm (c : ℕ) (hc : c ∈ kids) : c ∈ (s p).child := hl.mem_child (Or.inr (Or.inl hc))
  refine ⟨?_, ?_, ?_, ?_⟩
  · intro c hc
    rw [hch] at hc
    rw [hl.at_kids c hc]
  · intro c hc
    rw [hch] at hc
    rw [(hl.range c).1, (hl.range c).2]
    exact hpc.valid c (hm c hc)
  · intro c hc
    rw [hch] at hc
    rw [(hl.range c).1, (hl.range c).2, (hl.range new).1, (hl.range new).2]
    exact hf.kids c hc
  · rw [hch]
    simp only [fun r => (hl.range r).1, fun r => (hl.range r).2]
    exact (hl.sorted hpc).2.1

/-- The children of the parent: the new node stands for those it covers. -/
theorem children_parent (hf : Fits s p new before kids after) (hpc : Children s p)
    (hnw : new ∉ (s p).child) : Children s' p := by
  have hch : (s' p).child = before ++ new :: after := by rw [hl.at_parent]
  have hst := hl.sorted hpc
  -- a child that stays was there, and is not one of those that go below the new node
  have hold (c : ℕ) (hc : c ∈ before ∨ c ∈ after) : c ∈ (s p).child ∧ c ∉ kids := by
    have hm : c ∈ (s p).child := by
      cases hc with
      | inl hb => exact hl.mem_child (Or.inl hb)
      | inr ha => exact hl.mem_child (Or.inr (Or.inr ha))
    refine ⟨hm, fun hk => ?_⟩
    have hv := hpc.valid c hm
    cases hc with
    | inl hb =>
      have := hst.2.2.2.1 c hb c (mem_append_left _ hk)
      omega
    | inr ha =>
      have := hst.2.2.2.2 c hk c ha
      omega
  have hcases (c : ℕ) (hc : c ∈ (s' p).child) : c = new ∨ c ∈ before ∨ c ∈ after := by
    rw [hch, mem_append, mem_cons] at hc
    rw [or_left_comm]
    exact hc
  refine ⟨?_, ?_, ?_, ?_⟩
  · intro c hc
    cases hcases c hc with
    | inl heq => rw [heq, hl.at_new]
    | inr hc =>
      have hc' := hold c hc
      have hne : c ≠ new := fun heq => hnw (heq ▸ hc'.1)
      rw [hl.parent_of_not_mem hne hc'.2]
      exact hpc.parent c hc'.1
  · intro c hc
    rw [(hl.range c).1, (hl.range c).2]
    cases hcases c hc with
    | inl heq => exact heq ▸ hf.valid
    | inr hc => exact hpc.valid c (hold c hc).1
  · intro c hc
    rw [(hl.range c).1, (hl.range c).2, (hl.range p).1, (hl.range p).2]
    cases hcases c hc with
    | inl heq => exact heq ▸ hf.inside
    | inr hc => exact hpc.inside c (hold c hc).1
  rw [hch]
  simp only [fun r => (hl.range r).1, fun r => (hl.range r).2]
  rw [pairwise_append, pairwise_cons]
  refine ⟨hst.1, ⟨hf.after, hst.2.2.1⟩, fun a ha => forall_mem_cons.2 ⟨hf.before a ha, ?_⟩⟩
  exact fun b hb => hst.2.2.2.1 a ha b (mem_append_right _ hb)

theorem children_other (hpc : Children s p) (hnc : Children s n) (hnw : new ∉ (s n).child)
    (hnp : n ≠ p) (hnn : n ≠ new) : Children s' n := by
  have hch := hl.child_of_ne hnp hnn
  refine hnc.sublist (hl.range n) (by simp [hch]) fun c hc => ⟨?_, hl.range c⟩
  rw [hch] at hc
  have hne : c ≠ new := fun heq => hnw (heq ▸ hc)
  have hck : c ∉ kids := by
    intro hk
    have h1 := hpc.parent c (hl.mem_child (.inr (.inl hk)))
    have h2 := hnc.parent c hc
    exact hnp (some.inj (h2.symm.trans h1))
  rw [hl.parent_of_not_mem hne hck]
  exact hnc.parent c hc

/-- Ranks for the tree with the new node: there is room between those of a parent and of
its children once all are doubled. -/
theorem ranked (hp : InTree s root p) (hnw : ¬ InTree s root new)
    (hra : ∀ n, InTree s root n → ∀ c ∈ (s n).child, rank c < rank n) :
    ∃ rank' : ℕ → ℕ, ∀ n, InTree s' root n → ∀ c ∈ (s' n).child, rank' c < rank' n := by
  refine ⟨fun r => if r = new then 2 * rank p + 1 else 2 * rank r + 2, ?_⟩
  intro n hn c hc
  by_cases hnn : n = new
  · have hck : c ∈ kids := by
      rw [hnn, hl.at_new] at hc
      exact hc
    have hcp := hl.mem_child (Or.inr (Or.inl hck))
    have hcn : c ≠ new := fun heq => hnw (heq ▸ hp.child hcp)
    have := hra p hp c hcp
    simp only [hnn, hcn, if_true, if_false]
    omega
  have hnT := (hl.inTree hp hn).resolve_left hnn
  simp only [hnn, if_false]
  by_cases hcn : c = new
  · have hnp : n = p := by
      by_contra hnp
      rw [hl.child_of_ne hnp hnn, hcn] at hc
      exact hnw (hnT.child hc)
    simp only [hcn, hnp, if_true]
    omega
  have hcl : c ∈ (s n).child := by
    by_cases hnp : n = p
    · rw [hnp, hl.at_parent] at hc
      simp only [mem_append, mem_cons, hcn, false_or] at hc
      rw [hnp]
      exact hl.mem_child (hc.imp_right Or.inr)
    · rwa [hl.child_of_ne hnp hnn] at hc
  have := hra n hnT c hcl
  simp only [hcn, if_false]
  omega

end

end Links

/-- **Linking a node that fits keeps the tree well formed.** -/
theorem Tree.link (h : Tree s root) (hp : InTree s root p) (hnw : ¬ InTree s root new)
    (hl : Links s s' p new before kids after) (hf : Fits s p new before kids after) :
    Tree s' root := by
  have hpc := h.children p hp
  have hro : root ≠ new := fun heq => hnw (heq ▸ Relation.ReflTransGen.refl)
  refine ⟨?_, ?_, ?_⟩
  · have hrk : root ∉ kids := fun hk =>
      h.root_not_mem_child hp (hl.mem_child (Or.inr (Or.inl hk)))
    rw [hl.parent_of_not_mem hro hrk]
    exact h.root_parent
  · intro n hn
    by_cases hnn : n = new
    · exact hnn ▸ hl.children_new hf hpc
    have hnT := (hl.inTree hp hn).resolve_left hnn
    by_cases hnp : n = p
    · exact hnp ▸ hl.children_parent hf hpc (fun hc => hnw (hp.child hc))
    · exact hl.children_other hpc (h.children n hnT) (fun hc => hnw (hnT.child hc)) hnp hnn
  · obtain ⟨rank, hra⟩ := h.ranked
    exact hl.ranked hp hnw hra

end Link

/-! ## Request -/

/-- A list whose first entry is behind a bound is behind it as a whole. -/
theorem Children.after_of_head {bound : ℕ} (hc : Children s n)
    (hsl : (s n).child = before ++ after) (hhd : ∀ c ∈ after.head?, bound < (s c).start) :
    ∀ c ∈ after, bound < (s c).start := by
  have hst := hc.sorted
  rw [hsl, pairwise_append] at hst
  cases after with
  | nil => simp
  | cons a rest =>
    intro c hm
    have ha := hhd a rfl
    cases mem_cons.1 hm with
    | inl heq => exact heq ▸ ha
    | inr hr =>
      have hlt := (pairwise_cons.1 hst.2.1).1 c hr
      have hv := hc.valid a (by rw [hsl]; simp)
      omega

section Request

theorem requestResource_none (hpc : Children s p) (hpn : p ≠ new)
    (hch : (s new).child = []) (h : requestResource s p new = (none, s')) :
    ∃ before after, Links s s' p new before [] after ∧ Fits s p new before [] after := by
  revert h
  fun_cases requestResource s p new with
  | case3 hot l hwk s1 =>
    rintro ⟨⟩
    obtain ⟨before, after, hl, rfl, hb, ha⟩ := requestWalk_ok hwk
    refine ⟨before, after, ⟨by simpa using hl, ?_, ?_, by simp, ?_⟩, by omega, by omega,
      hb, by simp,
      hpc.after_of_head hl ha⟩
    · simp [s1, update_of_ne hpn]
    · simp [s1, update_of_ne hpn.symm, hch]
    intro r hrp hrun _
    simp [s1, update_of_ne hrun, update_of_ne hrp]
  | _ => rintro ⟨⟩

theorem requestResource_some (h : requestResource s p new = (some c, s')) : s' = s := by
  revert h
  fun_cases requestResource s p new <;> rintro ⟨⟩ <;> rfl

/-- The resource in the way of a request that fits into its parent is one of its children. -/
theorem requestResource_conflict (hin : (s p).start ≤ (s new).start ∧
    (s new).last ≤ (s p).last) (hv : (s new).start ≤ (s new).last)
    (h : requestResource s p new = (some c, s')) :
    ∃ before after, (s p).child = before ++ c :: after ∧
      (∀ x ∈ before, (s x).last < (s new).start) ∧ (s new).start ≤ (s c).last := by
  revert h
  fun_cases requestResource s p new with
  | case1 => omega
  | case2 hot x hwk =>
    rintro ⟨⟩
    obtain ⟨before, after, hl, hb, hc, -⟩ := requestWalk_error hwk
    exact ⟨before, after, hl, hb, hc⟩
  | case3 => rintro ⟨⟩

/-- A request that does not find its parent in the way fits into it. -/
theorem requestResource_inside (h : requestResource s p new = (some c, s')) (hc : c ≠ p) :
    (s new).start ≤ (s new).last ∧ (s p).start ≤ (s new).start ∧ (s new).last ≤ (s p).last := by
  revert h
  fun_cases requestResource s p new with
  | case1 => exact fun h => absurd (some.inj (Prod.mk.inj h).1).symm hc
  | _ => omega

end Request

/-! ## Insert -/

/-- A node of the tree below `p` is inside `p`. -/
theorem Tree.inside (h : Tree s root) (hp : InTree s root p)
    (hq : InTree s p q) : (s p).start ≤ (s q).start ∧ (s q).last ≤ (s p).last := by
  induction hq with
  | refl => exact ⟨le_refl _, le_refl _⟩
  | tail hpa hc ih =>
    have hin := (h.children _ (hp.trans hpa)).inside _ hc
    omega

theorem Tree.child_ne_of_below (h : Tree s root) (hp : InTree s root p)
    (hq : InTree s p q) (hc : c ∈ (s q).child) : c ≠ p := by
  obtain ⟨rank, hra⟩ := h.ranked
  have hle {a : ℕ} (ha : InTree s p a) : rank a ≤ rank p := by
    induction ha with
    | refl => exact le_refl _
    | tail hpa hb ih =>
      have := hra _ (hp.trans hpa) _ hb
      omega
  have hlt := hra q (hp.trans hq) c hc
  have := hle hq
  rintro rfl
  omega

section Insert

/-- Where the walk down the tree ends without a result: at a node that the new resource
fits into, before the first child in its way. -/
structure Stops (s : Heap) (p new q first : ℕ) : Prop where
  below : InTree s p q
  valid : (s new).start ≤ (s new).last
  inside : (s q).start ≤ (s new).start ∧ (s new).last ≤ (s q).last
  split : ∃ before after, (s q).child = before ++ first :: after ∧
    (∀ x ∈ before, (s x).last < (s new).start) ∧ (s new).start ≤ (s first).last

section

variable (h : Tree s root) (hnw : ¬ InTree s root new)

include h hnw

/-- The walk down the tree from a node that the new resource fits into links a leaf, or
stops at a child. -/
theorem descend_inside (hp : InTree s root p) (hv : (s new).start ≤ (s new).last)
    (hin : (s p).start ≤ (s new).start ∧ (s new).last ≤ (s p).last)
    {r : (Option ℕ × Heap) ⊕ (ℕ × ℕ)} (hr : descend s new fuel p = some r) :
    (∃ q s', r = .inl (none, s') ∧ InTree s p q ∧ requestResource s q new = (none, s')) ∨
      ∃ q first, r = .inr (q, first) ∧ Stops s p new q first := by
  have hcn {p first : ℕ} {s1 : Heap} (hp : InTree s root p)
      (hin : (s p).start ≤ (s new).start ∧ (s new).last ≤ (s p).last)
      (hrq : requestResource s p new = (some first, s1)) :
      first ∈ (s p).child ∧ Stops s p new p first := by
    obtain ⟨before, after, hl, hrs⟩ := requestResource_conflict hin hv hrq
    exact ⟨by simp [hl], Relation.ReflTransGen.refl, hv, hin, before, after, hl, hrs⟩
  fun_induction descend s new fuel p with
  | case1 => cases hr
  | case2 fuel p s' hrq => exact .inl ⟨p, s', (some.inj hr).symm, Relation.ReflTransGen.refl, hrq⟩
  | case3 fuel p s' hrq => exact absurd rfl (h.ne_of_mem_child hp (hcn hp hin hrq).1)
  | case4 fuel p s' hrq => exact absurd (hp.child (hcn hp hin hrq).1) hnw
  | case5 fuel p first s' hrq => exact .inr ⟨p, first, (some.inj hr).symm, (hcn hp hin hrq).2⟩
  | case6 fuel p first s' hrq => exact .inr ⟨p, first, (some.inj hr).symm, (hcn hp hin hrq).2⟩
  | case7 fuel p first s' hrq _ _ hpr hsm ih =>
    have hm := (hcn hp hin hrq).1
    have hsp : InTree s p first := Relation.ReflTransGen.single hm
    rcases ih (hp.child hm) (by omega) hr with ⟨q, s', hr', hq, hrq'⟩ | ⟨q, f, hr', hst⟩
    · exact .inl ⟨q, s', hr', hsp.trans hq, hrq'⟩
    · exact .inr ⟨q, f, hr', hsp.trans hst.below, hst.valid, hst.inside, hst.split⟩

/-- The walk down the tree fails only where it starts. -/
theorem descend_cases (hp : InTree s root p)
    {r : (Option ℕ × Heap) ⊕ (ℕ × ℕ)} (hr : descend s new fuel p = some r) : r = .inl (some p, s) ∨
      (∃ q s', r = .inl (none, s') ∧ InTree s p q ∧ requestResource s q new = (none, s')) ∨
      ∃ q first, r = .inr (q, first) ∧ Stops s p new q first := by
  by_cases hin : (s new).start ≤ (s new).last ∧ (s p).start ≤ (s new).start ∧
      (s new).last ≤ (s p).last
  · exact .inr (descend_inside h hnw hp hin.1 hin.2 hr)
  left
  cases fuel with
  | zero => cases hr
  | succ fuel =>
    have hrq : requestResource s p new = (some p, s) := by
      rw [requestResource, if_pos (by omega)]
    rw [descend, hrq] at hr
    simpa using hr.symm

omit h hnw in
theorem takeWhile_ne {α : Type*} [DecidableEq α] {a : α} {before after : List α}
    (h : a ∉ before) : (before ++ a :: after).takeWhile (· ≠ a) = before ∧
      (before ++ a :: after).dropWhile (· ≠ a) = a :: after := by
  induction before with
  | nil => simp
  | cons b rest ih =>
    have hb : b ≠ a := fun heq => h (heq ▸ mem_cons_self)
    have hrs := ih (fun hm => h (mem_cons_of_mem _ hm))
    simp only [decide_not] at hrs
    simp [hb, hrs]

omit h hnw in
/-- Adopting the children that the new resource covers links it. -/
theorem adopt_links (hsl : (s p).child = before ++ (kids ++ after)) (hpn : p ≠ new)
    (hpk : p ∉ kids) (hnk : new ∉ kids) :
    Links s (adopt s p new before kids after) p new before kids after := by
  refine ⟨hsl, ?_, ?_, ?_, ?_⟩
  · simp [adopt, hpk, update_of_ne hpn]
  · simp [adopt, update_of_ne hpn.symm, hnk]
  · intro c hc
    have hcp : c ≠ p := fun heq => hpk (heq ▸ hc)
    have hcn : c ≠ new := fun heq => hnk (heq ▸ hc)
    simp [adopt, update_of_ne hcp, hc, update_of_ne hcn]
  · intro r hrp hrun hrk
    simp [adopt, update_of_ne hrp, hrk, update_of_ne hrun]

/-- What a call of `__insert_resource` can do. -/
inductive Inserts (s : Heap) (root p new : ℕ) : Option ℕ → Heap → Prop
  | linked {q : ℕ} {s' : Heap} {before kids after : List ℕ} :
      InTree s root q → Links s s' q new before kids after → Fits s q new before kids after →
        Inserts s root p new none s'
  | outside : Inserts s root p new (some p) s
  | partly {c : ℕ} : InTree s p c → c ≠ p →
      (s c).start < (s new).start ∨ (s new).last < (s c).last →
      (s new).start ≤ (s new).last → (s p).start ≤ (s new).start → (s new).last ≤ (s p).last →
        Inserts s root p new (some c) s

theorem insertResource_inserts (hch : (s new).child = []) (hp : InTree s root p)
    {conflict : Option ℕ} (hr : insertResource s fuel p new = some (conflict, s')) :
    Inserts s root p new conflict s' := by
  have hpts {q first : ℕ} (hd : descend s new fuel p = some (.inr (q, first))) :
      Stops s p new q first ∧ ∃ before after, (s q).child = before ++ first :: after ∧
        (∀ x ∈ before, (s x).last < (s new).start) ∧
        (s q).child.takeWhile (· ≠ first) = before ∧
        (s q).child.dropWhile (· ≠ first) = first :: after := by
    rcases descend_cases h hnw hp hd with hr | ⟨_, _, hr, -⟩ | ⟨_, _, hr, hst⟩ <;> cases hr
    obtain ⟨before, after, hl, hb, hft⟩ := hst.split
    have hnb : first ∉ before := fun hm => absurd (hb first hm) (by omega)
    rw [hl]
    exact ⟨hst, before, after, rfl, hb, takeWhile_ne hnb⟩
  revert hr
  fun_cases insertResource s fuel p new with
  | case1 => rintro ⟨⟩
  | case2 r hd =>
    rintro ⟨⟩
    rcases descend_cases h hnw hp hd with hr | ⟨q, s1, hr, hq, hrq⟩ | ⟨_, _, hr, -⟩ <;> cases hr
    · exact .outside
    have hqT := hp.trans hq
    obtain ⟨before, after, hl, hf⟩ := requestResource_none (h.children q hqT)
      (fun heq : q = new => hnw (heq ▸ hqT)) hch hrq
    exact .linked hqT hl hf
  | case3 q first hd c hcv =>
    rintro ⟨⟩
    obtain ⟨hst, before, after, hl, hb, -, hdp⟩ := hpts hd
    rw [hdp] at hcv
    obtain ⟨hmm, hpr⟩ := coverWalk_error hcv
    have hcq : c ∈ (s q).child := by
      rw [hl]
      exact mem_append_right _ hmm
    have hin := h.inside hp hst.below
    have hnin := hst.inside
    exact .partly (hst.below.child hcq) (h.child_ne_of_below hp hst.below hcq) hpr hst.valid
      (by omega) (by omega)
  | case4 q first hd _ kids rest hcv =>
    rintro ⟨⟩
    obtain ⟨hst, before, after, hl, hb, rfl, hdp⟩ := hpts hd
    rw [hdp] at hcv
    obtain ⟨hsl, hkd, haft⟩ := coverWalk_ok hcv
    rw [hsl] at hl
    have hqT : InTree s root q := hp.trans hst.below
    have hmm (c : ℕ) (hc : c ∈ kids) : c ∈ (s q).child := by
      rw [hl]
      simp [hc]
    refine .linked hqT (adopt_links hl (fun heq : q = new => hnw (heq ▸ hqT))
      (fun hk => h.ne_of_mem_child hqT (hmm q hk) rfl)
      (fun hk => hnw (hqT.child (hmm new hk)))) ⟨hst.valid, hst.inside, hb, hkd, ?_⟩
    rw [← append_assoc] at hl
    exact (h.children q hqT).after_of_head hl haft

/-- The new resource is linked into a tree that is otherwise the same. -/
theorem Inserts.tree (hi : Inserts s root p new none s') : Tree s' root := by
  obtain ⟨hq, hl, hf⟩ := hi
  exact h.link hq hnw hl hf

end

theorem Inserts.eq_of_some (hi : Inserts s root p new (some c) s') : s' = s := by
  cases hi with
  | outside => rfl
  | partly => rfl

section

variable (hra : ∀ n, InTree s root n → ∀ c ∈ (s n).child, rank c < rank n)
  (hp : InTree s root p) (hfl : rank p < fuel)

include hra hp hfl

/-- As many turns as there are ranks below a node suffice to go down from it. -/
theorem descend_isSome (new : ℕ) : ∃ r, descend s new fuel p = some r := by
  fun_induction descend s new fuel p with
  | case1 => omega
  | case7 fuel p first s' hr hfp _ _ _ ih =>
    have hin := requestResource_inside hr hfp
    obtain ⟨before, after, hl, -⟩ := requestResource_conflict hin.2 hin.1 hr
    have hm : first ∈ (s p).child := by simp [hl]
    have hlt := hra p hp first hm
    exact ih (hp.child hm) (by omega)
  | _ => exact ⟨_, rfl⟩

theorem insertResource_isSome (new : ℕ) :
    ∃ conflict s', insertResource s fuel p new = some (conflict, s') := by
  obtain ⟨r, hr⟩ := descend_isSome hra hp hfl new
  fun_cases insertResource s fuel p new with
  | case1 => simp_all
  | _ => exact ⟨_, _, rfl⟩

end

end Insert

/-! ## Expand -/

section Expand

/-- A resource outside the tree may change its range. -/
theorem update_agree {v : Resource} (hnw : ¬ InTree s root new) (r : ℕ)
    (hr : InTree s root r) : update s new v r = s r :=
  update_of_ne (fun heq : r = new => hnw (heq ▸ hr)) _ _

/-- **Growing a resource to fit.** It is linked in the end, or the tree is as it was. -/
theorem expandLoop_spec (h : Tree s root) (hp : InTree s root p) (hnw : ¬ InTree s root new)
    (hch : (s new).child = []) (hr : expandLoop fuel p new n s = some (ok, s')) :
    Tree s' root ∧ (ok = false → ∀ r, InTree s root r → s' r = s r) := by
  fun_induction expandLoop fuel p new n s with
  | case3 n s s' his =>
    cases hr
    exact ⟨(insertResource_inserts h hnw hch hp his).tree h hnw, by simp⟩
  | case4 =>
    cases hr
    exact ⟨h, fun _ _ _ => rfl⟩
  | case5 n s c s1 his hcp lo hi ih =>
    have ha := @update_agree s root new { s new with start := lo, last := hi } hnw
    have hif := InTree.congr_iff ha
    have hsc := ih (h.congr ha) ((hif p).2 hp) (by rwa [hif]) (by simpa) hr
    refine ⟨hsc.1, fun hok r hrT => ?_⟩
    rw [hsc.2 hok r ((hif r).2 hrT), ha r hrT]
  | _ => cases hr

/-- Every turn but the last makes the new resource larger, inside the node it started
from. -/
theorem expandLoop_isSome (h : Tree s root)
    (hra : ∀ n, InTree s root n → ∀ c ∈ (s n).child, rank c < rank n)
    (hp : InTree s root p) (hnw : ¬ InTree s root new) (hch : (s new).child = [])
    (hfl : rank p < fuel) (hn : (s new).start + ((s p).last - (s new).last) < n) :
    ∃ r, expandLoop fuel p new n s = some r := by
  fun_induction expandLoop fuel p new n s with
  | case1 => omega
  | case2 n s hno =>
    obtain ⟨conflict, s1, his⟩ := insertResource_isSome hra hp hfl new
    simp_all
  | case5 n s c s1 his hcp lo hi ih =>
    have har := @update_agree s root new { s new with start := lo, last := hi } hnw
    have hif := InTree.congr_iff har
    have hpn : p ≠ new := fun heq => hnw (heq ▸ hp)
    refine ih (h.congr har) (fun a ha b hb => ?_) ((hif p).2 hp) (by rwa [hif]) (by simpa) ?_
    · have ha' := (hif a).1 ha
      rw [har a ha'] at hb
      exact hra a ha' b hb
    cases insertResource_inserts h hnw hch hp his with
    | outside => exact absurd rfl hcp
    | partly hc _ hpr hv hlw hhi =>
      have hin := h.inside hp hc
      rw [update_self, update_of_ne hpn]
      simp only [lo, hi]
      split_ifs <;> omega
  | _ => exact ⟨_, rfl⟩

end Expand

/-! ## Release -/

section Release

variable {old : ℕ}

section

variable (h : Tree s root) (ho : InTree s root old) (hne : old ≠ root)

include h ho hne

/-- A node other than the root is a child of its parent, in the tree. -/
theorem Tree.parent_of_ne_root :
    ∃ p, InTree s root p ∧ (s old).parent = some p ∧ old ∈ (s p).child := by
  cases Relation.ReflTransGen.cases_tail ho with
  | inl heq => exact absurd heq hne
  | inr hsp =>
    obtain ⟨p, hp, hc⟩ := hsp
    exact ⟨p, hp, (h.children p hp).parent old hc, hc⟩

omit h ho hne in
theorem Children.nodup (h : Children s n) : (s n).child.Nodup := by
  refine h.sorted.imp_of_mem ?_
  intro a b ha _ hab heq
  have := h.valid a ha
  rw [heq] at hab this
  omega

/-- **Releasing a resource** takes it and what is below it out of the tree. -/
theorem releaseResource_tree {v : ℤ} (hr : releaseResource s old = some (v, s')) :
    v = 0 ∧ Tree s' root := by
  obtain ⟨p, hp, hpr, hm⟩ := h.parent_of_ne_root ho hne
  have hpc := h.children p hp
  have hop : old ≠ p := h.ne_of_mem_child hp hm
  unfold releaseResource at hr
  rw [hpr] at hr
  simp only [hm, if_true, some.injEq, Prod.mk.injEq, update_of_ne hop] at hr
  have hs' := hr.2
  have hpa : s' p = { s p with child := (s p).child.erase old } := by
    rw [← hs', update_of_ne hop.symm, update_self]
  have hold : s' old = { s old with parent := none } := by
    rw [← hs', update_self]
  have hoh (r : ℕ) (hrp : r ≠ p) (hro : r ≠ old) : s' r = s r := by
    rw [← hs', update_of_ne hro, update_of_ne hrp]
  have hrng (r : ℕ) : (s' r).start = (s r).start ∧ (s' r).last = (s r).last := by
    by_cases hrp : r = p
    · rw [hrp, hpa]
      exact ⟨rfl, rfl⟩
    by_cases hro : r = old
    · rw [hro, hold]
      exact ⟨rfl, rfl⟩
    rw [hoh r hrp hro]
    exact ⟨rfl, rfl⟩
  have hsub (r : ℕ) : (s' r).child.Sublist (s r).child := by
    by_cases hrp : r = p
    · rw [hrp, hpa]
      exact erase_sublist
    by_cases hro : r = old
    · simp [hro, hold]
    · simp [hoh r hrp hro]
  have hin {n : ℕ} (hn : InTree s' root n) : InTree s root n := by
    induction hn with
    | refl => exact Relation.ReflTransGen.refl
    | tail _ hc ih => exact ih.child ((hsub _).subset hc)
  have hgn {n c : ℕ} (hn : InTree s root n) (hc : c ∈ (s' n).child) : c ≠ old := by
    rintro rfl
    by_cases hnp : n = p
    · rw [hnp, hpa] at hc
      exact hpc.nodup.not_mem_erase hc
    have := (h.children n hn).parent c ((hsub n).subset hc)
    rw [hpr] at this
    exact hnp (some.inj this).symm
  have hkp {c : ℕ} (hc : c ≠ old) : (s' c).parent = (s c).parent := by
    by_cases hcp : c = p
    · rw [hcp, hpa]
    · rw [hoh c hcp hc]
  refine ⟨hr.1.symm, ?_, ?_, ?_⟩
  · rw [hkp hne.symm]
    exact h.root_parent
  · intro n hn
    have hnT := hin hn
    have hnc := h.children n hnT
    refine hnc.sublist (hrng n) (hsub n) fun c hc => ⟨?_, hrng c⟩
    rw [hkp (hgn hnT hc)]
    exact hnc.parent c ((hsub n).subset hc)
  · obtain ⟨rank, hra⟩ := h.ranked
    exact ⟨rank, fun n hn c hc => hra n (hin hn) c ((hsub n).subset hc)⟩

theorem releaseResource_isSome : ∃ r, releaseResource s old = some r := by
  obtain ⟨p, hp, hpr, hm⟩ := h.parent_of_ne_root ho hne
  unfold releaseResource
  rw [hpr]
  simp only [hm]
  exact ⟨_, rfl⟩

end

end Release

/-! ## Runs -/

inductive Call
  | request (p new : ℕ)
  | insert (p new : ℕ)
  | expand (p new : ℕ)
  | allocate (p new : ℕ) (w : Wanted)
  | release (old : ℕ)

namespace Call

/-- Make the call with a bound on the turns of its loops: whether it succeeds, and the
heap. -/
def exec (n : ℕ) (s : Heap) : Call → Option (Bool × Heap)
  | .request p new =>
    let r := requestResourceErr s p new
    some (decide (r.1 = 0), r.2)
  | .insert p new =>
    match insertResourceErr s n p new with
    | some (v, s') => some (decide (v = 0), s')
    | none => none
  | .expand p new => insertResourceExpandToFit s n n p new
  | .allocate p new w =>
    let r := allocateResource s p new w
    some (decide (r.1 = 0), r.2)
  | .release old =>
    match releaseResource s old with
    | some (v, s') => some (decide (v = 0), s')
    | none => none

/-- A new resource is not in the tree and has no children, and goes below a node of the
tree; a resource to release is in the tree, and not its root. -/
def Allowed (s : Heap) (root : ℕ) : Call → Prop
  | .request p new | .insert p new | .expand p new | .allocate p new _ =>
    InTree s root p ∧ ¬ InTree s root new ∧ (s new).child = []
  | .release old => InTree s root old ∧ old ≠ root

end Call

/-- Runs from a root alone. Memory outside the tree is the callers': it may change between
the calls. -/
inductive Run (root : ℕ) : Heap → Prop
  | alone {s : Heap} : (s root).parent = none → (s root).child = [] → Run root s
  | client {s s' : Heap} : Run root s → (∀ r, InTree s root r → s' r = s r) → Run root s'
  | call {s s' : Heap} {n : ℕ} {ok : Bool} (c : Call) :
      Run root s → c.Allowed s root → c.exec n s = some (ok, s') → Run root s'

section Calls

theorem requestResourceErr_spec (h : Tree s root) (hp : InTree s root p)
    (hnw : ¬ InTree s root new) (hch : (s new).child = []) :
    Tree (requestResourceErr s p new).2 root ∧
      ((requestResourceErr s p new).1 ≠ 0 → (requestResourceErr s p new).2 = s) := by
  unfold requestResourceErr
  rcases hr : requestResource s p new with ⟨conflict, s1⟩
  cases conflict with
  | none =>
    have hpn : p ≠ new := fun heq => hnw (heq ▸ hp)
    obtain ⟨before, after, hl, hf⟩ :=
      requestResource_none (h.children p hp) hpn hch hr
    exact ⟨h.link hp hnw hl hf, fun hne => absurd rfl hne⟩
  | some c =>
    have hs := requestResource_some hr
    exact ⟨hs ▸ h, fun _ => hs⟩

theorem allocateResource_spec (h : Tree s root) (hp : InTree s root p)
    (hnw : ¬ InTree s root new) (hch : (s new).child = []) (w : Wanted) :
    Tree (allocateResource s p new w).2 root ∧ ((allocateResource s p new w).1 ≠ 0 →
      ∀ r, InTree s root r → (allocateResource s p new w).2 r = s r) := by
  unfold allocateResource
  cases findResource s p w with
  | none => exact ⟨h, fun _ _ _ => rfl⟩
  | some range =>
    have ha := @update_agree s root new { s new with start := range.1, last := range.2 } hnw
    have hif := InTree.congr_iff ha
    have hsc := @requestResourceErr_spec _ root new p (h.congr ha) ((hif p).2 hp)
      (by rwa [hif]) (by rw [update_self]; exact hch)
    refine ⟨hsc.1, ?_⟩
    intro hne r hr
    rw [hsc.2 hne, ha r hr]

/-- **One call** keeps the tree well formed, and one that fails leaves it as it was. -/
theorem Call.exec_spec (h : Tree s root) {c : Call} (hc : c.Allowed s root)
    (hex : c.exec n s = some (ok, s')) :
    Tree s' root ∧ (ok = false → ∀ r, InTree s root r → s' r = s r) := by
  cases c with
  | request p new =>
    have hsc := requestResourceErr_spec h hc.1 hc.2.1 hc.2.2
    cases hex
    refine ⟨hsc.1, ?_⟩
    intro hok r _
    rw [hsc.2 (of_decide_eq_false hok)]
  | insert p new =>
    simp only [exec, insertResourceErr] at hex
    cases his : insertResource s n p new with
    | none => simp [his] at hex
    | some r =>
      obtain ⟨conflict, s1⟩ := r
      have hi := insertResource_inserts h hc.2.1 hc.2.2 hc.1 his
      rw [his] at hex
      cases conflict with
      | none =>
        cases hex
        exact ⟨hi.tree h hc.2.1, by simp⟩
      | some c =>
        cases hex
        rw [hi.eq_of_some]
        exact ⟨h, fun _ _ _ => rfl⟩
  | expand p new =>
    simp only [exec, insertResourceExpandToFit] at hex
    by_cases hpr : (s new).parent.isSome
    · rw [if_pos hpr] at hex
      cases hex
      exact ⟨h, fun _ _ _ => rfl⟩
    · rw [if_neg hpr] at hex
      exact expandLoop_spec h hc.1 hc.2.1 hc.2.2 hex
  | allocate p new w =>
    have hsc := allocateResource_spec h hc.1 hc.2.1 hc.2.2 w
    cases hex
    exact ⟨hsc.1, fun hok => hsc.2 (of_decide_eq_false hok)⟩
  | release old =>
    simp only [exec] at hex
    cases hrel : releaseResource s old with
    | none => simp [hrel] at hex
    | some r =>
      have hsc := releaseResource_tree h hc.1 hc.2 hrel
      rw [hrel] at hex
      cases hex
      refine ⟨hsc.2, ?_⟩
      intro hok
      simp [hsc.1] at hok

/-- Enough turns let every call come to an end. -/
theorem Call.exec_isSome (h : Tree s root) {c : Call} (hc : c.Allowed s root) :
    ∃ N, ∀ n, N ≤ n → ∃ r, c.exec n s = some r := by
  cases c with
  | request p new => exact ⟨0, fun n _ => ⟨_, rfl⟩⟩
  | allocate p new w => exact ⟨0, fun n _ => ⟨_, rfl⟩⟩
  | release old =>
    obtain ⟨r, hr⟩ := releaseResource_isSome h hc.1 hc.2
    exact ⟨0, fun n _ => ⟨(decide (r.1 = 0), r.2), by simp [exec, hr]⟩⟩
  | insert p new =>
    obtain ⟨rank, hra⟩ := h.ranked
    refine ⟨rank p + 1, fun n hn => ?_⟩
    obtain ⟨conflict, s1, his⟩ := insertResource_isSome hra hc.1 hn new
    cases conflict with
    | none => exact ⟨(true, s1), by simp [exec, insertResourceErr, his]⟩
    | some c => exact ⟨(false, s1), by simp [exec, insertResourceErr, his, ebusy]⟩
  | expand p new =>
    obtain ⟨rank, hra⟩ := h.ranked
    refine ⟨rank p + 1 + ((s new).start + ((s p).last - (s new).last)), fun n hn => ?_⟩
    simp only [exec, insertResourceExpandToFit]
    by_cases hpr : (s new).parent.isSome
    · exact ⟨_, if_pos hpr⟩
    rw [if_neg hpr]
    exact expandLoop_isSome h hra hc.1 hc.2.1 hc.2.2 (by omega) (by omega)

end Calls

theorem Run.tree (h : Run root s) : Tree s root := by
  induction h with
  | alone hpr hch =>
    rename_i s
    have hon {n : ℕ} (hn : InTree s root n) : n = root := by
      induction hn with
      | refl => rfl
      | tail _ hc ih =>
        rw [ih, hch] at hc
        cases hc
    refine ⟨hpr, ?_, ⟨fun _ => 0, ?_⟩⟩
    · intro n hn
      rw [hon hn]
      constructor <;> simp [hch]
    intro n hn c hc
    rw [hon hn, hch] at hc
    cases hc
  | client _ ha ih => exact ih.congr ha
  | call c _ hc hex ih => exact (c.exec_spec ih hc hex).1

/-- **The resource tree is well formed in every state of every run.** The children of every
node are sorted by start and apart, each of them starts before it ends, lies inside the
node and points to it as its parent. Every call comes to an end, and one that fails leaves
every node of the tree as it was. -/
theorem run_tree {root : ℕ} {s : Heap} (h : Run root s) :
    (∀ n, InTree s root n → Children s n) ∧
      ∀ c : Call, c.Allowed s root → (∃ N, ∀ n, N ≤ n → ∃ r, c.exec n s = some r) ∧
        ∀ n s', c.exec n s = some (false, s') → ∀ r, InTree s root r → s' r = s r := by
  have ht := h.tree
  refine ⟨ht.children, ?_⟩
  intro c hc
  exact ⟨c.exec_isSome ht hc, fun n s' hex => (c.exec_spec ht hc hex).2 rfl⟩

/-- A root, and two resources outside the tree. -/
def sampleHeap : Heap := fun r =>
  if r = 0 then ⟨0, 99, none, []⟩ else if r = 1 then ⟨10, 19, none, []⟩ else ⟨5, 49, none, []⟩

def sampleCall (c : Call) (s : Heap) : Heap := (c.exec 2 s |>.getD (false, s)).2

/-- One resource is requested, and one that covers it is inserted. -/
def sampleNested : Heap := sampleCall (.insert 0 2) (sampleCall (.request 0 1) sampleHeap)

theorem run_tree_nested :
    Run 0 sampleNested ∧ (sampleNested 2).child = [1] ∧ Children sampleNested 2 := by
  -- the nodes of the tree are those below a bound
  have hbelow {s : Heap} (k : ℕ) (hk : 0 < k) (hs : ∀ a < k, ∀ b ∈ (s a).child, b < k) :
      ¬ InTree s 0 k := by
    have hlt : ∀ n, InTree s 0 n → n < k := by
      intro n hin
      induction hin with
      | refl => exact hk
      | tail _ hstep ih => exact hs _ ih _ hstep
    exact fun hin => lt_irrefl k (hlt k hin)
  have hrequest : Run 0 (sampleCall (.request 0 1) sampleHeap) :=
    .call (n := 2) (.request 0 1) (.alone rfl rfl)
      ⟨.refl, hbelow 1 (by decide) (by decide), rfl⟩ rfl
  have hrun : Run 0 sampleNested :=
    .call (n := 2) (.insert 0 2) hrequest ⟨.refl, hbelow 2 (by decide) (by decide), rfl⟩ rfl
  exact ⟨hrun, rfl, (run_tree hrun).1 2 (.single (List.mem_singleton_self 2))⟩

end NestLinux.ResourceTree
