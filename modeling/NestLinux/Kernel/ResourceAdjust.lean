import NestLinux.Kernel.ResourceRun

/-!
# Adjusting a resource

`adjust_resource` gives a resource of the tree a new range, after comparing its start and
its end with the parent, the children and the neighbours. It does not compare the two with
each other: the end is `start + size - 1`, which wraps for an empty range or one that is too
long, and such a range may pass all checks.
-/

namespace NestLinux.ResourceTree

open Lib Function List

/-- The tree below a root is well formed, and the root is a range. -/
def WellFormed (s : Heap) (root : ℕ) : Prop := Tree s root ∧ (s root).start ≤ (s root).last

/-- There is room for a new range: it lies inside the parent, it contains the children, and
every sibling stays on its side. -/
structure Room (s : Heap) (p res start last : ℕ) : Prop where
  inside : (s p).start ≤ start ∧ last ≤ (s p).last
  kids : ∀ c ∈ (s res).child, start ≤ (s c).start ∧ (s c).last ≤ last
  before : ∀ c ∈ (s p).child, (s c).last < (s res).start → (s c).last < start
  after : ∀ c ∈ (s p).child, (s res).last < (s c).start → last < (s c).start

section Checks

variable {s : Heap} {p res start last : ℕ}

theorem Children.split (hc : Children s p) (hm : res ∈ (s p).child) :
    ∃ before after, (s p).child = before ++ res :: after ∧ res ∉ before ∧
      (∀ c ∈ before, (s c).last < (s res).start) ∧ ∀ c ∈ after, (s res).last < (s c).start := by
  obtain ⟨before, after, hsl⟩ := append_of_mem hm
  have hst := hc.sorted
  rw [hsl, pairwise_append, pairwise_cons] at hst
  have hbf (c : ℕ) (hcb : c ∈ before) : (s c).last < (s res).start :=
    hst.2.2 c hcb res mem_cons_self
  refine ⟨before, after, hsl, fun hb => ?_, hbf, hst.2.1.1⟩
  have hlt := hbf res hb
  have hv := hc.valid res hm
  omega

/-- A list whose last entry is before a bound is before it as a whole. -/
theorem Children.before_of_getLast {bound : ℕ} (hc : Children s p) {before after : List ℕ}
    (hsl : (s p).child = before ++ after) (hla : ∀ c ∈ before.getLast?, (s c).last < bound) :
    ∀ c ∈ before, (s c).last < bound := by
  have hst := hc.sorted
  rw [hsl, pairwise_append] at hst
  rcases eq_nil_or_concat before with rfl | ⟨init, z, hin⟩
  · simp
  rw [concat_eq_append] at hin
  subst hin
  have hz : (s z).last < bound := hla z (by simp)
  have hv := hc.valid z (by simp [hsl])
  have hin := (pairwise_append.1 hst.1).2.2
  intro c hm
  rcases mem_append.1 hm with hm | hm
  · have := hin c hm z (mem_singleton_self z)
    omega
  · rwa [mem_singleton.1 hm]

/-- **The checks** are about the neighbours only, but say that there is room. -/
theorem adjustChecks_iff (hc : Children s p) (hm : res ∈ (s p).child) (start last : ℕ) :
    adjustChecks s p res start last = true ↔ Room s p res start last := by
  obtain ⟨before, after, hsl, hn, hbf, haft⟩ := hc.split hm
  have hv := hc.valid res hm
  have hm' (c : ℕ) : c ∈ (s p).child ↔ c ∈ before ∨ c = res ∨ c ∈ after := by
    rw [hsl, mem_append, mem_cons]
  have hch : adjustChecks s p res start last = true ↔
      (((s p).start ≤ start ∧ last ≤ (s p).last) ∧
        (∀ c ∈ (s res).child, start ≤ (s c).start ∧ (s c).last ≤ last) ∧
        ∀ c ∈ after.head?, last < (s c).start) ∧ ∀ c ∈ before.getLast?, (s c).last < start := by
    have htk : (before ++ res :: after).takeWhile (· ≠ res) = before := (takeWhile_ne hn).1
    have hdp : (before ++ res :: after).dropWhile (· ≠ res) = res :: after := (takeWhile_ne hn).2
    simp only [adjustChecks, hsl, htk, hdp]
    simp [Option.all_eq_true, and_assoc]
  rw [hch]
  constructor
  · rintro ⟨⟨hin, hkd, hhd⟩, hla⟩
    refine ⟨hin, hkd, ?_, ?_⟩
    · intro c hcm hlt
      rcases (hm' c).1 hcm with hb | rfl | ha
      · exact hc.before_of_getLast hsl hla c hb
      · omega
      have h1 := haft c ha
      have h2 := hc.valid c hcm
      omega
    intro c hcm hlt
    rcases (hm' c).1 hcm with hb | rfl | ha
    · have h1 := hbf c hb
      have h2 := hc.valid c hcm
      omega
    · omega
    have hs' : (s p).child = (before ++ [res]) ++ after := by simp [hsl]
    exact hc.after_of_head hs' hhd c ha
  · intro hrm
    refine ⟨⟨hrm.inside, hrm.kids, ?_⟩, ?_⟩
    · intro c hhd
      have ha : c ∈ after := mem_of_mem_head? hhd
      exact hrm.after c ((hm' c).2 (Or.inr (Or.inr ha))) (haft c ha)
    intro c hla
    have hb : c ∈ before := mem_of_mem_getLast? hla
    exact hrm.before c ((hm' c).2 (Or.inl hb)) (hbf c hb)

end Checks

/-! ## The new range -/

section Adjust

variable {s : Heap} {root p res start last : ℕ}

/-- The heap with a resource in its new range. -/
def inRange (s : Heap) (res start last : ℕ) : Heap :=
  update s res { s res with start := start, last := last }

theorem inRange_self : inRange s res start last res = { s res with start := start, last := last } :=
  update_self _ _ _

theorem inRange_of_ne {r : ℕ} (h : r ≠ res) : inRange s res start last r = s r := update_of_ne h _ _

theorem inRange_child (r : ℕ) : (inRange s res start last r).child = (s r).child := by
  by_cases h : r = res
  · rw [h, inRange_self]
  · rw [inRange_of_ne h]

theorem inRange_parent (r : ℕ) : (inRange s res start last r).parent = (s r).parent := by
  by_cases h : r = res
  · rw [h, inRange_self]
  · rw [inRange_of_ne h]

theorem inTree_inRange (n : ℕ) : InTree (inRange s res start last) root n ↔ InTree s root n := by
  simp [InTree, inRange_child]

/-- The children of a node that is neither the resource nor its parent. -/
theorem Children.inRange_other {n : ℕ} (hn : Children s n) (hne : n ≠ res)
    (hr : res ∉ (s n).child) : Children (inRange s res start last) n :=
  hn.congr (inRange_of_ne hne) fun _ hc => inRange_of_ne fun heq => hr (heq ▸ hc)

theorem Children.inRange_res (hn : Children s res) (hsl : res ∉ (s res).child)
    (hrm : Room s p res start last) : Children (inRange s res start last) res := by
  have ho (c : ℕ) (hc : c ∈ (s res).child) : inRange s res start last c = s c :=
    inRange_of_ne fun heq => hsl (heq ▸ hc)
  refine ⟨?_, ?_, ?_, ?_⟩ <;> rw [inRange_child]
  · intro c hc
    rw [ho c hc]
    exact hn.parent c hc
  · intro c hc
    rw [ho c hc]
    exact hn.valid c hc
  · intro c hc
    rw [ho c hc, inRange_self]
    exact hrm.kids c hc
  refine hn.sorted.imp_of_mem ?_
  intro a b ha hb hab
  rwa [ho a ha, ho b hb]

theorem Children.inRange_parent (hn : Children s p) (hne : p ≠ res) (hm : res ∈ (s p).child)
    (hv : start ≤ last) (hrm : Room s p res start last) :
    Children (inRange s res start last) p := by
  have hat : inRange s res start last p = s p := inRange_of_ne hne
  refine ⟨?_, ?_, ?_, ?_⟩
  · intro c hc
    rw [inRange_child] at hc
    rw [ResourceTree.inRange_parent]
    exact hn.parent c hc
  · intro c hc
    rw [inRange_child] at hc
    by_cases hcr : c = res
    · rw [hcr, inRange_self]
      exact hv
    rw [inRange_of_ne hcr]
    exact hn.valid c hc
  · intro c hc
    rw [inRange_child] at hc
    rw [hat]
    by_cases hcr : c = res
    · rw [hcr, inRange_self]
      exact hrm.inside
    rw [inRange_of_ne hcr]
    exact hn.inside c hc
  rw [inRange_child]
  refine hn.sorted.imp_of_mem ?_
  intro a b ha hb hab
  by_cases har : a = res
  · by_cases hbr : b = res
    · have := hn.valid res hm
      rw [har, hbr] at hab
      omega
    rw [har] at hab
    rw [har, inRange_self, inRange_of_ne hbr]
    exact hrm.after b hb hab
  · by_cases hbr : b = res
    · rw [hbr] at hab
      rw [hbr, inRange_self, inRange_of_ne har]
      exact hrm.before a ha hab
    · rwa [inRange_of_ne har, inRange_of_ne hbr]

/-- **A resource in its new range** leaves the tree well formed exactly if the range is one. -/
theorem tree_inRange_iff (h : Tree s root) (hp : InTree s root p) (hm : res ∈ (s p).child)
    (hrm : Room s p res start last) : Tree (inRange s res start last) root ↔ start ≤ last := by
  have hpr : res ≠ p := h.ne_of_mem_child hp hm
  have hr : InTree s root res := hp.child hm
  constructor
  · intro h'
    have hv := (h'.children p ((inTree_inRange p).2 hp)).valid res (by rwa [inRange_child])
    rwa [inRange_self] at hv
  intro hv
  refine ⟨?_, ?_, ?_⟩
  · rw [ResourceTree.inRange_parent]
    exact h.root_parent
  · intro n hn
    rw [inTree_inRange] at hn
    have hnc := h.children n hn
    by_cases hnp : n = p
    · exact hnp ▸ (h.children p hp).inRange_parent hpr.symm hm hv hrm
    by_cases hnr : n = res
    · rw [hnr]
      exact (h.children res hr).inRange_res
        (fun hsl => h.ne_of_mem_child hr hsl rfl) hrm
    refine hnc.inRange_other hnr fun hm' => hnp ?_
    have hpa := hnc.parent res hm'
    rw [(h.children p hp).parent res hm] at hpa
    exact (Option.some.inj hpa).symm
  · obtain ⟨rank, hrk⟩ := h.ranked
    refine ⟨rank, fun n hn c hc => ?_⟩
    rw [inTree_inRange] at hn
    rw [inRange_child] at hc
    exact hrk n hn c hc

end Adjust

/-- The last address of a range of some bytes, as a 32-bit word. -/
def lastOf (start size : ℕ) : ℕ := sub32 (add32 start size) 1

theorem le_lastOf_iff {start size : ℕ} (hst : start < 2 ^ 32) (hsz : size < 2 ^ 32) :
    start ≤ lastOf start size ↔ 1 ≤ size ∧ start + size ≤ 2 ^ 32 ∨ start = 0 ∧ size = 0 := by
  rw [lastOf, sub32, add32]
  omega

theorem adjustResource_eq {s : Heap} {p res : ℕ} (hp : (s res).parent = some p) (start size : ℕ) :
    adjustResource s res start size = if adjustChecks s p res start (lastOf start size) then
        some (0, inRange s res start (lastOf start size)) else some (ebusy, s) := by
  rw [adjustResource]
  split
  · rename_i hno
    rw [hp] at hno
    cases hno
  rename_i q hq
  rw [hp] at hq
  cases hq
  rfl

/-- **Adjusting a resource.** The tree is well formed after a call that succeeds, and
unchanged after one that fails, exactly if the new range is not empty and does not wrap, or
is all of the address space, unless there is no room for it. -/
theorem adjustResource_wellFormed_iff (s : Heap) (root res start size : ℕ) (h : WellFormed s root)
    (hres : InTree s root res) (hne : res ≠ root) (hstart : start < 2 ^ 32)
    (hsize : size < 2 ^ 32) :
    ∃ p v s', (s res).parent = some p ∧ adjustResource s res start size = some (v, s') ∧
      (((v = 0 → WellFormed s' root) ∧ (v ≠ 0 → s' = s)) ↔
        (Room s p res start (lastOf start size) →
          1 ≤ size ∧ start + size ≤ 2 ^ 32 ∨ start = 0 ∧ size = 0)) := by
  obtain ⟨p, hp, hpar, hmem⟩ := h.1.parent_of_ne_root hres hne
  have hchecks := adjustChecks_iff (h.1.children p hp) hmem start (lastOf start size)
  have hcall := adjustResource_eq hpar start size
  by_cases hroom : Room s p res start (lastOf start size)
  · rw [if_pos (hchecks.2 hroom)] at hcall
    have hroot : inRange s res start (lastOf start size) root = s root := inRange_of_ne hne.symm
    have htree := tree_inRange_iff h.1 hp hmem hroom
    rw [le_lastOf_iff hstart hsize] at htree
    refine ⟨p, 0, _, hpar, hcall, ?_⟩
    simp [WellFormed, hroot, h.2, hroom, htree]
  · rw [if_neg (hchecks.not.2 hroom)] at hcall
    refine ⟨p, ebusy, s, hpar, hcall, ?_⟩
    simp [hroom, ebusy]

def oneChild : Heap := fun r =>
  if r = 0 then ⟨0, 99, none, [1]⟩ else ⟨10, 19, some 0, []⟩

theorem wellFormed_oneChild : WellFormed oneChild 0 := by
  refine ⟨⟨rfl, ?_, fun n => if n = 0 then 1 else 0, ?_⟩, by decide⟩
  · intro n _
    by_cases hn : n = 0
    · rw [hn]
      refine ⟨?_, ?_, ?_, ?_⟩ <;> simp [oneChild]
    · refine ⟨?_, ?_, ?_, ?_⟩ <;> simp [oneChild, hn]
  · intro n _ c hc
    by_cases hn : n = 0
    · simp_all [oneChild]
    · simp [oneChild, hn] at hc

theorem inTree_oneChild : InTree oneChild 0 1 := Relation.ReflTransGen.single (by simp [oneChild])

theorem adjustResource_wellFormed_oneChild :
    ∃ p v s', (oneChild 1).parent = some p ∧ adjustResource oneChild 1 5 10 = some (v, s') ∧
      (v = 0 → WellFormed s' 0) ∧ (v ≠ 0 → s' = oneChild) := by
  obtain ⟨p, v, s', hpar, hcall, hiff⟩ := adjustResource_wellFormed_iff oneChild 0 1 5 10
    wellFormed_oneChild inTree_oneChild (by decide) (by decide) (by decide)
  exact ⟨p, v, s', hpar, hcall, hiff.2 fun _ => Or.inl (by decide)⟩

/-- A size of 0 is accepted, and leaves a resource that ends before it starts. -/
theorem adjustResource_empty :
    ∃ s', adjustResource oneChild 1 5 0 = some (0, s') ∧ ¬ WellFormed s' 0 := by
  refine ⟨inRange oneChild 1 5 4, rfl, fun h => ?_⟩
  have hvalid := (h.1.children 0 Relation.ReflTransGen.refl).valid 1 (by decide)
  exact absurd hvalid (by decide)

end NestLinux.ResourceTree
