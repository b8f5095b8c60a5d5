import NestLinux.RadixTree.Map

/-!
# The tags of a radix tree

A slot has a bit for each tag. Below a node the bits aggregate: the bit of a slot that
points to a node is set when a bit of that node is, and a slot that holds nothing has no
bit set. The root is a slot like the others, with its tags in `gfp_mask`, so one
definition (`Exact`) covers a tree of any height together with the bit of the slot that
points to it, and every walk is shown to keep it.
-/

namespace NestLinux.RadixTree

open Lib Function Slot

variable {α : Type*} {t u : Tag} {h i height count j index : ℕ} {b b0 b1 : Bool}
  {tags : Tag → ℕ → Bool}

/-- The bit of the slot that an index leads to, in a tree that hangs from a slot with bit
`b`. -/
def itemTag (t : Tag) (index : ℕ) : ℕ → Bool → Slot α → Bool
  | 0, b, _ => b
  | h + 1, _, s => itemTag t index h (s.tag t (offset index h)) (s.child (offset index h))

/-- The bits of a tree aggregate, together with the bit `b` of the slot it hangs from. -/
def Exact (t : Tag) : ℕ → Bool → Slot α → Prop
  | 0, b, s => b = true → InUse s
  | h + 1, b, s => b = s.anyTagSet t ∧ ∀ i < mapSize, Exact t h (s.tag t i) (s.child i)

variable {s : Slot α} {root : Root α}

theorem anyTagSet_iff : s.anyTagSet t = true ↔ ∃ i < mapSize, s.tag t i = true := by
  simp only [anyTagSet, List.any_eq_true, List.mem_range]

/-- The bits of one tag are not those of another. -/
theorem exact_update_tags {bits : ℕ → Bool} {slots : ℕ → Slot α} (htu : t ≠ u) :
    Exact t (h + 1) b (.node height count (update tags u bits) slots) ↔
      Exact t (h + 1) b (.node height count tags slots) := by
  simp only [Exact, anyTagSet, tag, update_of_ne htu]
  rfl

@[simp] theorem anyTagSet_newNode : (newNode α h).anyTagSet t = false := by
  simp [anyTagSet, tag, newNode]

theorem exact_null_iff : Exact t h b (.null : Slot α) ↔ b = false := by
  induction h generalizing b with
  | zero => simp [Exact]
  | succ h ih =>
    constructor
    · exact fun he => he.1
    · exact fun hb => ⟨hb, fun i _ => ih.2 rfl⟩

theorem exact_newNode : Exact t (h + 1) false (newNode α (h + 1)) :=
  ⟨(anyTagSet_newNode).symm, fun _ _ => exact_null_iff.2 rfl⟩

/-- One slot of a node and its bit are written. -/
theorem exact_update {bits : ℕ → Bool} {slots : ℕ → Slot α}
    {c : Slot α} (hs : ∀ j < mapSize, Exact t h (bits j) (slots j)) (hc : Exact t h b c) :
    ∀ j < mapSize, Exact t h (update bits i b j) (update slots i c j) := by
  intro j hj
  by_cases hji : j = i
  · rw [hji, update_self, update_self]
    exact hc
  rw [update_of_ne hji, update_of_ne hji]
  exact hs j hj

theorem Exact.slots {slots : ℕ → Slot α} (he : Exact t (h + 1) b (.node height count tags slots)) :
    ∀ i < mapSize, Exact t h (tags t i) (slots i) := he.2

/-- One slot of a node is written, and its bit stays. -/
theorem Exact.put {count' : ℕ} {slots : ℕ → Slot α} {c : Slot α}
    (he : Exact t (h + 1) b (.node height count tags slots)) (hc : Exact t h (tags t i) c) :
    Exact t (h + 1) b (.node height count' tags (update slots i c)) := by
  refine ⟨he.1, ?_⟩
  have hsl := exact_update (i := i) he.slots hc
  rw [update_eq_self] at hsl
  exact hsl

/-! ## What the bits say -/

theorem itemTag_congr (hij : Agree h i j) (b : Bool) (s : Slot α) :
    itemTag t i h b s = itemTag t j h b s := by
  induction h generalizing b s with
  | zero => rfl
  | succ h ih =>
    have hd := agree_succ_iff.1 hij
    rw [itemTag, hd.1]
    exact ih hd.2 _ _

theorem Exact.lookup_isSome (hs : Sound h s) (he : Exact t h b s)
    (ht : itemTag t index h b s = true) : (lookupWalk index h s).isSome = true := by
  induction h generalizing b s with
  | zero =>
    have huse := he ht
    cases hs with
    | inl hnl => exact absurd hnl (inUse_iff.1 huse)
    | inr hit =>
      obtain ⟨a, rfl⟩ := hit
      rfl
  | succ h ih =>
    by_cases hne : InUse s
    · obtain ⟨count, tags, slots, rfl, hn⟩ := hs.node hne
      exact ih (hn.slot _ (offset_lt index h)) (he.2 _ (offset_lt index h)) ht
    rw [inUse_iff, not_not] at hne
    subst hne
    exact ih (sound_null) (he.2 _ (offset_lt index h)) ht

/-- An item that carries a tag has it aggregated above it. -/
theorem Exact.eq_true_of_itemTag (he : Exact t h b s) (ht : itemTag t index h b s = true) :
    b = true := by
  induction h generalizing b s with
  | zero => exact ht
  | succ h ih =>
    have ho := offset_lt index h
    rw [he.1, anyTagSet_iff]
    exact ⟨_, ho, ih (he.2 _ ho) ht⟩

theorem offset_add (hi : i < mapSize) (hj : j < mapSize ^ h) :
    offset (i * mapSize ^ h + j) h = i := by
  have hp : 0 < mapSize ^ h := Nat.pow_pos mapSize_pos
  rw [offset, mul_comm, Nat.mul_add_div hp, Nat.div_eq_of_lt hj, add_zero, Nat.mod_eq_of_lt hi]

theorem agree_add (h i j : ℕ) : Agree h (i * mapSize ^ h + j) j := by
  rw [Agree, mul_comm, Nat.mul_add_mod]

/-- A bit that is set is there for an item. -/
theorem Exact.exists_itemTag (he : Exact t h b s)
    (hb : b = true) : ∃ index < mapSize ^ h, itemTag t index h b s = true := by
  induction h generalizing b s with
  | zero => exact ⟨0, by decide, hb⟩
  | succ h ih =>
    rw [he.1, anyTagSet_iff] at hb
    obtain ⟨i, hi, ht⟩ := hb
    obtain ⟨j, hj, hit⟩ := ih (he.2 i hi) ht
    refine ⟨i * mapSize ^ h + j, ?_, ?_⟩
    · calc i * mapSize ^ h + j < i * mapSize ^ h + mapSize ^ h := Nat.add_lt_add_left hj _
        _ = (i + 1) * mapSize ^ h := by rw [add_mul, one_mul]
        _ ≤ mapSize * mapSize ^ h := Nat.mul_le_mul_right _ hi
        _ = mapSize ^ (h + 1) := by rw [pow_succ, mul_comm]
    · rw [itemTag, offset_add hi hj, itemTag_congr (agree_add h i j)]
      exact hit

/-! ## Insert -/

theorem insertWalk_exact (alloc : ℕ → Bool) (a : α) (hs : Sound h s)
    (he : Exact t h b s) : Exact t h b (insertWalk alloc index a h s).2 := by
  induction h generalizing b s with
  | zero =>
    intro hb
    exact (insertWalk_spec alloc index a hs).2.1 (he hb)
  | succ h ih =>
    rw [insertWalk]
    by_cases hfl : s.isNull && !alloc (h + 1)
    · rw [if_pos hfl]
      exact he
    rw [if_neg hfl]
    have ho := offset_lt index h
    by_cases hnl : s.isNull = true
    · rw [if_pos hnl]
      rw [isNull_iff.1 hnl, exact_null_iff] at he
      rw [he]
      exact (exact_newNode).put (ih (sound_null) (exact_null_iff.2 rfl))
    · obtain ⟨count, tags, slots, rfl, hn⟩ := hs.node (by simpa [InUse] using hnl)
      exact he.put (ih (hn.slot _ ho) (he.2 _ ho))

/-- The check of the tags of a slot that an item was stored in passes. -/
theorem checkTags_insertWalk_ne_bug (alloc : ℕ → Bool) (a : α) (h0 : Exact 0 0 b0 s)
    (h1 : Exact 1 0 b1 s) : checkTags (insertWalk alloc index a 0 s).1 b0 b1 ≠ .bug := by
  cases s with
  | null =>
    rw [exact_null_iff] at h0 h1
    simp [h0, h1, insertWalk, checkTags, isNull]
  | item | node => simp [insertWalk, checkTags, isNull]

theorem insertWalk_ne_bug (alloc : ℕ → Bool) (a : α)
    (h0 : Exact 0 h b0 s) (h1 : Exact 1 h b1 s) : (insertWalk alloc index a h s).1 ≠ .bug := by
  induction h generalizing b0 b1 s with
  | zero =>
    rw [insertWalk]
    split_ifs <;> simp
  | succ h ih =>
    rw [insertWalk]
    by_cases hfl : s.isNull && !alloc (h + 1)
    · rw [if_pos hfl]
      simp
    rw [if_neg hfl]
    simp only
    have ho := offset_lt index h
    have hnd {t : Tag} {b : Bool} (he : Exact t (h + 1) b s) : Exact t h
        ((if s.isNull then newNode α (h + 1) else s).tag t (offset index h))
        ((if s.isNull then newNode α (h + 1) else s).child (offset index h)) := by
      split_ifs
      · exact exact_newNode.2 _ ho
      · exact he.2 _ ho
    cases h with
    | zero =>
      exact checkTags_insertWalk_ne_bug alloc a (hnd h0) (hnd h1)
    | succ h =>
      exact ih (hnd h0) (hnd h1)

/-! ## Setting a tag -/

/-- One slot of a node is written, and a bit of it set. -/
theorem Exact.setBit {slots : ℕ → Slot α} {c : Slot α} (hi : i < mapSize)
    (he : Exact t (h + 1) b (.node height count tags slots))
    (hc : Exact t h (if t = u then true else tags t i) c) :
    Exact t (h + 1) (if t = u then true else b)
      (.node height count (update tags u (update (tags u) i true)) (update slots i c)) := by
  by_cases htu : t = u
  · subst htu
    rw [if_pos rfl] at hc ⊢
    refine ⟨?_, ?_⟩
    · rw [eq_comm, anyTagSet_iff]
      exact ⟨i, hi, by simp [tag]⟩
    simp only [tag, update_self]
    exact exact_update he.2 hc
  rw [if_neg htu] at hc ⊢
  exact (exact_update_tags htu).2 (he.put hc)

theorem setWalk_node (slots : ℕ → Slot α) :
    setWalk index u (h + 1) (.node height count tags slots) =
      if (slots (offset index h)).isNull then none
      else match setWalk index u h (slots (offset index h)) with
        | none => none
        | some c => some (.node height count (update tags u (update (tags u) (offset index h) true))
            (update slots (offset index h) c)) := rfl

/-- **Setting a tag** of an item that is there. -/
theorem setWalk_spec (hs : Sound h s) (hit : lookupWalk index h s ≠ none) :
    ∃ s', setWalk index u h s = some s' ∧ SameItems h s s' ∧
      ∀ t b, Exact t h b s → Exact t h (if t = u then true else b) s' := by
  induction h generalizing s with
  | zero =>
    refine ⟨s, rfl, SameItems.refl 0 s, ?_⟩
    intro t b _ _
    cases hs with
    | inl hnl =>
      rw [hnl] at hit
      exact absurd rfl hit
    | inr hso =>
      obtain ⟨a, rfl⟩ := hso
      exact inUse_item
  | succ h ih =>
    obtain ⟨count, tags, slots, rfl, hn, hch⟩ := hs.node_of_lookup hit
    have ho := offset_lt index h
    obtain ⟨c, hst, hsm, hex⟩ := ih (hn.slot _ ho) hit
    refine ⟨.node (h + 1) count (update tags u (update (tags u) (offset index h) true))
      (update slots (offset index h) c), ?_, hsm.node ho, ?_⟩
    · rw [setWalk_node, hch, hst]
      rfl
    intro t b he
    exact he.setBit ho (hex t _ (he.2 _ ho))

/-! ## Clearing a tag -/

/-- **Clearing a tag.** Where the walk gets to the top of the tree, the bit above it is to be
cleared too. The tag of the item is clear after that, and the other tags of it stay. -/
theorem clearWalk_spec (index : ℕ) (u : Tag) (hs : Sound h s) (he : Exact t h b s) :
    let b' := if t = u ∧ (clearWalk index u h s).2 = true then false else b
    Exact t h b' (clearWalk index u h s).1 ∧ itemTag t index h b' (clearWalk index u h s).1 =
      if t = u then false else itemTag t index h b s := by
  induction h generalizing b s with
  | zero =>
    refine ⟨fun hb => he ?_, by simp [clearWalk, itemTag]⟩
    split_ifs at hb
    exact hb
  | succ h ih =>
    by_cases hne : InUse s
    · obtain ⟨count, tags, slots, rfl, hn⟩ := hs.node hne
      have ho := offset_lt index h
      obtain ⟨hch, hit⟩ := ih (hn.slot _ ho) (he.slots _ ho)
      dsimp only
      rw [clearWalk_node rfl, itemTag, itemTag]
      simp only [tag, child]
      rw [← hit]
      rcases hc : clearWalk index u h (slots (offset index h)) with ⟨c, up⟩
      rw [hc] at hch
      by_cases hup : (up && tags u (offset index h)) = true
      · rw [if_pos hup]
        rw [Bool.and_eq_true] at hup
        by_cases htu : t = u
        · subst htu
          rw [if_pos ⟨rfl, hup.1⟩] at hch
          have hsl := exact_update (i := offset index h) he.slots hch
          refine ⟨⟨?_, by simpa only [tag, child, update_self] using hsl⟩, by simp [hup.1]⟩
          -- the bit above was set, as that of the slot was
          have hb : b = true := by
            rw [he.1, anyTagSet_iff]
            exact ⟨_, ho, hup.2⟩
          rw [hb]
          cases hany : (node (h + 1) count (update tags t (update (tags t) (offset index h) false))
              (update slots (offset index h) c)).anyTagSet t <;> simp
        · rw [if_neg (fun hc => htu hc.1)] at hch ⊢
          exact ⟨(exact_update_tags htu).2 (he.put hch), by simp [htu]⟩
      · have hbt : (if t = u ∧ up = true then false else tags t (offset index h)) =
            tags t (offset index h) := by
          split_ifs with hcr
          · rw [hcr.1]
            simpa [hcr.2] using hup
          · rfl
        rw [if_neg hup]
        simp only [Bool.false_eq_true, and_false]
        rw [hbt] at hch ⊢
        exact ⟨he.put hch, by simp⟩
    · rw [inUse_iff, not_not] at hne
      subst hne
      have hff : itemTag t index (h + 1) b (.null : Slot α) = false := by
        by_contra hc
        have hso := he.lookup_isSome (sound_null) (Bool.not_eq_false _ ▸ hc)
        rw [lookupWalk_null] at hso
        cases hso
      simpa [clearWalk_null, hff] using he

/-! ## Delete -/

/-- **Unlinking** an item whose tags are clear. -/
theorem unlinkWalk_exact (hs : Sound h s) (hit : lookupWalk index h s ≠ none) (he : Exact t h b s)
    (ht : itemTag t index h b s = false) : Exact t h b (unlinkWalk index h s).1 := by
  induction h generalizing b s with
  | zero => exact exact_null_iff.2 ht
  | succ h ih =>
    obtain ⟨count, tags, slots, rfl, hn, huse⟩ := hs.node_of_lookup hit
    have ho := offset_lt index h
    have hch := ih (hn.slot _ ho) hit (he.2 _ ho) ht
    rw [unlinkWalk_node]
    by_cases hnl : (unlinkWalk index h (slots (offset index h))).1.isNull = true
    · rw [if_pos hnl]
      rw [isNull_iff.1 hnl] at hch
      by_cases hzr : count - 1 = 0
      · rw [if_pos hzr, exact_null_iff, he.1]
        have hoh (i : ℕ) (hi : i < mapSize) : tags t i = false := by
          by_cases hio : i = offset index h
          · rw [hio]
            exact exact_null_iff.1 hch
          have hsl : slots i = .null := by
            by_contra hc
            have hct : used InUse slots mapSize = 1 := by
              have hp : used InUse slots mapSize ≠ 0 := by
                intro hz
                exact (used_eq_zero_iff InUse slots mapSize).1 hz _ ho huse
              have := hn.count_eq
              omega
            exact hio (eq_of_used_eq_one InUse hct hi ho (inUse_iff.2 hc) huse)
          have hi' := he.2 i hi
          simp only [child, hsl] at hi'
          exact exact_null_iff.1 hi'
        by_contra hc
        obtain ⟨i, hi, hst⟩ := anyTagSet_iff.1 (Bool.not_eq_false _ ▸ hc)
        rw [tag, hoh i hi] at hst
        cases hst
      · rw [if_neg hzr]
        exact he.put hch
    · rw [if_neg hnl]
      exact he.put hch

/-- **Shrinking.** The only bits set at the top are those of the leftmost slot. -/
theorem radixTreeShrink_exact (hs : Sound h s) (hne : InUse s) (he : Exact t h b s) :
    Exact t (radixTreeShrink h s).1 b (radixTreeShrink h s).2 := by
  induction h generalizing s with
  | zero => exact he
  | succ h ih =>
    obtain ⟨count, tags, slots, rfl, hn⟩ := hs.node hne
    rw [radixTreeShrink_node]
    by_cases hst : count ≠ 1 ∨ (slots 0).isNull = true
    · rw [if_pos hst]
      exact he
    rw [if_neg hst]
    obtain ⟨hz, hnl⟩ := hn.only_first hst
    refine ih (hn.slot 0 mapSize_pos) hz ?_
    have hb : b = tags t 0 := by
      rw [he.1, Bool.eq_iff_iff, anyTagSet_iff]
      constructor
      · intro hse
        obtain ⟨i, hi, ht⟩ := hse
        by_cases hi0 : i = 0
        · rw [← hi0]
          exact ht
        have hi' := he.2 i hi
        simp only [child, hnl i hi hi0] at hi' ht
        rw [exact_null_iff.1 hi'] at ht
        cases ht
      · exact fun ht => ⟨0, mapSize_pos, ht⟩
    rw [hb]
    exact he.2 0 mapSize_pos

/-! ## The root -/

/-- The tags of a root aggregate. -/
def ExactRoot (root : Root α) : Prop := ∀ t, Exact t root.height (root.tags t) root.rnode

theorem exactRoot_empty : ExactRoot (emptyRoot α) := fun _ => exact_null_iff.2 rfl

theorem ExactRoot.extendLoop (he : ExactRoot root) (alloc : ℕ → Bool) (n : ℕ) :
    ExactRoot (extendLoop alloc n root).2 := by
  induction n generalizing root with
  | zero => exact he
  | succ n ih =>
    rw [RadixTree.extendLoop]
    split_ifs
    · refine ih ?_
      intro t
      refine ⟨?_, ?_⟩
      · rw [Bool.eq_iff_iff, anyTagSet_iff]
        simp only [tag, Bool.and_eq_true]
        constructor
        · exact fun ht => ⟨0, mapSize_pos, rfl, ht⟩
        intro hst
        obtain ⟨i, -, -, ht⟩ := hst
        exact ht
      · intro i _
        simp only [tag, child]
        by_cases hi : i = 0
        · subst hi
          simpa using he t
        · simp [hi, exact_null_iff]
    · exact he

theorem ExactRoot.extend (he : ExactRoot root) (alloc : ℕ → Bool) (index : ℕ) :
    ExactRoot (radixTreeExtend alloc root index).2 := by
  unfold radixTreeExtend
  by_cases hnl : root.rnode.isNull = true
  · intro t
    have hrd := isNull_iff.1 hnl
    have ht := he t
    rw [hrd, exact_null_iff] at ht
    simp only [hrd]
    exact exact_null_iff.2 ht
  · simp only [hnl]
    exact he.extendLoop alloc _

/-- **Insert** keeps the tags exact, and none of its checks of the tags fails. -/
theorem ExactRoot.insert (hr : SoundRoot root) (he : ExactRoot root)
    (alloc : Allocs) (hi : index < 2 ^ 32) (a : α) :
    ExactRoot (radixTreeInsert alloc root index a).2 ∧
      (radixTreeInsert alloc root index a).1 ≠ .bug := by
  unfold radixTreeInsert
  generalize hdef : (if radixTreeMaxindex root.height < index then
    radixTreeExtend alloc.extend root index else (true, root)) = e
  have hsc := hr.fit hi hdef
  have hex : ExactRoot e.2 := by
    subst hdef
    split_ifs
    · exact he.extend alloc.extend index
    · exact he
  cases hok : e.1 with
  | false =>
    simp only [hok]
    exact ⟨hex, by simp⟩
  | true =>
    simp only [hok]
    refine ⟨fun t => insertWalk_exact alloc.walk a hsc.1.sound (hex t), ?_⟩
    have h0 := hex 0
    have h1 := hex 1
    cases hht : e.2.height with
    | zero =>
      rw [hht] at h0 h1
      exact checkTags_insertWalk_ne_bug alloc.walk a h0 h1
    | succ h =>
      rw [hht] at h0 h1
      exact insertWalk_ne_bug alloc.walk a h0 h1

/-- **Setting a tag** of an item that is there. -/
theorem ExactRoot.tagSet (hr : SoundRoot root) (he : ExactRoot root)
    (hi : index < 2 ^ 32) (hit : rootMap root index ≠ none) (u : Tag) :
    ∃ root', radixTreeTagSet root index u = some root' ∧ SoundRoot root' ∧ ExactRoot root' ∧
      ∀ j, rootMap root' j = rootMap root j := by
  have hf : index < mapSize ^ root.height := by
    by_contra hc
    exact hit (if_neg hc)
  rw [rootMap, if_pos hf] at hit
  obtain ⟨s', hst, hsm, hex⟩ := setWalk_spec hr.sound hit
  have huse : s'.isNull = false := by
    refine hsm.inUse.2 ?_
    rw [inUse_iff]
    intro hnl
    rw [hnl, lookupWalk_null] at hit
    exact hit rfl
  unfold radixTreeTagSet
  rw [if_neg (by rw [maxindex_lt_iff hi]; omega), hst]
  refine ⟨_, rfl, ⟨hr.height_le, hsm.sound hr.sound⟩, ?_, ?_⟩
  · intro t
    have ht := hex t _ (he t)
    by_cases htu : t = u
    · subst htu
      simpa [huse] using ht
    · simpa [huse, htu] using ht
  · intro j
    simp only [rootMap, hsm.lookup]

theorem clearedTags (up : Bool) (tags : Tag → Bool) (u t : Tag) :
    (if up then update tags u false else tags) t = if t = u ∧ up = true then false else tags t := by
  cases up <;> simp [update_apply]

/-- **Clearing a tag.** -/
theorem ExactRoot.tagClear (hr : SoundRoot root) (he : ExactRoot root) (index : ℕ)
    (u : Tag) : ExactRoot (radixTreeTagClear root index u).2 := by
  unfold radixTreeTagClear
  split_ifs
  · exact he
  split
  · exact he
  intro t
  simp only [clearedTags]
  exact (clearWalk_spec index u hr.sound (he t)).1

theorem leafTag_eq_itemTag (index : ℕ) (t : Tag) (h : ℕ) (b : Bool) (s : Slot α) :
    leafTag index t (h + 1) s = itemTag t index (h + 1) b s := by
  induction h generalizing b s with
  | zero => rfl
  | succ h ih =>
    rw [itemTag]
    exact ih _ _

section

variable (hr : SoundRoot root) (he : ExactRoot root) (hi : index < 2 ^ 32)

include hr he hi

section

variable (hf : index < mapSize ^ root.height) (hp : root.height ≠ 0)
  (hit : lookupWalk index root.height root.rnode ≠ none)

include hf hp hit

/-- Clearing a tag of an item that is there, if it has it. -/
theorem ExactRoot.clearIfTagged (u : Tag) : ExactRoot (clearIfTagged index root u) ∧
      ∀ t, itemTag t index root.height ((clearIfTagged index root u).tags t)
          (clearIfTagged index root u).rnode =
        if t = u then false else itemTag t index root.height (root.tags t) root.rnode := by
  obtain ⟨h, hh⟩ := Nat.exists_eq_succ_of_ne_zero hp
  unfold RadixTree.clearIfTagged
  have hlf := leafTag_eq_itemTag index u h (root.tags u) root.rnode
  rw [← Nat.succ_eq_add_one, ← hh] at hlf
  by_cases ht : leafTag index u root.height root.rnode = true
  · rw [if_pos ht]
    refine ⟨he.tagClear hr index u, ?_⟩
    intro t
    rw [← (clearWalk_spec index u hr.sound (he t)).2]
    unfold radixTreeTagClear
    rw [if_neg (by rw [maxindex_lt_iff hi]; omega)]
    obtain ⟨a, ha⟩ := Option.ne_none_iff_exists'.1 hit
    rw [ha]
    simp only [clearedTags]
  · rw [if_neg ht]
    refine ⟨he, ?_⟩
    intro t
    by_cases htu : t = u
    · rw [htu, ← hlf]
      simpa using ht
    · rw [if_neg htu]

/-- An item that is deleted has no tag left. -/
theorem ExactRoot.clearAllTags : ExactRoot (clearAllTags index root) ∧
      ∀ t, itemTag t index root.height ((clearAllTags index root).tags t)
        (clearAllTags index root).rnode = false := by
  have hs0 := hr.clearIfTagged index 0
  have hs1 := hs0.trans (hs0.sound.clearIfTagged index 1)
  have h0 := he.clearIfTagged hr hi hf hp hit 0
  have h1 := h0.1.clearIfTagged hs0.sound hi (by rwa [hs0.height_eq]) (by rwa [hs0.height_eq])
    (by rwa [hs0.height_eq, hs0.lookup]) 1
  have h2 := h1.1.clearIfTagged hs1.sound hi (by rwa [hs1.height_eq]) (by rwa [hs1.height_eq])
    (by rwa [hs1.height_eq, hs1.lookup]) 2
  refine ⟨h2.1, ?_⟩
  intro t
  have e1 := h1.2 t
  have e2 := h2.2 t
  rw [hs0.height_eq, h0.2 t] at e1
  rw [hs1.height_eq, e1] at e2
  have ha : ∀ u : Tag, u = 0 ∨ u = 1 ∨ u = 2 := by decide
  rw [RadixTree.clearAllTags, e2]
  rcases ha t with rfl | rfl | rfl <;> rfl

end

/-- **Delete** keeps the tags exact. -/
theorem ExactRoot.delete : ExactRoot (radixTreeDelete root index).2 := by
  unfold radixTreeDelete
  by_cases hb : radixTreeMaxindex root.height < index
  · rw [if_pos hb]
    exact he
  rw [if_neg hb]
  rw [maxindex_lt_iff hi] at hb
  by_cases hz : root.height = 0
  · rw [if_pos hz]
    exact exactRoot_empty
  rw [if_neg hz]
  cases hit : lookupWalk index root.height root.rnode with
  | none => exact he
  | some a =>
    have hne : lookupWalk index root.height root.rnode ≠ none := by simp [hit]
    have hsd := hr.clearAllTags index
    have hex := he.clearAllTags hr hi (by omega) hz hne
    simp only
    generalize RadixTree.clearAllTags index root = root1 at hsd hex ⊢
    rw [← hsd.height_eq] at hex
    have hit1 : lookupWalk index root1.height root1.rnode ≠ none := by
      rw [hsd.height_eq, hsd.lookup]
      exact hne
    have hun := unlinkWalk_spec hsd.sound.sound hit1
    have htg (t : Tag) := unlinkWalk_exact hsd.sound.sound hit1 (hex.1 t) (hex.2 t)
    by_cases hfrd : (unlinkWalk index root1.height root1.rnode).1.isNull = true
    · rw [if_pos hfrd]
      exact exactRoot_empty
    split_ifs
    · intro t
      exact radixTreeShrink_exact hun.1 (by simpa [InUse] using hfrd) (htg t)
    · exact htg

end

end NestLinux.RadixTree
