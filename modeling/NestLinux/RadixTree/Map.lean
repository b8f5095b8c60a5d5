import NestLinux.RadixTree.Model
import NestLinux.Lib.Slots

/-!
# The radix tree as a map

What a tree of some height maps an index to is what the walk of a lookup finds, and it
depends on the low digits of the index only. A tree is sound when every node knows its
height and counts the slots in use (`Sound`). An insertion that fails half way leaves
nodes with no slot in use, so a slot in use need not have an item below it.
-/

namespace NestLinux.RadixTree

open Lib Function

variable {α : Type*} {h count i j height count' index n : ℕ} {tags : Tag → ℕ → Bool}
  {r : InsertResult}

/-! ## Sound trees -/

def InUse (s : Slot α) : Prop := s.isNull = false

instance : DecidablePred (InUse (α := α)) := fun s => inferInstanceAs (Decidable (s.isNull = false))

@[simp] theorem not_inUse_null : ¬ InUse (.null : Slot α) := by simp [InUse, Slot.isNull]

@[simp] theorem inUse_item : InUse (.item a) := rfl

@[simp] theorem inUse_node (h c : ℕ) :
    InUse (.node h c tags slots) := rfl

variable {s c s' : Slot α} {slots : ℕ → Slot α} {a : α} {root : Root α}

theorem inUse_iff : InUse s ↔ s ≠ .null := by
  cases s <;> simp

theorem isNull_iff : s.isNull = true ↔ s = .null := by
  cases s <;> simp [Slot.isNull]

/-- A tree of height `h`: at height 0 an item, above it a node that knows its height and
counts its slots in use, or null. -/
def Sound : ℕ → Slot α → Prop
  | 0, s => s = .null ∨ ∃ a, s = .item a
  | h + 1, s => s = .null ∨ ∃ count tags slots, s = .node (h + 1) count tags slots ∧
      count = used InUse slots mapSize ∧ ∀ i < mapSize, Sound h (slots i)

theorem sound_null : Sound h (.null : Slot α) := by
  cases h <;> exact .inl rfl

structure SoundNode (h count : ℕ) (slots : ℕ → Slot α) : Prop where
  count_eq : count = used InUse slots mapSize
  slot : ∀ i < mapSize, Sound h (slots i)

theorem SoundNode.sound (hn : SoundNode h count slots)
    (tags : Tag → ℕ → Bool) : Sound (h + 1) (.node (h + 1) count tags slots) :=
  .inr ⟨count, tags, slots, rfl, hn.count_eq, hn.slot⟩

theorem Sound.node (hs : Sound (h + 1) s) (hne : InUse s) :
    ∃ count tags slots, s = .node (h + 1) count tags slots ∧ SoundNode h count slots := by
  cases hs with
  | inl hnl => exact absurd hnl (inUse_iff.1 hne)
  | inr hnd =>
    obtain ⟨count, tags, slots, heq, hc, hsl⟩ := hnd
    exact ⟨count, tags, slots, heq, hc, hsl⟩

theorem mapSize_pos : 0 < mapSize := by decide

theorem offset_lt (index h : ℕ) : offset index h < mapSize := digit_lt mapSize_pos h index

theorem soundNode_newNode : SoundNode h 0 (fun _ => (.null : Slot α)) := by
  refine ⟨?_, fun i _ => sound_null⟩
  rw [eq_comm, used_eq_zero_iff]
  intro i _
  exact not_inUse_null

/-! ## Lookup -/

@[simp] theorem lookupWalk_null : lookupWalk index h (.null : Slot α) = none := by
  induction h with
  | zero => rfl
  | succ h ih => exact ih

@[simp] theorem lookupWalk_node
    : lookupWalk index (h + 1) (.node height count tags slots) =
      lookupWalk index h (slots (offset index h)) := rfl

/-- Two indices with the same low digits. -/
def Agree (h i j : ℕ) : Prop := i % mapSize ^ h = j % mapSize ^ h

instance (h i j : ℕ) : Decidable (Agree h i j) := inferInstanceAs (Decidable (_ = _))

theorem agree_succ_iff : Agree (h + 1) i j ↔ offset i h = offset j h ∧ Agree h i j :=
  mod_pow_succ_eq_iff mapSize_pos

theorem agree_zero : Agree 0 i j := by simp [Agree, Nat.mod_one]

theorem lookupWalk_update :
    lookupWalk j (h + 1) (.node height count tags (update slots (offset i h) c)) =
      if offset i h = offset j h then lookupWalk j h c
      else lookupWalk j h (slots (offset j h)) := by
  rw [lookupWalk_node]
  by_cases hij : offset i h = offset j h
  · rw [if_pos hij, hij, update_self]
  · rw [if_neg hij, update_of_ne (Ne.symm hij)]

/-- One slot of a node is written with a tree that maps the index to `v`. -/
theorem lookupWalk_write {v : Option α} (hc : ∀ j, lookupWalk j h c =
      if Agree h i j then v else lookupWalk j h (slots (offset i h))) :
    lookupWalk j (h + 1) (.node height count' tags (update slots (offset i h) c)) =
      if Agree (h + 1) i j then v
      else lookupWalk j (h + 1) (.node height count tags slots) := by
  rw [lookupWalk_update]
  by_cases hij : offset i h = offset j h
  · rw [hc]
    simp [agree_succ_iff, hij]
  rw [if_neg hij, lookupWalk_node, if_neg]
  exact fun hag => hij (agree_succ_iff.1 hag).1

theorem lookupWalk_same {tags' : Tag → ℕ → Bool}
    (hc : ∀ j, lookupWalk j h c = lookupWalk j h (slots i)) :
    lookupWalk j (h + 1) (.node height count' tags' (update slots i c)) =
      lookupWalk j (h + 1) (.node height count tags slots) := by
  rw [lookupWalk_node, lookupWalk_node]
  by_cases hij : offset j h = i
  · rw [hij, update_self, hc]
  · rw [update_of_ne hij]

/-! ## Insert -/

/-- A slot of a sound node is written: what the node must count then. -/
theorem SoundNode.update (hn : SoundNode h count slots) (hi : i < mapSize) (hc : Sound h c)
    (hct : count' + (if InUse (slots i) then 1 else 0) = count + if InUse c then 1 else 0) :
    SoundNode h count' (update slots i c) := by
  refine ⟨?_, forall_update hc hn.slot⟩
  have hus := used_update InUse hi c (f := slots)
  have := hn.count_eq
  omega

/-- What an insertion does to a tree, by its result. -/
def Inserted (h index : ℕ) (a : α) (s s' : Slot α) : InsertResult → Prop
  | .ok | .bug => lookupWalk index h s = none ∧
      ∀ j, lookupWalk j h s' = if Agree h index j then some a else lookupWalk j h s
  | .eexist => lookupWalk index h s ≠ none ∧ ∀ j, lookupWalk j h s' = lookupWalk j h s
  | .enomem => lookupWalk index h s = none ∧ ∀ j, lookupWalk j h s' = lookupWalk j h s

/-- An insertion into one slot of a node is one into the node. -/
theorem Inserted.node (hi : Inserted h index a (slots (offset index h)) c r) :
    Inserted (h + 1) index a (.node height count tags slots)
      (.node height count' tags (update slots (offset index h) c)) r := by
  cases r with
  | ok | bug => exact ⟨hi.1, fun _ => lookupWalk_write hi.2⟩
  | eexist | enomem => exact ⟨hi.1, fun _ => lookupWalk_same hi.2⟩

theorem Inserted.congr {s1 s2 : Slot α} (heq : ∀ j, lookupWalk j h s1 = lookupWalk j h s2)
    (hi : Inserted h index a s1 s' r) : Inserted h index a s2 s' r := by
  cases r with
  | ok | bug | eexist | enomem =>
    simp only [Inserted, heq] at hi
    exact hi

/-- The check of the tags does not change what was stored. -/
theorem Inserted.checkTags (hi : Inserted h index a s s' r) (c : Prop) [Decidable c]
    (tag0 tag1 : Bool) : Inserted h index a s s' (if c then checkTags r tag0 tag1 else r) := by
  unfold RadixTree.checkTags
  split_ifs with _ hbug
  · rw [hbug.1] at hi
    exact hi
  · exact hi
  · exact hi

/-- **The walk of an insertion.** The tree stays sound, and the index is mapped to the item,
or nothing changes. -/
theorem insertWalk_spec (alloc : ℕ → Bool) (index : ℕ) (a : α) (hs : Sound h s) :
    Sound h (insertWalk alloc index a h s).2 ∧ (InUse s → InUse (insertWalk alloc index a h s).2) ∧
      Inserted h index a s (insertWalk alloc index a h s).2 (insertWalk alloc index a h s).1 := by
  induction h generalizing s with
  | zero =>
    cases hs with
    | inl hnl =>
      subst hnl
      refine ⟨.inr ⟨a, rfl⟩, fun _ => rfl, rfl, ?_⟩
      intro j
      rw [if_pos (agree_zero)]
      rfl
    | inr hit =>
      obtain ⟨b, rfl⟩ := hit
      exact ⟨.inr ⟨b, rfl⟩, fun _ => rfl, by simp [lookupWalk, Slot.item?], fun j => rfl⟩
  | succ h ih =>
    rw [insertWalk]
    by_cases hfl : s.isNull && !alloc (h + 1)
    · rw [if_pos hfl]
      rw [Bool.and_eq_true, isNull_iff] at hfl
      rw [hfl.1]
      exact ⟨sound_null, fun hu => hu, by simp, fun j => rfl⟩
    rw [if_neg hfl]
    -- the node to go through, new or not, holds what the slot did
    obtain ⟨count, tags, slots, hnd, hn, hlk⟩ :
        ∃ count tags slots, (if s.isNull then newNode α (h + 1) else s) =
          .node (h + 1) count tags slots ∧ SoundNode h count slots ∧
          ∀ j, lookupWalk j (h + 1) (.node (h + 1) count tags slots) =
            lookupWalk j (h + 1) s := by
      by_cases hnl : s.isNull
      · refine ⟨0, _, _, if_pos hnl, soundNode_newNode, ?_⟩
        simp [isNull_iff.1 hnl]
      · obtain ⟨count, tags, slots, heq, hn⟩ := hs.node (by simpa [InUse] using hnl)
        exact ⟨count, tags, slots, (if_neg hnl).trans heq, hn, fun j => by rw [heq]⟩
    rw [hnd]
    have hsc := ih (hn.slot (offset index h) (offset_lt index h))
    simp only [Slot.child]
    rcases hr : insertWalk alloc index a h (slots (offset index h)) with ⟨r, c⟩
    rw [hr] at hsc
    refine ⟨(hn.update (offset_lt index h) hsc.1 ?_).sound tags, fun _ => rfl, ?_⟩
    · cases hold : (slots (offset index h)).isNull <;> cases hnew : c.isNull <;>
        simp_all [InUse]
    · exact Inserted.congr hlk (hsc.2.2.node.checkTags _ _ _)

/-! ## Delete -/

theorem unlinkWalk_node : unlinkWalk index (h + 1) (.node height count tags slots) =
      if (unlinkWalk index h (slots (offset index h))).1.isNull then
        if count - 1 = 0 then (.null, false)
        else (.node height (count - 1) tags (update slots (offset index h) .null), true)
      else (.node height count tags (update slots (offset index h)
        (unlinkWalk index h (slots (offset index h))).1), false) := rfl

theorem radixTreeShrink_node : radixTreeShrink (h + 1) (.node height count tags slots) =
      if count ≠ 1 ∨ (slots 0).isNull then (h + 1, .node height count tags slots)
      else radixTreeShrink h (slots 0) := rfl

/-- An index that has an item goes through a node, and a slot of it in use. -/
theorem Sound.node_of_lookup (hs : Sound (h + 1) s) (hit : lookupWalk index (h + 1) s ≠ none) :
    ∃ count tags slots, s = .node (h + 1) count tags slots ∧ SoundNode h count slots ∧
      InUse (slots (offset index h)) := by
  have hne : InUse s := by
    rw [inUse_iff]
    rintro rfl
    exact hit (lookupWalk_null)
  obtain ⟨count, tags, slots, rfl, hn⟩ := hs.node hne
  refine ⟨count, tags, slots, rfl, hn, ?_⟩
  rw [inUse_iff]
  intro hnl
  rw [lookupWalk_node, hnl, lookupWalk_null] at hit
  exact hit rfl

/-- **The walk of a deletion.** Where the index has an item, it is taken out, and a node is
freed exactly when that leaves no slot of it in use. -/
theorem unlinkWalk_spec (hs : Sound h s) (hit : lookupWalk index h s ≠ none) :
    Sound h (unlinkWalk index h s).1 ∧ ∀ j, lookupWalk j h (unlinkWalk index h s).1 =
        if Agree h index j then none else lookupWalk j h s := by
  induction h generalizing s with
  | zero =>
    refine ⟨sound_null, ?_⟩
    intro j
    rw [if_pos (agree_zero)]
    rfl
  | succ h ih =>
    obtain ⟨count, tags, slots, rfl, hn, hch⟩ := hs.node_of_lookup hit
    have ho := offset_lt index h
    have hsc := ih (hn.slot _ ho) hit
    rw [unlinkWalk_node]
    rcases hr : unlinkWalk index h (slots (offset index h)) with ⟨c, stop⟩
    rw [hr] at hsc
    by_cases hnl : c.isNull = true
    · obtain rfl := isNull_iff.1 hnl
      have hct : count - 1 + (if InUse (slots (offset index h)) then 1 else 0) =
          count + if InUse (.null : Slot α) then 1 else 0 := by
        have hp : 0 < count := by
          rw [hn.count_eq]
          refine pos_of_ne_zero ?_
          intro hz
          exact (used_eq_zero_iff InUse slots mapSize).1 hz _ ho hch
        simp only [hch, if_true, not_inUse_null, if_false]
        omega
      have hn' := hn.update ho (sound_null) hct
      simp only [Slot.isNull, if_true]
      by_cases hz : count - 1 = 0
      · rw [if_pos hz]
        refine ⟨sound_null, ?_⟩
        intro j
        have hno : lookupWalk j (h + 1)
            (.node (h + 1) (count - 1) tags (update slots (offset index h) .null)) = none := by
          have he := (used_eq_zero_iff InUse _ mapSize).1 (hn'.count_eq.symm.trans hz)
          have hj := he (offset j h) (offset_lt j h)
          rw [inUse_iff, not_not] at hj
          rw [lookupWalk_node, hj, lookupWalk_null]
        rw [lookupWalk_null, ← lookupWalk_write hsc.2, hno]
      · rw [if_neg hz]
        exact ⟨hn'.sound tags, fun _ => lookupWalk_write hsc.2⟩
    · simp only [hnl]
      refine ⟨(hn.update ho hsc.1 ?_).sound tags, fun _ => lookupWalk_write hsc.2⟩
      have hc : InUse c := by simpa [InUse] using hnl
      simp [hch, hc]

/-- A node that the loop passes has one slot in use, the first. -/
theorem SoundNode.only_first (hn : SoundNode h count slots)
    (hst : ¬ (count ≠ 1 ∨ (slots 0).isNull = true)) :
    InUse (slots 0) ∧ ∀ i < mapSize, i ≠ 0 → slots i = .null := by
  have hz : InUse (slots 0) := by simpa [InUse] using fun hc => hst (.inr hc)
  have ho := not_not.1 fun hc => hst (.inl hc)
  refine ⟨hz, fun i hi hne => ?_⟩
  by_contra hc
  exact hne (eq_of_used_eq_one InUse (hn.count_eq.symm.trans ho) hi mapSize_pos
    (inUse_iff.2 hc) hz)

/-- What a tree maps an index to. -/
def treeMap (h : ℕ) (s : Slot α) (index : ℕ) : Option α :=
  if index < mapSize ^ h then lookupWalk index h s else none

/-- A node with no slot in use but the first maps what that slot does. -/
theorem treeMap_first (hnl : ∀ i < mapSize, i ≠ 0 → slots i = .null) :
    treeMap (h + 1) (.node height count tags slots) index = treeMap h (slots 0) index := by
  have hp : 0 < mapSize ^ h := Nat.pow_pos mapSize_pos
  have hpow : mapSize ^ h ≤ mapSize ^ (h + 1) := Nat.pow_le_pow_right mapSize_pos (Nat.le_succ _)
  unfold treeMap
  by_cases hl : index < mapSize ^ h
  · rw [if_pos hl, if_pos (by omega), lookupWalk_node, offset, Nat.div_eq_of_lt hl, Nat.zero_mod]
  rw [if_neg hl]
  by_cases hf : index < mapSize ^ (h + 1)
  · have hlt : index / mapSize ^ h < mapSize := by
      rw [Nat.div_lt_iff_lt_mul hp, mul_comm]
      exact hf
    have ho : offset index h ≠ 0 := by
      rw [offset, Nat.mod_eq_of_lt hlt]
      exact (Nat.div_pos (not_lt.1 hl) hp).ne'
    rw [if_pos hf, lookupWalk_node, hnl _ (offset_lt index h) ho, lookupWalk_null]
  · rw [if_neg hf]

/-- **Shrinking.** A tree whose only slot in use at the top is the leftmost one is the tree
below it, for the indices that fit. -/
theorem radixTreeShrink_spec {r : ℕ × Slot α} (hs : Sound h s) (hne : InUse s)
    (hr : radixTreeShrink h s = r) :
    Sound r.1 r.2 ∧ r.1 ≤ h ∧ ∀ j, treeMap r.1 r.2 j = treeMap h s j := by
  subst hr
  induction h generalizing s with
  | zero => exact ⟨hs, le_rfl, fun _ => rfl⟩
  | succ h ih =>
    obtain ⟨count, tags, slots, rfl, hn⟩ := hs.node hne
    rw [radixTreeShrink_node]
    by_cases hst : count ≠ 1 ∨ (slots 0).isNull = true
    · rw [if_pos hst]
      exact ⟨hs, le_rfl, fun _ => rfl⟩
    rw [if_neg hst]
    obtain ⟨hz, hnl⟩ := hn.only_first hst
    obtain ⟨hsound, hle, hmap⟩ := ih (hn.slot 0 mapSize_pos) hz
    exact ⟨hsound, by omega, fun j => (hmap j).trans (treeMap_first hnl).symm⟩

/-! ## Tags do not matter -/

/-- A tree with the same items, whatever its tags. -/
structure SameItems (h : ℕ) (s s' : Slot α) : Prop where
  sound : Sound h s → Sound h s'
  inUse : InUse s' ↔ InUse s
  lookup : ∀ j, lookupWalk j h s' = lookupWalk j h s

theorem SameItems.refl (h : ℕ) (s : Slot α) : SameItems h s s := ⟨id, Iff.rfl, fun _ => rfl⟩

/-- A node with the same items in one of its slots. -/
theorem SameItems.node {tags' : Tag → ℕ → Bool} (hi : i < mapSize) (hc : SameItems h (slots i) c) :
    SameItems (h + 1) (.node (h + 1) count tags slots)
      (.node (h + 1) count tags' (update slots i c)) := by
  refine ⟨?_, .rfl, ?_⟩
  · intro hs
    obtain ⟨count', tags'', slots', heq, hn⟩ := hs.node rfl
    cases heq
    refine (hn.update hi (hc.sound (hn.slot i hi)) ?_).sound tags'
    simp [hc.inUse]
  · exact fun _ => lookupWalk_same hc.lookup

theorem clearWalk_node {t : Tag} {r : Slot α × Bool}
    (hr : clearWalk index t h (slots (offset index h)) = r) :
    clearWalk index t (h + 1) (.node height count tags slots) =
      if r.2 && tags t (offset index h) then
        (.node height count (update tags t (update (tags t) (offset index h) false))
            (update slots (offset index h) r.1),
          !(Slot.node height count (update tags t (update (tags t) (offset index h) false))
            (update slots (offset index h) r.1)).anyTagSet t)
      else (.node height count tags (update slots (offset index h) r.1), false) := by
  rw [← hr]
  rfl

theorem clearWalk_null {t : Tag} :
    clearWalk index t (h + 1) (.null : Slot α) = (.null, false) := by
  rw [clearWalk]
  simp [Slot.put, Slot.tag]

theorem clearWalk_sameItems (index : ℕ) (t : Tag) (hs : Sound h s) :
    SameItems h s (clearWalk index t h s).1 := by
  induction h generalizing s with
  | zero => exact SameItems.refl 0 s
  | succ h ih =>
    by_cases hne : InUse s
    · obtain ⟨count, tags, slots, rfl, hn⟩ := hs.node hne
      have ho := offset_lt index h
      have hch := ih (hn.slot _ ho)
      rw [clearWalk_node rfl]
      split_ifs <;> exact hch.node ho
    rw [inUse_iff, not_not] at hne
    rw [hne, clearWalk_null]
    exact SameItems.refl _ _

/-! ## The root -/

structure SoundRoot (root : Root α) : Prop where
  height_le : root.height ≤ maxPath
  sound : Sound root.height root.rnode

/-- What a root maps an index to. -/
def rootMap (root : Root α) (index : ℕ) : Option α :=
  if index < mapSize ^ root.height then lookupWalk index root.height root.rnode else none

/-- An index of 32 bits fits into a tree when its digits do. -/
theorem maxindex_lt_iff (hi : index < 2 ^ 32) :
    radixTreeMaxindex h < index ↔ mapSize ^ h ≤ index := by
  have hp : 0 < mapSize ^ h := Nat.pow_pos mapSize_pos
  unfold radixTreeMaxindex
  by_cases hb : 32 ≤ 6 * h
  · have hpow : 2 ^ 32 ≤ mapSize ^ h := by
      have h64 : mapSize = 2 ^ 6 := by decide
      rw [h64, ← pow_mul]
      exact Nat.pow_le_pow_right (by decide) hb
    rw [if_pos hb]
    omega
  · rw [if_neg hb]
    omega

/-- **Lookup** reads the map. -/
theorem SoundRoot.lookup (hr : SoundRoot root) (hi : index < 2 ^ 32) :
    radixTreeLookup root index = rootMap root index := by
  have hs := hr.sound
  unfold radixTreeLookup rootMap
  cases hht : root.height with
  | zero =>
    rw [hht] at hs
    cases hs with
    | inl hnl => simp [hnl]
    | inr hit =>
      obtain ⟨a, ha⟩ := hit
      simp only [ha, pow_zero, Nat.lt_one_iff]
      by_cases hz : index = 0
      · simp [hz, lookupWalk, Slot.item?]
      · rw [if_pos (pos_of_ne_zero hz), if_neg hz]
  | succ h =>
    rw [hht] at hs
    cases hs with
    | inl hnl => simp [hnl]
    | inr hnd =>
      obtain ⟨count, tags, slots, heq, -⟩ := hnd
      simp only [heq]
      by_cases hf : index < mapSize ^ (h + 1)
      · rw [if_neg (by rw [maxindex_lt_iff hi]; omega), if_pos hf]
      · rw [if_pos (by rw [maxindex_lt_iff hi]; omega), if_neg hf]

/-! ## Extend -/

/-- The loop finds a height at which the index fits, not above the largest one. -/
theorem neededHeight_spec (hi : index < 2 ^ 32)
    (hn : maxPath ≤ n + height) (hle : height ≤ maxPath) :
    height ≤ neededHeight index n height ∧ neededHeight index n height ≤ maxPath ∧
      index < mapSize ^ neededHeight index n height := by
  have ht {k : ℕ} (hk : maxPath ≤ k) : index < mapSize ^ k := by
    have h64 : (2 : ℕ) ^ 32 ≤ mapSize ^ maxPath := by decide
    have hpow := Nat.pow_le_pow_right mapSize_pos hk
    omega
  induction n generalizing height with
  | zero =>
    rw [neededHeight]
    exact ⟨le_rfl, hle, ht (by omega)⟩
  | succ n ih =>
    rw [neededHeight]
    by_cases hsm : radixTreeMaxindex height < index
    · rw [if_pos hsm]
      rw [maxindex_lt_iff hi] at hsm
      have hlt : height < maxPath := by
        by_contra hc
        have := ht (not_lt.1 hc)
        omega
      have hsc := @ih (height + 1) (by omega) hlt
      omega
    · rw [if_neg hsm]
      rw [maxindex_lt_iff hi] at hsm
      exact ⟨le_rfl, hle, by omega⟩

/-- A level more on top maps the same indices. -/
theorem rootMap_level (tags : Tag → ℕ → Bool) (index : ℕ) : rootMap { root with
        height := root.height + 1
        rnode := .node (root.height + 1) 1 tags (update (fun _ => .null) 0 root.rnode) }
      index = rootMap root index :=
  treeMap_first fun _ _ hne => update_of_ne hne _ _

theorem extendLoop_spec (alloc : ℕ → Bool) (hr : SoundRoot root)
    (hne : InUse root.rnode) (hn : root.height + n ≤ maxPath) :
    SoundRoot (extendLoop alloc n root).2 ∧
      (∀ j, rootMap (extendLoop alloc n root).2 j = rootMap root j) ∧
      ((extendLoop alloc n root).1 = true →
        (extendLoop alloc n root).2.height = root.height + n) := by
  induction n generalizing root with
  | zero => exact ⟨hr, fun _ => rfl, fun _ => rfl⟩
  | succ n ih =>
    rw [extendLoop]
    by_cases hal : alloc (root.height + 1) = true
    · rw [if_pos hal]
      have hnd : SoundNode root.height 1 (update (fun _ => .null) 0 root.rnode) := by
        refine (soundNode_newNode).update mapSize_pos hr.sound ?_
        simp [hne]
      have hro : SoundRoot { root with
          height := root.height + 1
          rnode := .node (root.height + 1) 1 (fun t i => decide (i = 0) && root.tags t)
            (update (fun _ => .null) 0 root.rnode) } :=
        ⟨by simp only; omega, hnd.sound _⟩
      have hsc := ih hro rfl (by simp only; omega)
      refine ⟨hsc.1, ?_, ?_⟩
      · intro j
        rw [hsc.2.1 j, rootMap_level]
      intro hok
      rw [hsc.2.2 hok]
      simp only
      omega
    · rw [if_neg hal]
      exact ⟨hr, fun _ => rfl, fun hc => by cases hc⟩

/-- **Extending** the tree keeps the map, and makes it high enough for the index. -/
theorem radixTreeExtend_spec (alloc : ℕ → Bool) (hr : SoundRoot root)
    (hi : index < 2 ^ 32) (hb : mapSize ^ root.height ≤ index) :
    SoundRoot (radixTreeExtend alloc root index).2 ∧
      (∀ j, rootMap (radixTreeExtend alloc root index).2 j = rootMap root j) ∧
      ((radixTreeExtend alloc root index).1 = true →
        index < mapSize ^ (radixTreeExtend alloc root index).2.height) := by
  have hlt : root.height < maxPath := by
    by_contra hc
    have h64 : (2 : ℕ) ^ 32 ≤ mapSize ^ maxPath := by decide
    have hpow := Nat.pow_le_pow_right mapSize_pos (not_lt.1 hc)
    omega
  have hnd := neededHeight_spec hi (show maxPath ≤ maxPath + (root.height + 1) by omega) hlt
  unfold radixTreeExtend
  by_cases hnl : root.rnode.isNull = true
  · have hrd := isNull_iff.1 hnl
    simp only [hnl]
    refine ⟨⟨hnd.2.1, by simp only [hrd]; exact sound_null⟩, ?_, fun _ => hnd.2.2⟩
    simp [rootMap, hrd]
  simp only [hnl]
  have hsc := extendLoop_spec alloc hr (by simpa [InUse] using hnl)
    (n := neededHeight index maxPath (root.height + 1) - root.height) (by omega)
  refine ⟨hsc.1, hsc.2.1, ?_⟩
  intro hok
  rw [if_neg (by simp)] at hok ⊢
  rw [hsc.2.2 hok, Nat.add_sub_cancel' (by omega)]
  exact hnd.2.2

/-! ## The operations -/

/-- What an insertion does to the map, by its result. -/
def MapInserted (m m' : ℕ → Option α) (index : ℕ) (a : α) : InsertResult → Prop
  | .ok | .bug => m index = none ∧ ∀ j, m' j = if j = index then some a else m j
  | .eexist => m index ≠ none ∧ ∀ j, m' j = m j
  | .enomem => m index = none ∧ ∀ j, m' j = m j

theorem agree_iff_of_lt (hi : i < mapSize ^ h) (hj : j < mapSize ^ h) : Agree h i j ↔ j = i := by
  rw [Agree, Nat.mod_eq_of_lt hi, Nat.mod_eq_of_lt hj, eq_comm]

theorem treeMap_write {v : Option α} (hf : index < mapSize ^ h) (hw : ∀ j, lookupWalk j h s' =
      if Agree h index j then v else lookupWalk j h s) :
    treeMap h s' j = if j = index then v else treeMap h s j := by
  unfold treeMap
  by_cases hj : j < mapSize ^ h
  · simp [hj, hw, agree_iff_of_lt hf hj]
  have hne : j ≠ index := by omega
  simp [hj, hne]

/-- An insertion into a tree that the index fits into is one into its map. -/
theorem Inserted.rootMap (hf : index < mapSize ^ root.height)
    (his : Inserted root.height index a root.rnode s' r) :
    MapInserted (rootMap root) (rootMap { root with rnode := s' }) index a r := by
  have hat : RadixTree.rootMap root index = lookupWalk index root.height root.rnode := if_pos hf
  have hsm (heq : ∀ j, lookupWalk j root.height s' = lookupWalk j root.height root.rnode) (j : ℕ) :
      RadixTree.rootMap { root with rnode := s' } j = RadixTree.rootMap root j := by
    simp [RadixTree.rootMap, heq]
  cases r with
  | ok | bug => exact ⟨hat.trans his.1, fun _ => treeMap_write hf his.2⟩
  | eexist => exact ⟨fun hc => his.1 (hat.symm.trans hc), fun j => hsm his.2 j⟩
  | enomem => exact ⟨hat.trans his.1, fun j => hsm his.2 j⟩

theorem MapInserted.congr {m1 m2 m' : ℕ → Option α}
    (heq : ∀ j, m1 j = m2 j) (hm : MapInserted m1 m' index a r) : MapInserted m2 m' index a r := by
  have : m1 = m2 := funext heq
  rwa [← this]

/-- What an insertion goes into. -/
theorem SoundRoot.fit (hr : SoundRoot root) {alloc : ℕ → Bool} {e : Bool × Root α}
    (hi : index < 2 ^ 32) (he : (if radixTreeMaxindex root.height < index then
      radixTreeExtend alloc root index else (true, root)) = e) :
    SoundRoot e.2 ∧ (∀ j, rootMap e.2 j = rootMap root j) ∧
      (e.1 = true → index < mapSize ^ e.2.height) ∧ (e.1 = false → rootMap root index = none) := by
  subst he
  split_ifs with hb <;> rw [maxindex_lt_iff hi] at hb
  · have hsc := radixTreeExtend_spec alloc hr hi hb
    exact ⟨hsc.1, hsc.2.1, hsc.2.2, fun _ => if_neg (by omega)⟩
  · exact ⟨hr, fun _ => rfl, fun _ => by simp only; omega, fun hc => by cases hc⟩

/-- **Insert.** -/
theorem SoundRoot.insert (hr : SoundRoot root) (alloc : Allocs) (hi : index < 2 ^ 32) (a : α) :
    SoundRoot (radixTreeInsert alloc root index a).2 ∧
      MapInserted (rootMap root) (rootMap (radixTreeInsert alloc root index a).2) index a
        (radixTreeInsert alloc root index a).1 := by
  unfold radixTreeInsert
  generalize hdef : (if radixTreeMaxindex root.height < index then
    radixTreeExtend alloc.extend root index else (true, root)) = e
  have hsc := hr.fit hi hdef
  cases hok : e.1 with
  | false =>
    simp only [hok]
    exact ⟨hsc.1, hsc.2.2.2 hok, fun j => hsc.2.1 j⟩
  | true =>
    simp only [hok]
    have hwk := insertWalk_spec alloc.walk index a hsc.1.sound
    refine ⟨⟨hsc.1.height_le, hwk.1⟩, ?_⟩
    exact MapInserted.congr hsc.2.1
      ((hwk.2.2.checkTags _ _ _).rootMap (hsc.2.2.1 hok))

/-- A root with the same items, whatever its tags. -/
structure SameRoot (root root' : Root α) : Prop where
  sound : SoundRoot root'
  height_eq : root'.height = root.height
  lookup : ∀ j, lookupWalk j root.height root'.rnode = lookupWalk j root.height root.rnode

theorem SameRoot.trans {root1 root2 : Root α} (h : SameRoot root root1)
    (h' : SameRoot root1 root2) : SameRoot root root2 :=
  ⟨h'.sound, h'.height_eq.trans h.height_eq, fun j =>
    (h.height_eq ▸ h'.lookup j).trans (h.lookup j)⟩

theorem SoundRoot.tagClear (hr : SoundRoot root) (index : ℕ) (t : Tag) :
    SameRoot root (radixTreeTagClear root index t).2 := by
  unfold radixTreeTagClear
  split_ifs
  · exact ⟨hr, rfl, fun _ => rfl⟩
  split
  · exact ⟨hr, rfl, fun _ => rfl⟩
  have hsm := clearWalk_sameItems index t hr.sound
  exact ⟨⟨hr.height_le, hsm.sound hr.sound⟩, rfl, hsm.lookup⟩

theorem SoundRoot.clearIfTagged (hr : SoundRoot root) (index : ℕ) (t : Tag) :
    SameRoot root (clearIfTagged index root t) := by
  unfold RadixTree.clearIfTagged
  split_ifs
  · exact hr.tagClear index t
  · exact ⟨hr, rfl, fun _ => rfl⟩

theorem SoundRoot.clearAllTags (hr : SoundRoot root) (index : ℕ) :
    SameRoot root (clearAllTags index root) := by
  have h0 := hr.clearIfTagged index 0
  have h1 := h0.sound.clearIfTagged index 1
  exact (h0.trans h1).trans (h1.sound.clearIfTagged index 2)

/-- **Delete.** -/
theorem SoundRoot.delete (hr : SoundRoot root) (hi : index < 2 ^ 32) :
    SoundRoot (radixTreeDelete root index).2 ∧ (radixTreeDelete root index).1 = rootMap root index ∧
      ∀ j, rootMap (radixTreeDelete root index).2 j =
        if j = index then none else rootMap root j := by
  have he : SoundRoot (emptyRoot α) := ⟨Nat.zero_le _, sound_null⟩
  have hemptyMap (j : ℕ) : rootMap (emptyRoot α) j = none := by
    simp [rootMap, emptyRoot]
  have hnt (hno : rootMap root index = none) (j : ℕ) :
      rootMap root j = if j = index then none else rootMap root j := by
    by_cases hj : j = index
    · rw [if_pos hj, hj, hno]
    · rw [if_neg hj]
  unfold radixTreeDelete
  by_cases hb : radixTreeMaxindex root.height < index
  · rw [if_pos hb]
    rw [maxindex_lt_iff hi] at hb
    have hno : rootMap root index = none := if_neg (by omega)
    exact ⟨hr, hno.symm, fun j => hnt hno j⟩
  rw [if_neg hb]
  rw [maxindex_lt_iff hi] at hb
  have hf : index < mapSize ^ root.height := by omega
  have hat : rootMap root index = lookupWalk index root.height root.rnode := if_pos hf
  by_cases hz : root.height = 0
  · rw [if_pos hz]
    rw [hz] at hat hf
    refine ⟨he, hat.symm, ?_⟩
    intro j
    rw [hemptyMap]
    by_cases hj : j = index
    · rw [if_pos hj]
    have hj' : ¬ j < mapSize ^ root.height := by
      rw [hz, pow_zero] at *
      omega
    rw [if_neg hj, rootMap, if_neg hj']
  rw [if_neg hz]
  cases hit : lookupWalk index root.height root.rnode with
  | none => exact ⟨hr, (hat.trans hit).symm, fun j => hnt (hat.trans hit) j⟩
  | some a =>
    simp only
    have hc := hr.clearAllTags index
    generalize RadixTree.clearAllTags index root = root1 at hc ⊢
    have hit1 : lookupWalk index root1.height root1.rnode ≠ none := by
      rw [hc.height_eq, hc.lookup, hit]
      simp
    have hun := unlinkWalk_spec hc.sound.sound hit1
    generalize unlinkWalk index root1.height root1.rnode = w at hun ⊢
    -- the map of the tree without the item, as a tree of the same height
    have hm (j : ℕ) : treeMap root1.height w.1 j = if j = index then none else rootMap root j := by
      rw [treeMap_write (by rwa [hc.height_eq]) hun.2]
      simp only [treeMap, rootMap, hc.height_eq, hc.lookup]
    by_cases hfrd : w.1.isNull = true
    · rw [if_pos hfrd]
      refine ⟨he, (hat.trans hit).symm, ?_⟩
      intro j
      rw [hemptyMap, ← hm j, isNull_iff.1 hfrd]
      simp [treeMap]
    rw [if_neg hfrd]
    have hne : InUse w.1 := by simpa [InUse] using hfrd
    by_cases hst : w.2 = true
    · rw [if_pos hst]
      have hshr := radixTreeShrink_spec hun.1 hne rfl
      exact ⟨⟨hshr.2.1.trans hc.sound.height_le, hshr.1⟩, (hat.trans hit).symm,
        fun j => (hshr.2.2 j).trans (hm j)⟩
    · rw [if_neg hst]
      exact ⟨⟨hc.sound.height_le, hun.1⟩, (hat.trans hit).symm, hm⟩

end NestLinux.RadixTree
