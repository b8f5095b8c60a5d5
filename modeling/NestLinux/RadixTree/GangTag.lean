import NestLinux.RadixTree.RangeExact

/-!
# Tagged gang lookup

`__lookup_tag` goes down where the bit of a slot is set. A bit may be that of an item before
the index it was given, so it may come down to a node in which it finds nothing; it then
stops at the end of that node. It always gets further, because a slot with its bit set is
in use.

As in the lookup without tags, a tree that is one item returns it whatever the number of
items wanted.
-/

namespace NestLinux.RadixTree

open Lib

variable {α : Type*} {t : Tag} {h j index : ℕ} {b : Bool}

/-- The item at an index, if it carries the tag. -/
def taggedLookup (root : Root α) (t : Tag) (j : ℕ) : Option α :=
  if itemTag t j root.height (root.tags t) root.rnode then radixTreeLookup root j else none

/-- The item at an index below a slot, if it carries the tag. -/
def taggedWalk (t : Tag) (h : ℕ) (s : Slot α) (j : ℕ) : Option α :=
  if itemTag t j h false s then lookupWalk j h s else none

theorem taggedWalk_succ {s : Slot α} :
    taggedWalk t (h + 2) s j = taggedWalk t (h + 1) (s.child (offset j (h + 1))) j := rfl

/-- Below a slot with its bit clear no item carries the tag. -/
theorem Exact.taggedWalk_eq_none {s : Slot α} (he : Exact t (h + 1) b s)
    (ht : s.tag t (offset j h) = false) : taggedWalk t (h + 1) s j = none := by
  rw [taggedWalk, if_neg]
  intro hit
  have htr := (he.2 _ (offset_lt j h)).eq_true_of_itemTag hit
  rw [ht] at htr
  cases htr

/-- **One call of `__lookup_tag`** covers a range of the indices of a tree. -/
theorem lookupTag_covered {room : ℕ} (hrm : 0 < room) (hh : h < maxPath)
    {s : Slot α} (he : Exact t (h + 1) b s) (hi : index < 2 ^ 32) :
    Covered (taggedWalk t (h + 1) s) room index (nextBlock mapSize (h + 1) index)
      (lookupTag t room (h + 1) s index) := by
  induction h generalizing b s index with
  | zero =>
    refine covered_skipTo (fun _ index => takeFrom (2 ^ 32) mapSize (fun j => if s.tag t j then
      (s.child j).item? else none) (mapSize - offset index 0) index room) hh hi
      (fun _ ht => he.taggedWalk_eq_none ht) fun n hn _ => ?_
    exact takeFrom_covered mapSize_pos hn (nextBlock_le hn (by decide)) _ hrm
  | succ h ih =>
    refine covered_skipTo (fun i index => if (s.child i).isNull then ([], index)
      else lookupTag t room (h + 1) (s.child i) index) hh hi
      (fun _ ht => he.taggedWalk_eq_none ht) fun n hn ht => ?_
    have hch := he.2 _ (offset_lt n (h + 1))
    rw [ht] at hch
    have hnl : (s.child (offset n (h + 1))).isNull = false := by
      rw [← Bool.not_eq_true, isNull_iff]
      intro hnl
      rw [hnl, exact_null_iff] at hch
      cases hch
    simp only [hnl, Bool.false_eq_true, if_false]
    refine (ih (by omega) hch hn).up fun j hj => ?_
    rw [taggedWalk_succ, hj]

/-- The items with a tag are those below the node at the top. -/
theorem TagState.taggedLookup_eq {root : Root α} (hs : TagState root)
    (hht : root.height = h + 1) (hj : j < 2 ^ 32) : taggedLookup root t j =
      if j < mapSize ^ (h + 1) then taggedWalk t (h + 1) root.rnode j else none := by
  rw [taggedLookup, hs.sound.lookup hj, rootMap, hht, taggedWalk, itemTag, itemTag]
  split_ifs <;> rfl

theorem firstItems_eq_nil {m : ℕ → Option α} (hm : ∀ j, m j = none) (first max : ℕ) :
    firstItems m first max = [] := by
  rw [firstItems, entries_eq_nil fun j _ _ => hm j, List.take_nil]

/-- **Tagged gang lookup.** It comes to an end, with the first items that carry the tag; only
a tree that is an item returns it where none is wanted. -/
theorem TagState.gangLookupTag {root : Root α} (hs : TagState root) (t : Tag) {first max n : ℕ}
    (hf : first < 2 ^ 32) (hn : 2 ^ 32 < n) : radixTreeGangLookupTag n root t first max = some (
      if root.tags t then match root.rnode with
        | .item a => if 0 < first then [] else [a]
        | _ => firstItems (taggedLookup root t) first max
      else firstItems (taggedLookup root t) first max) := by
  unfold radixTreeGangLookupTag
  cases ht : root.tags t with
  | false =>
    have hno (j : ℕ) : taggedLookup root t j = none := by
      rw [taggedLookup, if_neg]
      intro hit
      have htr := (hs.exact t).eq_true_of_itemTag hit
      rw [ht] at htr
      cases htr
    simp only [Bool.not_false, if_true, Bool.false_eq_true, if_false]
    rw [firstItems_eq_nil hno]
  | true =>
    simp only [Bool.not_true, Bool.false_eq_true, if_false, if_true]
    cases hnode : root.rnode with
    | null =>
      have hno (j : ℕ) : taggedLookup root t j = none := by
        rw [taggedLookup, radixTreeLookup, hnode]
        exact ite_self none
      rw [firstItems_eq_nil hno]
    | item a =>
      split_ifs <;> rfl
    | node height count tags slots =>
      obtain ⟨h, hh, hht, rfl⟩ := hs.sound.height_node hnode
      have hex := hs.exact t
      rw [hht, hnode] at hex
      refine collect_of_covered ?_ (fun _ _ h1 h2 => lookupTag_covered h1 hh hex h2) hf hn
      intro j hj
      rw [hs.taggedLookup_eq hht hj, hnode]

/-- A lookup that asks for no items, of a tree that is one item with the tag. -/
def AsksForNoneTagged (root : Root α) (t : Tag) (first max : ℕ) : Prop :=
  root.tags t = true ∧ AsksForNone root first max

/-- **Tagged lookup.** In a tree whose tags aggregate, a tagged gang lookup comes to an end and
returns the first items with the tag from an index on, in order, exactly when it does not ask
a tree that is one item with the tag for no items. -/
theorem gangLookupTag_iff {root : Root α} (hs : TagState root) (t : Tag) {first : ℕ}
    (hfirst : first < 2 ^ 32) (max : ℕ) :
    ∃ found, (∀ n > 2 ^ 32, radixTreeGangLookupTag n root t first max = some found) ∧
      (found = firstItems (taggedLookup root t) first max ↔
        ¬ AsksForNoneTagged root t first max) := by
  refine ⟨_, fun n hn => hs.gangLookupTag t hfirst hn, ?_⟩
  unfold AsksForNoneTagged AsksForNone
  cases htag : root.tags t with
  | false => simp
  | true =>
    cases hnode : root.rnode with
    | null | node => simp
    | item a =>
      have hheight := hs.sound.height_item hnode
      have hat (j : ℕ) : taggedLookup root t j = if j < 1 then some a else none := by
        rw [taggedLookup, hheight, itemTag, htag, if_pos rfl, radixTreeLookup, hnode]
        split_ifs <;> first | rfl | omega
      simp only [true_and, Slot.item.injEq, exists_eq', and_true]
      exact direct_eq_firstItems_iff hat

/-- The item at 5 is found. -/
theorem gangLookupTag_taggedItem :
    TagState taggedItem ∧ ∃ found, (∀ n > 2 ^ 32,
      radixTreeGangLookupTag n taggedItem 0 0 3 = some found) ∧
        found = firstItems (taggedLookup taggedItem 0) 0 3 := by
  have hs := taggedItem_run.state
  obtain ⟨found, hfound, hiff⟩ := gangLookupTag_iff hs 0 (by decide : 0 < 2 ^ 32) 3
  exact ⟨hs, found, hfound, hiff.2 (fun hc => absurd hc.2.2.1 (by decide))⟩

/-- A tree that is one item, which carries tag 0. -/
def taggedZero : Root ℕ :=
  (radixTreeTagSet (oneItem 0 7) 0 pagecacheTagDirty).getD (emptyRoot ℕ)

/-- No items are wanted, and the item is returned. -/
theorem gangLookupTag_one_for_none :
    TagState taggedZero ∧ (∀ n, radixTreeGangLookupTag n taggedZero 0 0 0 = some [7]) ∧
      firstItems (taggedLookup taggedZero 0) 0 0 = [] := by
  have hrun : TagRun taggedZero :=
    TagRun.tagSet (TagRun.insert TagRun.empty allocAll 0 7 (by decide)) 0 0 (by decide) rfl
  exact ⟨hrun.state, fun _ => rfl, List.take_zero⟩

end NestLinux.RadixTree
