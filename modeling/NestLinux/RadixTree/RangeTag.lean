import NestLinux.RadixTree.Gang
import NestLinux.RadixTree.Tags

/-!
# Bulk tagging

`radix_tree_range_tag_if_tagged` walks the tree without a stack: it goes down where the bit
of a slot is set, tags the items it gets to, and goes on with the next slot of the node it
is in, up the path where that was the last one. While it runs, what it has tagged are the
items with the one tag between the first index and where it is (`Scanned`).
-/

namespace NestLinux.RadixTree

open Lib Function

variable {α : Type*} {t u : Tag} {l i j n : ℕ} {b : Bool}

/-! ## The slots of a path -/

variable {h index : ℕ} {s : Slot α}

/-- The slots of a node on a path have exact bits. -/
theorem Exact.nodeAt (he : Exact t h b s) (index : ℕ) (hl : l < h) (hi : i < mapSize) :
    Exact t l ((nodeAt index (l + 1) h s).tag t i) ((nodeAt index (l + 1) h s).child i) := by
  induction h generalizing b s with
  | zero => omega
  | succ h ih =>
    rw [RadixTree.nodeAt]
    by_cases heq : h + 1 = l + 1
    · rw [if_pos heq]
      have hh : h = l := by omega
      subst hh
      exact he.2 i hi
    · rw [if_neg heq]
      exact ih (he.2 _ (offset_lt index h)) (by omega)

theorem itemTag_nodeAt (hl : l < h) (hij : j / mapSize ^ l = index / mapSize ^ l) :
    itemTag t j h b s = itemTag t j l ((nodeAt index (l + 1) h s).tag t (offset index l))
      ((nodeAt index (l + 1) h s).child (offset index l)) := by
  induction h generalizing b s with
  | zero => omega
  | succ h ih =>
    have ho : offset j h = offset index h := by
      obtain ⟨k, rfl⟩ := Nat.exists_eq_add_of_le (Nat.lt_succ_iff.1 hl)
      rw [offset, offset, pow_add, ← Nat.div_div_eq_div_mul, hij, Nat.div_div_eq_div_mul]
    rw [nodeAt, itemTag, ho]
    by_cases heq : h + 1 = l + 1
    · have hh : h = l := by omega
      subst hh
      rw [if_pos rfl]
    · rw [if_neg heq]
      exact ih (by omega)

/-- The indices below a slot of a tree fit into it. -/
theorem lt_pow_of_div_eq (hl : l ≤ h) (hij : j / mapSize ^ l = i / mapSize ^ l)
    (hi : i < mapSize ^ h) : j < mapSize ^ h := by
  obtain ⟨k, rfl⟩ := Nat.exists_eq_add_of_le hl
  have hup : j / mapSize ^ (l + k) = 0 := by
    rw [pow_add, ← Nat.div_div_eq_div_mul, hij, Nat.div_div_eq_div_mul, ← pow_add]
    exact Nat.div_eq_of_lt hi
  exact (Nat.div_eq_zero_iff_lt (Nat.pow_pos mapSize_pos)).1 hup

theorem Exact.not_isNull_and (he : Exact t h b s) : (!s.isNull && b) = b := by
  cases s with
  | null =>
    rw [exact_null_iff.1 he]
    rfl
  | item | node => rfl

/-! ## Tagging one item -/

theorem tagPath_bottom (height count : ℕ) (tags : Tag → ℕ → Bool)
    (slots : ℕ → Slot α) : tagPath index u 1 (.node height count tags slots) =
      (.node height count (update tags u (update (tags u) (offset index 0) true))
        (update slots (offset index 0) (slots (offset index 0))), true) := by
  rw [update_eq_self]
  rfl

theorem tagPath_node (height count : ℕ) (tags : Tag → ℕ → Bool) (slots : ℕ → Slot α)
    {c : Slot α × Bool} (hc : tagPath index u (h + 1) (slots (offset index (h + 1))) = c) :
    tagPath index u (h + 2) (.node height count tags slots) =
      if c.2 && !tags u (offset index (h + 1)) then
        (.node height count (update tags u (update (tags u) (offset index (h + 1)) true))
          (update slots (offset index (h + 1)) c.1), true)
      else (.node height count tags (update slots (offset index (h + 1)) c.1), false) := by
  cases hup : c.2 <;> cases ht : tags u (offset index (h + 1)) <;>
    simp [tagPath, Slot.put, Slot.child, Slot.tag, Slot.setTag, hc, hup, ht]

section

variable (hs : Sound (h + 1) s) (him : lookupWalk index (h + 1) s ≠ none)

include hs him

theorem tagPath_sameItems : SameItems (h + 1) s (tagPath index u (h + 1) s).1 := by
  induction h generalizing s with
  | zero =>
    obtain ⟨count, tags, slots, rfl, -, -⟩ := hs.node_of_lookup him
    rw [tagPath_bottom]
    exact (SameItems.refl _ _).node (offset_lt index 0)
  | succ h ih =>
    obtain ⟨count, tags, slots, rfl, hn, -⟩ := hs.node_of_lookup him
    have ho := offset_lt index (h + 1)
    have hch := ih (hn.slot _ ho) him
    rw [tagPath_node _ _ _ _ rfl]
    split_ifs <;> exact hch.node ho

/-- **Tagging an item.** Its slot and those above it have the bit set. Where the walk up
stops short of the top, the bit was set there already. -/
theorem tagPath_exact : (∀ t b, Exact t (h + 1) b s →
      Exact t (h + 1) (if t = u then true else b) (tagPath index u (h + 1) s).1) ∧
    ∀ b, Exact u (h + 1) b s → (tagPath index u (h + 1) s).2 = false → b = true := by
  induction h generalizing s with
  | zero =>
    obtain ⟨count, tags, slots, rfl, -, huse⟩ := hs.node_of_lookup him
    rw [tagPath_bottom]
    refine ⟨?_, fun b _ hc => by cases hc⟩
    intro t b he
    exact he.setBit (offset_lt index 0) (fun _ => huse)
  | succ h ih =>
    obtain ⟨count, tags, slots, rfl, hn, -⟩ := hs.node_of_lookup him
    have ho := offset_lt index (h + 1)
    have hch := ih (hn.slot _ ho) him
    rw [tagPath_node _ _ _ _ rfl]
    by_cases hup : ((tagPath index u (h + 1) (slots (offset index (h + 1)))).2 &&
        !tags u (offset index (h + 1))) = true
    · rw [if_pos hup]
      refine ⟨?_, fun b _ hc => by cases hc⟩
      intro t b he
      exact he.setBit ho (hch.1 t _ (he.slots _ ho))
    rw [if_neg hup]
    -- the bit of the slot is set, by the check here or by one further down
    have hbt (b : Bool) (he : Exact u (h + 2) b (.node (h + 2) count tags slots)) :
        tags u (offset index (h + 1)) = true := by
      cases hst : (tagPath index u (h + 1) (slots (offset index (h + 1)))).2 with
      | false => exact hch.2 _ (he.slots _ ho) hst
      | true => simpa [hst] using hup
    have hb (b : Bool) (he : Exact u (h + 2) b (.node (h + 2) count tags slots)) : b = true := by
      rw [he.1, anyTagSet_iff]
      exact ⟨_, ho, hbt b he⟩
    refine ⟨?_, fun b he _ => hb b he⟩
    intro t b he
    have hc := hch.1 t _ (he.slots _ ho)
    by_cases htu : t = u
    · subst htu
      rw [if_pos rfl] at hc ⊢
      rw [hb b he] at he
      refine he.put ?_
      rw [hbt true he]
      exact hc
    · rw [if_neg htu] at hc ⊢
      exact he.put hc

omit hs him in
/-- The tag of an item is that of the lowest slot. -/
theorem itemTag_inner (t : Tag) (j h : ℕ) (b b' : Bool) (height count : ℕ)
    (tags : Tag → ℕ → Bool) (slots : ℕ → Slot α) :
    itemTag t j (h + 2) b (.node height count tags slots) =
      itemTag t j (h + 1) b' (slots (offset j (h + 1))) := rfl

theorem tagPath_itemTag (j : ℕ) (b : Bool) : itemTag t j (h + 1) b (tagPath index u (h + 1) s).1 =
      if t = u ∧ Agree (h + 1) index j then true else itemTag t j (h + 1) b s := by
  induction h generalizing s b with
  | zero =>
    obtain ⟨count, tags, slots, rfl, -, -⟩ := hs.node_of_lookup him
    rw [tagPath_bottom]
    simp only [itemTag, Slot.tag, agree_succ_iff, agree_zero]
    by_cases htu : t = u
    · subst htu
      by_cases hij : offset index 0 = offset j 0
      · simp [hij]
      rw [update_self, update_of_ne (Ne.symm hij)]
      simp [hij]
    · simp [htu]
  | succ h ih =>
    obtain ⟨count, tags, slots, rfl, hn, -⟩ := hs.node_of_lookup him
    have hch := ih (hn.slot _ (offset_lt index (h + 1))) him false
    have hnd (tags' : Tag → ℕ → Bool) :
        itemTag t j (h + 2) b (.node (h + 2) count tags' (update slots (offset index (h + 1))
            (tagPath index u (h + 1) (slots (offset index (h + 1)))).1)) =
          if t = u ∧ Agree (h + 2) index j then true
          else itemTag t j (h + 2) b (.node (h + 2) count tags slots) := by
      rw [itemTag_inner t j h b false, itemTag_inner t j h b false]
      by_cases hij : offset index (h + 1) = offset j (h + 1)
      · rw [← hij, update_self, hch]
        simp only [agree_succ_iff, hij, true_and]
      rw [update_of_ne (Ne.symm hij), if_neg]
      exact fun hc => hij (agree_succ_iff.1 hc.2).1
    rw [tagPath_node _ _ _ _ rfl, apply_ite Prod.fst, apply_ite (itemTag t j (h + 2) b), hnd,
      hnd, ite_self]

end

/-! ## The walk -/

theorem SameItems.trans {s1 s2 s3 : Slot α} (h1 : SameItems h s1 s2)
    (h2 : SameItems h s2 s3) : SameItems h s1 s3 :=
  ⟨h2.sound ∘ h1.sound, h2.inUse.trans h1.inUse, fun j => (h2.lookup j).trans (h1.lookup j)⟩

/-- The indices of the items that carry a tag, as a map. -/
def taggedAt (t : Tag) (h : ℕ) (s : Slot α) (j : ℕ) : Option ℕ :=
  if itemTag t j h false s then some j else none

/-- The tree `s` is the tree `s0` with the items tagged that carry `iftag` and have an index
from `first` up to `index`. -/
structure Scanned (h first last : ℕ) (iftag settag : Tag) (s0 s : Slot α) (tagged index : ℕ) :
    Prop where
  same : SameItems (h + 1) s0 s
  exact : ∀ t, Exact t (h + 1) (s.anyTagSet t) s
  tags : ∀ t, ∀ j < mapSize ^ (h + 1), itemTag t j (h + 1) false s = true ↔
    itemTag t j (h + 1) false s0 = true ∨
      t = settag ∧ itemTag iftag j (h + 1) false s0 = true ∧ first ≤ j ∧ j < index
  count : tagged = (entries (taggedAt iftag (h + 1) s0) first index).length
  first_le : first ≤ index
  le_last : ∀ j, first ≤ j → j < index → itemTag iftag j (h + 1) false s0 = true → j ≤ last

section Walk

variable {first last : ℕ} {iftag settag : Tag} {s0 : Slot α} {tagged : ℕ}

/-- The items that carry the tag looked for stay the same. -/
theorem Scanned.iftag_iff (hs : Scanned h first last iftag settag s0 s tagged index)
    (hj : j < mapSize ^ (h + 1)) :
    itemTag iftag j (h + 1) false s = true ↔ itemTag iftag j (h + 1) false s0 = true := by
  rw [hs.tags iftag j hj]
  constructor
  · intro hor
    cases hor with
    | inl hold => exact hold
    | inr hn => exact hn.2.1
  · exact .inl

/-- Indices are passed over that have no item with the tag. -/
theorem Scanned.skip (hs : Scanned h first last iftag settag s0 s tagged index) {next : ℕ}
    (hle : index ≤ next)
    (hno : ∀ j, index ≤ j → j < next → itemTag iftag j (h + 1) false s0 = false) :
    Scanned h first last iftag settag s0 s tagged next := by
  have hf := hs.first_le
  refine ⟨hs.same, hs.exact, ?_, ?_, by omega, ?_⟩
  · intro t j hj
    rw [hs.tags t j hj]
    refine or_congr .rfl (and_congr_right fun _ => and_congr_right fun ht => ?_)
    constructor
    · exact fun hlt => ⟨hlt.1, by omega⟩
    intro hlt
    by_contra hc
    rw [hno j (by omega) hlt.2] at ht
    cases ht
  · have hn : entries (taggedAt iftag (h + 1) s0) index next = [] := by
      refine entries_eq_nil ?_
      intro j h1 h2
      simp [taggedAt, hno j h1 h2]
    rw [entries_append hf hle, hn, List.append_nil]
    exact hs.count
  · intro j h1 h2 ht
    refine hs.le_last j h1 ?_ ht
    by_contra hc
    rw [hno j (by omega) h2] at ht
    cases ht

theorem Scanned.hit (hs0 : Sound (h + 1) s0)
    (hs : Scanned h first last iftag settag s0 s tagged index) (hf : index < mapSize ^ (h + 1))
    (hla : index ≤ last) (htg : itemTag iftag index (h + 1) false s = true) :
    Scanned h first last iftag settag s0 (tagPath index settag (h + 1) s).1 (tagged + 1)
      (index + 1) := by
  have hsd := hs.same.sound hs0
  have hft := hs.first_le
  have hso := (hs.exact iftag).lookup_isSome hsd htg
  have him : lookupWalk index (h + 1) s ≠ none := by
    intro hno
    rw [hno] at hso
    cases hso
  have hph := tagPath_exact (u := settag) hsd him
  have ht0 := (hs.iftag_iff hf).1 htg
  refine ⟨hs.same.trans (tagPath_sameItems hsd him), ?_, ?_, ?_, by omega, ?_⟩
  · intro t
    have ht := hph.1 t _ (hs.exact t)
    rw [← ht.1]
    exact ht
  · intro t j hj
    have hag := agree_iff_of_lt hf hj
    rw [tagPath_itemTag hsd him]
    by_cases hn : t = settag ∧ Agree (h + 1) index j
    · rw [if_pos hn, hag.1 hn.2]
      exact iff_of_true rfl (.inr ⟨hn.1, ht0, hft, Nat.lt_succ_self _⟩)
    rw [if_neg hn, hs.tags t j hj]
    refine or_congr .rfl (and_congr_right fun ht => and_congr_right fun _ => ?_)
    have hne : j ≠ index := fun hc => hn ⟨ht, hag.2 hc⟩
    omega
  · have ho : entries (taggedAt iftag (h + 1) s0) index (index + 1) = [index] := by
      rw [entries_cons (Nat.lt_succ_self _), entries_self, taggedAt, ht0]
      rfl
    rw [entries_append hft (Nat.le_succ _), ho, List.length_append, ← hs.count]
    rfl
  · intro j h1 h2 hj
    by_cases hji : j = index
    · omega
    · exact hs.le_last j h1 (by omega) hj

end Walk

/-- Going up stops inside the tree, at an index that is not 0. -/
theorem climb_spec {height : ℕ} (hp : index ≠ 0) (hf : index < mapSize ^ height) {level : ℕ}
    (hlvl : 1 ≤ level) (hle : level ≤ height) (hm : index % mapSize ^ (level - 1) = 0) :
    1 ≤ climb index n level ∧ climb index n level ≤ height := by
  induction n generalizing level with
  | zero => exact ⟨hlvl, hle⟩
  | succ n ih =>
    rw [climb]
    by_cases ho : offset index (level - 1) = 0
    · rw [if_pos ho]
      have hm' : index % mapSize ^ (level + 1 - 1) = 0 := by
        have hsl := mod_pow_succ mapSize (level - 1) index
        have hdig : digit mapSize (level - 1) index = 0 := ho
        rw [hdig, hm, Nat.sub_add_cancel hlvl] at hsl
        rw [Nat.add_sub_cancel, hsl]
        simp
      refine ih (by omega) ?_ hm'
      by_contra hc
      have heq : level + 1 - 1 = height := by omega
      rw [heq, Nat.mod_eq_of_lt hf] at hm'
      exact hp hm'
    · rw [if_neg ho]
      exact ⟨hlvl, hle⟩

/-- An item whose slot has the tag is tagged, a block without it is passed over. -/
theorem Scanned.turn (hs0 : Sound (h + 1) s0) (hla : last < mapSize ^ (h + 1))
    (hst : Scanned h first last iftag settag s0 s tagged index) (hidx : index ≤ last)
    (hl : l < h + 1) {bit : Bool} (hzero : bit = true → l = 0)
    (hbit : (nodeAt index (l + 1) (h + 1) s).tag iftag (offset index l) = bit) :
    ∃ s' tagged', (if bit = true then
        TagScan.mk (tagPath index settag (h + 1) s).1 index (l + 1) (tagged + 1)
      else ⟨s, index, l + 1, tagged⟩) = ⟨s', index, l + 1, tagged'⟩ ∧
    Scanned h first last iftag settag s0 s' tagged' (nextBlock mapSize l index) ∧
    tagged' ≤ tagged + 1 := by
  have hex := (hst.exact iftag).nodeAt index hl (offset_lt index l)
  have hbl {j : ℕ} (hij : j / mapSize ^ l = index / mapSize ^ l) :=
    itemTag_nodeAt (t := iftag) (b := false) (s := s) hl hij
  rw [hbit] at hex hbl
  by_cases hb : bit = true
  · rw [if_pos hb]
    obtain rfl := hzero hb
    have hone : nextBlock mapSize 0 index = index + 1 := by simp [nextBlock_eq]
    refine ⟨_, _, rfl, hone ▸ hst.hit hs0 (by omega) hidx ?_, le_rfl⟩
    rw [hbl rfl, itemTag]
    exact hb
  rw [if_neg hb]
  refine ⟨_, _, rfl, hst.skip (lt_nextBlock mapSize_pos l index).le ?_, Nat.le_succ _⟩
  intro j h1 h2
  have hij := div_eq_of_lt_nextBlock mapSize_pos h1 h2
  have hj : j < mapSize ^ (h + 1) := lt_pow_of_div_eq (by omega) hij (by omega)
  by_contra hc
  have hse := (hst.iftag_iff hj).2 (by simpa using hc)
  rw [hbl hij] at hse
  exact hb (hex.eq_true_of_itemTag hse)

/-- **The walk of `radix_tree_range_tag_if_tagged`.** It comes to an end: past the last index,
or with as many items tagged as were asked for. -/
theorem rangeTagLoop_scanned {first last nr : ℕ} {iftag settag : Tag} {s0 : Slot α}
    (hh : h < maxPath) (hs0 : Sound (h + 1) s0) (hla : last < mapSize ^ (h + 1))
    (hla' : last < 2 ^ 32) {st : TagScan α}
    (hst : Scanned h first last iftag settag s0 st.rnode st.tagged st.index)
    (hidx : st.index ≤ last) (hlvl : 1 ≤ st.level) (hle : st.level ≤ h + 1)
    (hnr : st.tagged < nr) (hn : (2 ^ 32 - st.index) * 7 + st.level < n) :
    ∃ st' next, rangeTagLoop (h + 1) last nr iftag settag n st = some st' ∧
      Scanned h first last iftag settag s0 st'.rnode st'.tagged next ∧
      st'.index = next % 2 ^ 32 ∧ next ≤ 2 ^ 32 ∧ st.index < next ∧ st'.tagged ≤ nr ∧
      (last < next ∨ st'.tagged = nr) := by
  induction n generalizing st with
  | zero => omega
  | succ n ih =>
    obtain ⟨s, index, level, tagged⟩ := st
    simp only at hst hidx hlvl hle hnr hn ⊢
    obtain ⟨l, rfl⟩ := Nat.exists_eq_add_of_le' hlvl
    have hl : l < h + 1 := hle
    rw [rangeTagLoop]
    simp only [Nat.add_sub_cancel]
    rw [((hst.exact iftag).nodeAt index hl (offset_lt index l)).not_isNull_and]
    generalize hbit : (nodeAt index (l + 1) (h + 1) s).tag iftag (offset index l) = bit
    by_cases hdw : (bit && decide (1 < l + 1)) = true
    · rw [if_pos hdw]
      rw [Bool.and_eq_true, decide_eq_true_eq] at hdw
      exact ih hst hidx (by simp only; omega) (by simp only; omega) hnr (by simp only; omega)
    rw [if_neg hdw]
    have hnx : (index / mapSize ^ l + 1) * mapSize ^ l = nextBlock mapSize l index :=
      (nextBlock_eq mapSize l index).symm
    have hlt := lt_nextBlock mapSize_pos l index
    have hbd : nextBlock mapSize l index ≤ 2 ^ 32 := nextBlock_le (by omega) (by omega)
    obtain ⟨s', tagged', hdef, hsn, hct⟩ :=
      hst.turn hs0 hla hidx hl (fun hb => by simpa [hb] using hdw) hbit
    rw [hdef]
    simp only [Nat.add_sub_cancel]
    rw [hnx]
    by_cases hsp : last < nextBlock mapSize l index % 2 ^ 32 ∨
        nextBlock mapSize l index % 2 ^ 32 = 0 ∨ nr ≤ tagged'
    · rw [if_pos hsp]
      refine ⟨_, nextBlock mapSize l index, rfl, hsn, rfl, hbd, hlt, ?_, ?_⟩ <;> simp only <;> omega
    rw [if_neg hsp]
    rw [not_or, not_or] at hsp
    have hlt32 : nextBlock mapSize l index < 2 ^ 32 := by omega
    rw [Nat.mod_eq_of_lt hlt32] at hsp ⊢
    have hcl := climb_spec (n := maxPath) hsp.2.1
      (show nextBlock mapSize l index < mapSize ^ (h + 1) by omega) hlvl hle
      (nextBlock_mod)
    have hm : maxPath = 6 := rfl
    obtain ⟨st', next, h1, h2, h3, h4, h5, h6⟩ := @ih
      ⟨s', nextBlock mapSize l index, climb (nextBlock mapSize l index) maxPath (l + 1), tagged'⟩
      hsn (by simp only; omega) hcl.1 hcl.2 (by simp only; omega)
      (by simp only; omega)
    exact ⟨st', next, h1, h2, h3, h4, hlt.trans h5, h6⟩

end NestLinux.RadixTree
