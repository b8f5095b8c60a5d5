import NestLinux.RadixTree.RangeTag
import NestLinux.RadixTree.Run

/-!
# Runs that use tags

After any run of the operations, the bit of every slot is set exactly where an item below
it carries the tag, and so is the tag of the root (`Aggregates`). The exception is a bulk
tagging that finds nothing to tag in its range, while there are items with the tag outside
of it: it sets the tag of the root nevertheless (`Dangling`).
-/

namespace NestLinux.RadixTree

open Lib Function

variable {α : Type*} {j n k index : ℕ} {t : Tag}

/-- There is an item at the index, and it carries the tag: the bit of its slot is set. -/
def Carries (root : Root α) (t : Tag) (index : ℕ) : Prop :=
  radixTreeLookup root index ≠ none ∧
    itemTag t index root.height (root.tags t) root.rnode = true

/-- The tags aggregate: the tag of the root, and the bit of each slot, above `l` levels, on the
path of each index. -/
structure Aggregates (root : Root α) : Prop where
  root_iff : ∀ t, root.tags t = true ↔ ∃ j, Carries root t j
  slot_iff : ∀ t l index, l < root.height → index < mapSize ^ root.height →
    ((nodeAt index (l + 1) root.height root.rnode).tag t (offset index l) = true ↔
      ∃ j, j / mapSize ^ l = index / mapSize ^ l ∧ Carries root t j)

/-- The state between operations. -/
structure TagState (root : Root α) : Prop where
  sound : SoundRoot root
  exact : ExactRoot root
  bound : ∀ j, rootMap root j ≠ none → j < 2 ^ 32

theorem radixTreeMaxindex_lt (h : ℕ) : radixTreeMaxindex h < 2 ^ 32 := by
  unfold radixTreeMaxindex
  split_ifs with hb
  · decide
  have hh : h ≤ 5 := by omega
  have hpow : mapSize ^ h ≤ mapSize ^ 5 := Nat.pow_le_pow_right mapSize_pos hh
  have h64 : mapSize ^ 5 < 2 ^ 32 := by decide
  omega

variable {root : Root α} {iftag settag : Tag}

theorem lt_of_radixTreeLookup (hj : radixTreeLookup root j ≠ none) : j < 2 ^ 32 := by
  unfold radixTreeLookup at hj
  cases hnode : root.rnode with
  | null => simp [hnode] at hj
  | item a =>
    simp only [hnode] at hj
    by_contra hc
    rw [if_pos (by omega)] at hj
    exact hj rfl
  | node height count tags slots =>
    simp only [hnode] at hj
    have hm := radixTreeMaxindex_lt height
    by_contra hc
    rw [if_pos (by omega)] at hj
    exact hj rfl

theorem TagState.carries_iff (hs : TagState root) : Carries root t j ↔
      j < mapSize ^ root.height ∧ itemTag t j root.height (root.tags t) root.rnode = true := by
  constructor
  · intro hc
    refine ⟨?_, hc.2⟩
    have hm := hc.1
    rw [hs.sound.lookup (lt_of_radixTreeLookup hc.1)] at hm
    by_contra hge
    exact hm (if_neg hge)
  intro hj
  have hso := (hs.exact t).lookup_isSome hs.sound.sound hj.2
  have hm : rootMap root j ≠ none := by
    rw [rootMap, if_pos hj.1]
    intro hno
    rw [hno] at hso
    cases hso
  refine ⟨?_, hj.2⟩
  rw [hs.sound.lookup (hs.bound j hm)]
  exact hm

/-- **The bits of a tree say where its tagged items are.** -/
theorem TagState.aggregates (hs : TagState root) : Aggregates root := by
  refine ⟨?_, ?_⟩
  · intro t
    constructor
    · intro ht
      obtain ⟨j, hj, hit⟩ := (hs.exact t).exists_itemTag ht
      exact ⟨j, hs.carries_iff.2 ⟨hj, hit⟩⟩
    intro hex
    obtain ⟨j, hj⟩ := hex
    exact (hs.exact t).eq_true_of_itemTag hj.2
  intro t l index hl hf
  have hsl := (hs.exact t).nodeAt index hl (offset_lt index l)
  constructor
  · intro hb
    obtain ⟨k, hk, hit⟩ := hsl.exists_itemTag hb
    have hp : 0 < mapSize ^ l := Nat.pow_pos mapSize_pos
    have hd : (index / mapSize ^ l * mapSize ^ l + k) / mapSize ^ l = index / mapSize ^ l := by
      rw [mul_comm, Nat.mul_add_div hp, Nat.div_eq_of_lt hk, add_zero]
    refine ⟨index / mapSize ^ l * mapSize ^ l + k, hd, hs.carries_iff.2 ⟨?_, ?_⟩⟩
    · exact lt_pow_of_div_eq hl.le hd hf
    rw [itemTag_nodeAt hl hd, itemTag_congr (agree_add l _ k)]
    exact hit
  · intro hex
    obtain ⟨j, hij, hj⟩ := hex
    have hit := hj.2
    rw [itemTag_nodeAt hl hij] at hit
    exact hsl.eq_true_of_itemTag hit

/-! ## Bulk tagging -/

/-- A bulk tagging that tags nothing and sets the tag of the root: there are items with the
tag looked for, but none of them in the range, and no item has the other tag. -/
def Dangling (root : Root α) (first last nr : ℕ) (iftag settag : Tag) : Prop :=
  nr ≠ 0 ∧ first ≤ min last (radixTreeMaxindex root.height) ∧ (∃ j, Carries root iftag j) ∧
    (¬ ∃ j, Carries root settag j) ∧ ¬ ∃ j, first ≤ j ∧ j ≤ last ∧ Carries root iftag j

theorem rangeTagLoop_mono {height last nr : ℕ} {st r : TagScan α}
    (hr : rangeTagLoop height last nr iftag settag n st = some r) :
    rangeTagLoop height last nr iftag settag (n + k) st = some r := by
  induction n generalizing st with
  | zero => cases hr
  | succ n ih =>
    rw [add_right_comm, rangeTagLoop] at *
    simp only at hr ⊢
    split_ifs at hr ⊢ with h1 h2 h3
    · exact ih hr
    · exact hr
    · exact ih hr
    · exact hr
    · exact ih hr

theorem rangeTag_mono {first last nr : ℕ} {r : ℕ × ℕ × Root α}
    (hr : radixTreeRangeTagIfTagged n root first last nr iftag settag = some r) :
    radixTreeRangeTagIfTagged (n + k) root first last nr iftag settag = some r := by
  unfold radixTreeRangeTagIfTagged at hr ⊢
  simp only at hr ⊢
  split_ifs at hr ⊢ with h1 h2 h3 h4
  iterate 4 exact hr
  cases hlp : rangeTagLoop root.height (min last (radixTreeMaxindex root.height)) nr iftag settag
      n { rnode := root.rnode, index := first, level := root.height, tagged := 0 } with
  | none => simp [hlp] at hr
  | some st =>
    rw [rangeTagLoop_mono hlp]
    rw [hlp] at hr
    exact hr

/-- A bit at the top of a tree that is set. -/
theorem anyTagSet_iff_itemTag {h : ℕ} {s : Slot α} (he : Exact t (h + 1) (s.anyTagSet t) s) :
    s.anyTagSet t = true ↔ ∃ j < mapSize ^ (h + 1), itemTag t j (h + 1) false s = true := by
  constructor
  · intro hst
    exact he.exists_itemTag hst
  intro hex
  obtain ⟨j, -, hj⟩ := hex
  exact he.eq_true_of_itemTag hj

section Scanned

variable {h first last nr : ℕ} {s : Slot α} {tagged next : ℕ}

section

variable (hs : TagState root) (hht : root.height = h + 1)

include hs hht

theorem TagState.carries_succ_iff : Carries root t j ↔
      j < mapSize ^ (h + 1) ∧ itemTag t j (h + 1) false root.rnode = true := by
  rw [hs.carries_iff, hht]
  rfl

/-- The tags of a root with a node are the bits of the node. -/
theorem TagState.tags_eq (t : Tag) : root.tags t = root.rnode.anyTagSet t ∧
      Exact t (h + 1) (root.rnode.anyTagSet t) root.rnode := by
  have ht := hs.exact t
  rw [hht] at ht
  refine ⟨ht.1, ?_⟩
  rw [← ht.1]
  exact ht

omit hs hht in
theorem TagState.le_maxindex (hs : TagState root) (hj : Carries root t j) :
    j ≤ radixTreeMaxindex root.height := by
  by_contra hc
  have hlt := (hs.carries_iff.1 hj).1
  rw [not_le, maxindex_lt_iff (lt_of_radixTreeLookup hj.1)] at hc
  omega

/-- What a walk tags is in the range, and if there was something to tag it tags something. -/
theorem Scanned.settag_iff (hnr : nr ≠ 0)
    (hsn : Scanned h first (min last (radixTreeMaxindex root.height)) iftag settag root.rnode s
      tagged next) (he : min last (radixTreeMaxindex root.height) < next ∨ tagged = nr) :
    s.anyTagSet settag = true ↔ (∃ j, Carries root settag j) ∨
      ∃ j, first ≤ j ∧ j ≤ last ∧ Carries root iftag j := by
  rw [anyTagSet_iff_itemTag (hsn.exact settag)]
  have hn {j : ℕ} (h1 : first ≤ j) (h2 : j < next)
      (ht : itemTag iftag j (h + 1) false root.rnode = true) :
      j ≤ last ∧ j < mapSize ^ (h + 1) := by
    have hle := hsn.le_last j h1 h2 ht
    have hm := radixTreeMaxindex_lt root.height
    have hf : ¬ radixTreeMaxindex root.height < j := by omega
    rw [maxindex_lt_iff (by omega), hht] at hf
    omega
  constructor
  · intro hex
    obtain ⟨j, hj, ht⟩ := hex
    cases (hsn.tags settag j hj).1 ht with
    | inl hold => exact .inl ⟨j, (hs.carries_succ_iff hht).2 ⟨hj, hold⟩⟩
    | inr hhit =>
      obtain ⟨-, hif, h1, h2⟩ := hhit
      exact .inr ⟨j, h1, (hn h1 h2 hif).1, (hs.carries_succ_iff hht).2 ⟨hj, hif⟩⟩
  intro hor
  cases hor with
  | inl hold =>
    obtain ⟨j, hj⟩ := hold
    rw [hs.carries_succ_iff hht] at hj
    exact ⟨j, hj.1, (hsn.tags settag j hj.1).2 (.inl hj.2)⟩
  | inr hin =>
    obtain ⟨j, h1, h2, hj⟩ := hin
    have hjm := hs.le_maxindex hj
    rw [hs.carries_succ_iff hht] at hj
    -- the walk got to the item, or had tagged enough before it
    obtain ⟨k, hk1, hk2, hkt⟩ : ∃ k, first ≤ k ∧ k < next ∧
        itemTag iftag k (h + 1) false root.rnode = true := by
      cases he with
      | inl hps => exact ⟨j, h1, by omega, hj.2⟩
      | inr hct =>
        by_contra hc
        have hnl : entries (taggedAt iftag (h + 1) root.rnode) first next = [] := by
          refine entries_eq_nil ?_
          intro k hk1 hk2
          rw [taggedAt, if_neg]
          exact fun ht => hc ⟨k, hk1, hk2, ht⟩
        have hz := hsn.count
        rw [hnl, List.length_nil] at hz
        omega
    have hk := (hn hk1 hk2 hkt).2
    exact ⟨k, hk, (hsn.tags settag k hk).2 (.inr ⟨rfl, hkt, hk1, hk2⟩)⟩

theorem TagState.scanned_sound (hsn : Scanned h first last iftag settag root.rnode s tagged next) :
    SoundRoot { root with rnode := s, tags := update root.tags settag true } := by
  refine ⟨hs.sound.height_le, ?_⟩
  have h0 := hs.sound.sound
  rw [hht] at h0 ⊢
  exact hsn.same.sound h0

omit hs hht in
theorem Scanned.rootMap (hsn : Scanned h first last iftag settag root.rnode s tagged next)
    (hht : root.height = h + 1) (j : ℕ) :
    rootMap { root with rnode := s, tags := update root.tags settag true } j = rootMap root j := by
  have hlk := hsn.same.lookup j
  rw [← hht] at hlk
  simp only [RadixTree.rootMap, hlk]

/-- The root after a walk: its tags are exact where the one that was set is that of an item. -/
theorem TagState.scanned (hsn : Scanned h first last iftag settag root.rnode s tagged next) :
    (s.anyTagSet settag = true →
      TagState { root with rnode := s, tags := update root.tags settag true }) ∧
    (Aggregates { root with rnode := s, tags := update root.tags settag true } →
      s.anyTagSet settag = true) := by
  constructor
  · intro hst
    refine ⟨hs.scanned_sound hht hsn, ?_, ?_⟩
    · intro t
      simp only
      rw [hht]
      by_cases ht : t = settag
      · rw [ht, update_self, ← hst]
        exact hsn.exact settag
      have ho : root.tags t = s.anyTagSet t := by
        have htg := hs.tags_eq hht t
        rw [htg.1, Bool.eq_iff_iff, anyTagSet_iff_itemTag htg.2,
          anyTagSet_iff_itemTag (hsn.exact t)]
        refine exists_congr fun j => and_congr_right fun hj => ?_
        rw [hsn.tags t j hj]
        simp [ht]
      rw [update_of_ne ht, ho]
      exact hsn.exact t
    · intro j hj
      exact hs.bound j (by rwa [hsn.rootMap hht] at hj)
  · intro hagg
    obtain ⟨j, hj⟩ := (hagg.root_iff settag).1 (by simp)
    have hta := hj.2
    simp only [hht] at hta
    exact (hsn.exact settag).eq_true_of_itemTag hta

end

end Scanned

/-- What a bulk tagging can do: nothing, pass over a tree without the tag, tag the item that
is the whole tree, or walk the tree. -/
inductive RangeTagged (root : Root α) (first last nr : ℕ) (iftag settag : Tag) :
    ℕ × ℕ × Root α → Prop
  | idle (hidle : min last (radixTreeMaxindex root.height) < first ∨ nr = 0) :
      RangeTagged root first last nr iftag settag (0, first, root)
  | untagged (hfirst : first ≤ min last (radixTreeMaxindex root.height))
      (htag : root.tags iftag = false) :
      RangeTagged root first last nr iftag settag
        (0, (min last (radixTreeMaxindex root.height) + 1) % 2 ^ 32, root)
  | direct (hfirst : first ≤ min last (radixTreeMaxindex root.height)) (hnr : nr ≠ 0)
      (htag : root.tags iftag = true) (hheight : root.height = 0) :
      RangeTagged root first last nr iftag settag
        (1, (min last (radixTreeMaxindex root.height) + 1) % 2 ^ 32,
          { root with tags := update root.tags settag true })
  | walked {h tagged next : ℕ} {s : Slot α}
      (hfirst : first ≤ min last (radixTreeMaxindex root.height)) (hnr : nr ≠ 0)
      (htag : root.tags iftag = true) (hheight : root.height = h + 1)
      (hscan : Scanned h first (min last (radixTreeMaxindex root.height)) iftag settag root.rnode s
        tagged next)
      (hnext : next ≤ 2 ^ 32) (hlt : first < next) (hle : tagged ≤ nr)
      (hend : min last (radixTreeMaxindex root.height) < next ∨ tagged = nr) :
      RangeTagged root first last nr iftag settag
        (tagged, next % 2 ^ 32, { root with rnode := s, tags := update root.tags settag true })

section

variable (hs : TagState root)

include hs

theorem TagState.scanned_first {h : ℕ} (hht : root.height = h + 1) (first last : ℕ)
    (iftag settag : Tag) : Scanned h first last iftag settag root.rnode root.rnode 0 first := by
  refine ⟨SameItems.refl _ _, ?_, ?_, by simp, le_rfl, ?_⟩
  · exact fun t => (hs.tags_eq hht t).2
  · intro t j _
    constructor
    · exact .inl
    intro hor
    cases hor with
    | inl hold => exact hold
    | inr hn => omega
  · omega

/-- **Bulk tagging** comes to an end. -/
theorem TagState.rangeTagged (first last nr : ℕ) (iftag settag : Tag) :
    ∃ r, (∀ n ≥ 2 ^ 32 * 7 + 7,
        radixTreeRangeTagIfTagged n root first last nr iftag settag = some r) ∧
      RangeTagged root first last nr iftag settag r := by
  suffices hmin : ∃ r, radixTreeRangeTagIfTagged (2 ^ 32 * 7 + 7) root first last nr iftag settag =
      some r ∧ RangeTagged root first last nr iftag settag r by
    obtain ⟨r, hr, hcase⟩ := hmin
    refine ⟨r, fun n hn => ?_, hcase⟩
    obtain ⟨k, rfl⟩ := Nat.exists_eq_add_of_le hn
    exact rangeTag_mono hr
  unfold radixTreeRangeTagIfTagged
  by_cases he : min last (radixTreeMaxindex root.height) < first
  · rw [if_pos he]
    exact ⟨_, rfl, .idle (.inl he)⟩
  rw [if_neg he]
  rw [not_lt] at he
  by_cases hnr : nr = 0
  · rw [if_pos hnr]
    exact ⟨_, rfl, .idle (.inr hnr)⟩
  rw [if_neg hnr]
  cases hif : root.tags iftag with
  | false => exact ⟨_, rfl, .untagged he hif⟩
  | true =>
    by_cases hz : root.height = 0
    · rw [if_pos hz]
      exact ⟨_, rfl, .direct he hnr hif hz⟩
    rw [if_neg hz]
    obtain ⟨h, hht⟩ : ∃ h, root.height = h + 1 :=
      Nat.exists_eq_succ_of_ne_zero hz
    have hm := radixTreeMaxindex_lt root.height
    have hle := hs.sound.height_le
    have hsd := hs.sound.sound
    rw [hht] at hsd
    have hf : min last (radixTreeMaxindex root.height) < mapSize ^ (h + 1) := by
      have hlt : ¬ radixTreeMaxindex root.height <
          min last (radixTreeMaxindex root.height) := by omega
      rw [maxindex_lt_iff (by omega), hht] at hlt
      rw [hht]
      omega
    obtain ⟨st, next, hlp, hsn, hidx, hnx, hlt, htg, hed⟩ :=
      @rangeTagLoop_scanned α (2 ^ 32 * 7 + 7) h first (min last (radixTreeMaxindex root.height))
        nr iftag settag root.rnode (by omega) hsd hf (by omega)
        ⟨root.rnode, first, h + 1, 0⟩ (hs.scanned_first hht _ _ _ _) he (by simp)
        (by simp) (pos_of_ne_zero hnr)
        (by have : maxPath = 6 := rfl
            simp only
            omega)
    rw [← hht] at hlp
    rw [hlp]
    refine ⟨_, rfl, ?_⟩
    rw [hidx]
    exact .walked he hnr hif hht hsn hnx hlt htg hed

/-- It leaves the tags exact unless it is one that leaves the tag of the root dangling. -/
theorem TagState.rangeTag (first last nr : ℕ) (iftag settag : Tag) :
    ∃ r, (∀ n ≥ 2 ^ 32 * 7 + 7,
        radixTreeRangeTagIfTagged n root first last nr iftag settag = some r) ∧
      (¬ Dangling root first last nr iftag settag ∧ TagState r.2.2 ∨
        Dangling root first last nr iftag settag ∧ ¬ Aggregates r.2.2) := by
  obtain ⟨r, hr, hcs⟩ := hs.rangeTagged first last nr iftag settag
  refine ⟨r, hr, ?_⟩
  cases hcs with
  | idle hid =>
    refine .inl ⟨?_, hs⟩
    intro hd
    have hnr := hd.1
    have hf := hd.2.1
    omega
  | untagged hf htg =>
    refine .inl ⟨?_, hs⟩
    intro hd
    have htr := (hs.aggregates.root_iff iftag).2 hd.2.2.1
    rw [htg] at htr
    cases htr
  | direct hf hnr htg hht =>
    rw [hht] at hf
    have hz : radixTreeMaxindex 0 = 0 := by decide
    refine .inl ⟨?_, ?_⟩
    · intro hd
      refine hd.2.2.2.2 ⟨0, by omega, by omega, ?_⟩
      obtain ⟨j, hj⟩ := hd.2.2.1
      have hlt := (hs.carries_iff.1 hj).1
      rw [hht, pow_zero] at hlt
      have hj0 : j = 0 := by omega
      rw [← hj0]
      exact hj
    refine ⟨⟨hs.sound.height_le, hs.sound.sound⟩, ?_, hs.bound⟩
    intro t
    have ht := hs.exact t
    have hif := hs.exact iftag
    simp only
    rw [hht] at ht hif ⊢
    by_cases hts : t = settag
    · exact fun _ => hif htg
    rw [update_of_ne hts]
    exact ht
  | @walked h tagged next s hf hnr htg hht hsn hnx hlt hle he =>
    have hiff := hsn.settag_iff hs hht hnr he
    have hro := hs.scanned hht hsn
    by_cases hst : s.anyTagSet settag = true
    · refine .inl ⟨?_, hro.1 hst⟩
      intro hd
      exact (hiff.1 hst).elim hd.2.2.2.1 hd.2.2.2.2
    have hno := not_or.1 (fun hc => hst (hiff.2 hc))
    exact .inr ⟨⟨hnr, hf, (hs.aggregates.root_iff iftag).1 htg, hno⟩,
      fun hagg => hst (hro.2 hagg)⟩

/-! ## Runs -/

/-- A run from an empty root of insertions, deletions, tags set on items that are there, tags
cleared, and bulk taggings that do not leave a tag of the root dangling. -/
inductive TagRun : Root α → Prop
  | empty : TagRun (emptyRoot α)
  | insert {root : Root α} (run : TagRun root) (alloc : Allocs) (index : ℕ) (a : α)
      (hi : index < 2 ^ 32) : TagRun (radixTreeInsert alloc root index a).2
  | delete {root : Root α} (run : TagRun root) (index : ℕ) (hi : index < 2 ^ 32) :
      TagRun (radixTreeDelete root index).2
  | tagSet {root root' : Root α} (run : TagRun root) (index : ℕ) (t : Tag)
      (present : radixTreeLookup root index ≠ none)
      (hres : radixTreeTagSet root index t = some root') : TagRun root'
  | tagClear {root : Root α} (run : TagRun root) (index : ℕ) (t : Tag) :
      TagRun (radixTreeTagClear root index t).2
  | rangeTag {root root' : Root α} (run : TagRun root) (n first last nr : ℕ) (iftag settag : Tag)
      (tagged next : ℕ)
      (hres : radixTreeRangeTagIfTagged n root first last nr iftag settag =
        some (tagged, next, root'))
      (hok : ¬ Dangling root first last nr iftag settag) : TagRun root'

theorem TagState.insert (alloc : Allocs)
    (hi : index < 2 ^ 32) (a : α) : TagState (radixTreeInsert alloc root index a).2 := by
  have his := hs.sound.insert alloc hi a
  have hex := hs.exact.insert hs.sound alloc hi a
  refine ⟨his.1, hex.1, ?_⟩
  intro j hj
  by_cases hji : j = index
  · omega
  refine hs.bound j ?_
  have hm := his.2
  cases hr : (radixTreeInsert alloc root index a).1 with
  | ok | bug =>
    rw [hr] at hm
    rwa [hm.2 j, if_neg hji] at hj
  | eexist | enomem =>
    rw [hr] at hm
    rwa [hm.2 j] at hj

theorem TagState.delete (hi : index < 2 ^ 32) : TagState (radixTreeDelete root index).2 := by
  have hdel := hs.sound.delete hi
  refine ⟨hdel.1, hs.exact.delete hs.sound hi, ?_⟩
  intro j hj
  rw [hdel.2.2 j] at hj
  by_cases hji : j = index
  · omega
  rw [if_neg hji] at hj
  exact hs.bound j hj

/-- A tag of an item that is there can be set. -/
theorem TagState.tagSet (t : Tag) (present : radixTreeLookup root index ≠ none) :
    ∃ root', radixTreeTagSet root index t = some root' ∧ TagState root' := by
  have hi := lt_of_radixTreeLookup present
  rw [hs.sound.lookup hi] at present
  obtain ⟨root', hr, hsd, hex, hm⟩ := hs.exact.tagSet hs.sound hi present t
  refine ⟨root', hr, hsd, hex, ?_⟩
  intro j hj
  rw [hm] at hj
  exact hs.bound j hj

theorem TagState.tagClear (index : ℕ) (t : Tag) : TagState (radixTreeTagClear root index t).2 := by
  have hc := hs.sound.tagClear index t
  refine ⟨hc.sound, hs.exact.tagClear hs.sound index t, ?_⟩
  intro j hj
  rw [rootMap, hc.height_eq, hc.lookup] at hj
  exact hs.bound j hj

end

theorem TagRun.state (hrun : TagRun root) : TagState root := by
  induction hrun with
  | empty =>
    refine ⟨⟨Nat.zero_le _, sound_null⟩, exactRoot_empty, ?_⟩
    intro j hj
    simp [rootMap, emptyRoot] at hj
  | insert _ alloc index a hi ih => exact ih.insert alloc hi a
  | delete _ index hi ih => exact ih.delete hi
  | tagSet _ index t present hrs ih =>
    obtain ⟨root', hr', hs⟩ := ih.tagSet t present
    rw [hrs] at hr'
    cases hr'
    exact hs
  | tagClear _ index t ih => exact ih.tagClear index t
  | rangeTag _ n first last nr iftag settag tagged next hrs hok ih =>
    obtain ⟨r, hr, hcase⟩ := ih.rangeTag first last nr iftag settag
    cases (rangeTag_mono hrs).symm.trans (hr _ (Nat.le_add_left _ n))
    cases hcase with
    | inl h => exact h.2
    | inr h => exact absurd h.1 hok

/-- **The tags of a radix tree aggregate.** After any run, the bit of every slot, and the tag
of the root, is set exactly where an item below it carries the tag. A tag can be set on every
item that is there, and a bulk tagging comes to an end; the tags aggregate after it exactly
when it does not leave the tag of the root dangling. -/
theorem tagRun_aggregates {root : Root α} (hrun : TagRun root) :
    Aggregates root ∧
      (∀ index t, radixTreeLookup root index ≠ none →
        ∃ root', radixTreeTagSet root index t = some root') ∧
      ∀ first last nr iftag settag, ∃ r, (∀ n ≥ 2 ^ 32 * 7 + 7,
          radixTreeRangeTagIfTagged n root first last nr iftag settag = some r) ∧
        (Aggregates r.2.2 ↔ ¬ Dangling root first last nr iftag settag) := by
  have hs := hrun.state
  refine ⟨hs.aggregates, ?_, ?_⟩
  · intro index t present
    obtain ⟨root', hres, -⟩ := hs.tagSet t present
    exact ⟨root', hres⟩
  intro first last nr iftag settag
  obtain ⟨r, hr, hcases⟩ := hs.rangeTag first last nr iftag settag
  refine ⟨r, hr, ?_⟩
  cases hcases with
  | inl h => exact iff_of_true h.2.aggregates h.1
  | inr h => exact iff_of_false h.2 (not_not_intro h.1)

/-- A tree with an item at index 5 that carries tag 0. -/
def taggedItem : Root ℕ :=
  (radixTreeTagSet (oneItem 5 7) 5 pagecacheTagDirty).getD (emptyRoot ℕ)

theorem taggedItem_run : TagRun taggedItem :=
  TagRun.tagSet (TagRun.insert TagRun.empty allocAll 5 7 (by decide)) 5 0 (by decide) rfl

theorem tagRun_aggregates_taggedItem :
    TagRun taggedItem ∧ Aggregates taggedItem ∧
      ∃ r, (∀ n ≥ 2 ^ 32 * 7 + 7, radixTreeRangeTagIfTagged n taggedItem 0 20 1 0 1 = some r) ∧
        Aggregates r.2.2 := by
  have hspec := tagRun_aggregates taggedItem_run
  refine ⟨taggedItem_run, hspec.1, ?_⟩
  obtain ⟨r, hr, hiff⟩ := hspec.2.2 0 20 1 0 1
  refine ⟨r, hr, hiff.2 ?_⟩
  intro hd
  exact hd.2.2.2.2 ⟨5, by decide, by decide, by decide, by decide⟩

/-- The item with the tag is outside of the range: the root gets the other tag, and no item
has it. -/
theorem rangeTag_dangling :
    TagRun taggedItem ∧ ∃ root', radixTreeRangeTagIfTagged 20 taggedItem 10 20 1 0 1 =
      some (0, 21, root') ∧ root'.tags 1 = true ∧ ¬ Aggregates root' := by
  refine ⟨taggedItem_run, { taggedItem with tags := update taggedItem.tags 1 true }, rfl, rfl, ?_⟩
  intro hagg
  obtain ⟨j, hj⟩ := (hagg.root_iff 1).1 rfl
  have hfalse : false = true := hj.2
  cases hfalse

end NestLinux.RadixTree
