import NestLinux.RadixTree.TagRun

/-!
# What bulk tagging tags

`radix_tree_range_tag_if_tagged` tags the first items of its range that carry the one tag,
as many as it is asked for, and says where to go on. The index to go on from wraps to 0
after the last one.
-/

namespace NestLinux.RadixTree

open Lib Function

variable {α : Type*}

/-- The index, if its item carries the tag. -/
def carrierAt (root : Root α) (t : Tag) (j : ℕ) : Option ℕ :=
  if (radixTreeLookup root j).isSome && itemTag t j root.height (root.tags t) root.rnode then some j
  else none

/-- The indices from `first` to `last` whose items carry the tag, in order. -/
def carriers (root : Root α) (t : Tag) (first last : ℕ) : List ℕ :=
  entries (carrierAt root t) first (last + 1)

section Carriers

variable {root : Root α} {t : Tag} {first last j k : ℕ}

theorem carrierAt_eq_some_iff : carrierAt root t j = some k ↔ j = k ∧ Carries root t j := by
  rw [carrierAt, Carries, ← Option.isSome_iff_ne_none, ← Bool.and_eq_true]
  split_ifs with hc <;> simp [hc]

theorem carrierAt_eq_none_iff : carrierAt root t j = none ↔ ¬ Carries root t j := by
  rw [Option.eq_none_iff_forall_ne_some]
  constructor
  · intro hno hc
    exact hno j (carrierAt_eq_some_iff.2 ⟨rfl, hc⟩)
  intro hc k hk
  exact hc (carrierAt_eq_some_iff.1 hk).2

theorem mem_entries_carrierAt {lo hi : ℕ} :
    j ∈ entries (carrierAt root t) lo hi ↔ lo ≤ j ∧ j < hi ∧ Carries root t j := by
  rw [mem_entries]
  constructor
  · intro hex
    obtain ⟨k, h1, h2, hk⟩ := hex
    obtain ⟨rfl, hc⟩ := carrierAt_eq_some_iff.1 hk
    exact ⟨h1, h2, hc⟩
  · intro hj
    exact ⟨j, hj.1, hj.2.1, carrierAt_eq_some_iff.2 ⟨rfl, hj.2.2⟩⟩

end Carriers

/-- The items `tagged` got the tag `settag`, and nothing else changed. -/
structure TagsExactly (root root' : Root α) (settag : Tag) (tagged : List ℕ) : Prop where
  lookup : ∀ j, radixTreeLookup root' j = radixTreeLookup root j
  settag_iff : ∀ j, Carries root' settag j ↔ Carries root settag j ∨ j ∈ tagged
  other_iff : ∀ t ≠ settag, ∀ j, Carries root' t j ↔ Carries root t j

/-- The indices before `next`, or all of them where it wrapped to 0, have been dealt with, and
no other ones. -/
structure DealtWith (root : Root α) (first last : ℕ) (iftag : Tag) (tagged : List ℕ) (next : ℕ) :
    Prop where
  mem : ∀ j, first ≤ j → j ≤ last → j < next ∨ next = 0 → Carries root iftag j → j ∈ tagged
  lt : ∀ j ∈ tagged, j < next ∨ next = 0

section Walk

variable {root : Root α} {h first last nr : ℕ} {iftag settag : Tag} {s : Slot α} {tagged next : ℕ}

section

variable (hs : TagState root) (hht : root.height = h + 1)
  (hsn : Scanned h first (min last (radixTreeMaxindex root.height)) iftag settag root.rnode s
  tagged next)

include hs hht hsn

theorem TagState.take_carriers (hf : first ≤ last) (hle : tagged ≤ nr)
    (he : min last (radixTreeMaxindex root.height) < next ∨ tagged = nr) :
    (carriers root iftag first last).take nr =
        entries (carrierAt root iftag) first (min next (last + 1)) ∧
      ((carriers root iftag first last).take nr).length = tagged := by
  have hm := radixTreeMaxindex_lt root.height
  -- an item with the tag that the walk has passed fits into the tree
  have hse : entries (carrierAt root iftag) first next =
      entries (taggedAt iftag (h + 1) root.rnode) first next := by
    refine entries_congr ?_
    intro j h1 h2
    rw [taggedAt]
    split_ifs with ht
    · have hla := hsn.le_last j h1 h2 ht
      have hft : ¬ radixTreeMaxindex root.height < j := by omega
      rw [maxindex_lt_iff (by omega), hht] at hft
      exact carrierAt_eq_some_iff.2
        ⟨rfl, (hs.carries_succ_iff hht).2 ⟨by omega, ht⟩⟩
    · rw [carrierAt_eq_none_iff]
      exact fun hc => ht ((hs.carries_succ_iff hht).1 hc).2
  have hmin : entries (carrierAt root iftag) first (min next (last + 1)) =
      entries (carrierAt root iftag) first next := by
    have hbey : entries (carrierAt root iftag) (min next (last + 1)) next = [] := by
      refine entries_eq_nil ?_
      intro j h1 h2
      rw [carrierAt_eq_none_iff]
      intro hc
      have hla := hsn.le_last j (by omega) h2 ((hs.carries_succ_iff hht).1 hc).2
      omega
    have hf' := hsn.first_le
    rw [@entries_append _ _ first (min next (last + 1)) next (by omega) (by omega), hbey,
      List.append_nil]
  have hl : (entries (carrierAt root iftag) first (min next (last + 1))).length = tagged := by
    rw [hmin, hse]
    exact hsn.count.symm
  have htk : (carriers root iftag first last).take nr =
      entries (carrierAt root iftag) first (min next (last + 1)) := by
    have hf' := hsn.first_le
    refine take_entries (by omega) (by omega) ?_
    rw [hl]
    cases he with
    | inl hps =>
      refine .inr ⟨hle, entries_eq_nil ?_⟩
      intro j h1 h2
      rw [carrierAt_eq_none_iff]
      intro hc
      have hft := hs.le_maxindex hc
      omega
    | inr hct => exact .inl hct
  rw [htk]
  exact ⟨rfl, hl⟩

theorem TagState.walked_exactly :
    TagsExactly root { root with rnode := s, tags := update root.tags settag true } settag
      (entries (carrierAt root iftag) first (min next (last + 1))) := by
  have hlk (j : ℕ) : radixTreeLookup
      { root with rnode := s, tags := update root.tags settag true } j =
        radixTreeLookup root j := by
    have hsd := hs.scanned_sound hht hsn
    by_cases hj : j < 2 ^ 32
    · rw [hsd.lookup hj, hs.sound.lookup hj, hsn.rootMap hht]
    have hno {root : Root α} : radixTreeLookup root j = none := by
      by_contra hc
      exact hj (lt_of_radixTreeLookup hc)
    rw [hno, hno]
  have hcr (t : Tag) (j : ℕ) :
      Carries { root with rnode := s, tags := update root.tags settag true } t j ↔
        j < mapSize ^ (h + 1) ∧ radixTreeLookup root j ≠ none ∧
          itemTag t j (h + 1) false s = true := by
    rw [Carries, hlk]
    simp only [hht]
    constructor
    · intro hc
      refine ⟨?_, hc.1, hc.2⟩
      have hm := hc.1
      rw [hs.sound.lookup (lt_of_radixTreeLookup hc.1)] at hm
      by_contra hge
      rw [← hht] at hge
      exact hm (if_neg hge)
    · exact fun hc => hc.2
  have hold (t : Tag) (j : ℕ) : Carries root t j ↔
      j < mapSize ^ (h + 1) ∧ radixTreeLookup root j ≠ none ∧
        itemTag t j (h + 1) false root.rnode = true := by
    constructor
    · intro hc
      have hsc := (hs.carries_succ_iff hht).1 hc
      exact ⟨hsc.1, hc.1, hsc.2⟩
    · exact fun hc => (hs.carries_succ_iff hht).2 ⟨hc.1, hc.2.2⟩
  refine ⟨hlk, ?_, ?_⟩
  · intro j
    rw [hcr, hold, mem_entries_carrierAt, hold]
    constructor
    · intro hc
      cases (hsn.tags settag j hc.1).1 hc.2.2 with
      | inl htg => exact .inl ⟨hc.1, hc.2.1, htg⟩
      | inr hn =>
        have hla := hsn.le_last j hn.2.2.1 hn.2.2.2 hn.2.1
        exact .inr ⟨hn.2.2.1, by omega, hc.1, hc.2.1, hn.2.1⟩
    intro hor
    cases hor with
    | inl hc => exact ⟨hc.1, hc.2.1, (hsn.tags settag j hc.1).2 (Or.inl hc.2.2)⟩
    | inr hn =>
      obtain ⟨h1, h2, hj, hso, htg⟩ := hn
      exact ⟨hj, hso, (hsn.tags settag j hj).2 (Or.inr ⟨rfl, htg, h1, by omega⟩)⟩
  · intro t ht j
    rw [hcr, hold]
    refine and_congr_right fun hj => and_congr_right fun _ => ?_
    rw [hsn.tags t j hj]
    constructor
    · intro hor
      cases hor with
      | inl htg => exact htg
      | inr hn => exact absurd hn.1 ht
    · exact .inl

end

end Walk

theorem TagState.direct_exactly {root : Root α} (hs : TagState root) (hht : root.height = 0)
    {iftag : Tag} (htg : root.tags iftag = true) (settag : Tag) :
    TagsExactly root { root with tags := update root.tags settag true } settag [0] := by
  have hz {t : Tag} {j : ℕ} (hc : Carries root t j) : j = 0 := by
    have hlt := (hs.carries_iff.1 hc).1
    rw [hht, Nat.pow_zero] at hlt
    omega
  have hit : Carries root iftag 0 := by
    obtain ⟨j, hj⟩ := (hs.aggregates.root_iff iftag).1 htg
    rw [← hz hj]
    exact hj
  refine ⟨fun _ => rfl, ?_, ?_⟩
  · intro j
    rw [List.mem_singleton]
    constructor
    · intro hc
      right
      have hso : radixTreeLookup root j ≠ none := hc.1
      refine hz (t := iftag) ⟨hso, ?_⟩
      rw [hht]
      exact htg
    intro hor
    have hso : radixTreeLookup root j ≠ none := by
      cases hor with
      | inl hc => exact hc.1
      | inr hj =>
        rw [hj]
        exact hit.1
    refine ⟨hso, ?_⟩
    simp only [hht, itemTag, update_self]
  · intro t ht j
    simp only [Carries, update_of_ne ht]
    rfl

theorem tagsExactly_nil : TagsExactly root root settag [] :=
  ⟨fun _ => rfl, fun _ => by simp, fun _ _ _ => Iff.rfl⟩

/-- **Bulk tagging is exact.** The first items of the range that carry the tag looked for get
the other tag, as many as wanted, and the call returns their number; no other item is tagged
and no other tag changes. The index to go on from is after all of them, or 0 where it
wrapped, and no item before it was left out. -/
theorem rangeTag_exact {root : Root α} (hs : TagState root) (first last : ℕ) {nr : ℕ}
    (hnr : 1 ≤ nr) (iftag settag : Tag) :
    ∃ next root', (∀ n ≥ 2 ^ 32 * 7 + 7,
        radixTreeRangeTagIfTagged n root first last nr iftag settag =
          some (((carriers root iftag first last).take nr).length, next, root')) ∧
      TagsExactly root root' settag ((carriers root iftag first last).take nr) ∧
      DealtWith root first last iftag ((carriers root iftag first last).take nr) next := by
  obtain ⟨r, hr, hcase⟩ := hs.rangeTagged first last nr iftag settag
  have hnil (hno : ∀ j, first ≤ j → j ≤ last → ¬ Carries root iftag j) :
      (carriers root iftag first last).take nr = [] := by
    have hempty : carriers root iftag first last = [] := by
      refine entries_eq_nil ?_
      intro j h1 h2
      exact carrierAt_eq_none_iff.2 (hno j h1 (by omega))
    rw [hempty, List.take_nil]
  have hnone {next : ℕ} (hno : ∀ j, first ≤ j → j ≤ last → ¬ Carries root iftag j) :
      DealtWith root first last iftag [] next :=
    ⟨fun j h1 h2 _ hc => absurd hc (hno j h1 h2), fun j hj => absurd hj List.not_mem_nil⟩
  cases hcase with
  | idle hidle =>
    have hno (j : ℕ) (h1 : first ≤ j) (h2 : j ≤ last) : ¬ Carries root iftag j := by
      intro hc
      have hfit := hs.le_maxindex hc
      omega
    rw [hnil hno]
    exact ⟨_, _, hr, tagsExactly_nil, hnone hno⟩
  | untagged hfirst htag =>
    have hno (j : ℕ) (_ : first ≤ j) (_ : j ≤ last) : ¬ Carries root iftag j := by
      intro hc
      have htrue := (hs.aggregates.root_iff iftag).2 ⟨j, hc⟩
      rw [htag] at htrue
      cases htrue
    rw [hnil hno]
    exact ⟨_, _, hr, tagsExactly_nil, hnone hno⟩
  | direct hfirst hnr' htag hht =>
    have hexact := hs.direct_exactly hht htag settag
    have hzero : radixTreeMaxindex root.height = 0 := by
      rw [hht]
      decide
    have hfirst0 : first = 0 := by omega
    subst hfirst0
    have hlt {j : ℕ} (hc : Carries root iftag j) : j = 0 := by
      have hfit := hs.le_maxindex hc
      omega
    have hitem : Carries root iftag 0 := by
      obtain ⟨j, hj⟩ := (hs.aggregates.root_iff iftag).1 htag
      rw [← hlt hj]
      exact hj
    have htake : (carriers root iftag 0 last).take nr = [0] := by
      have hrest : entries (carrierAt root iftag) (0 + 1) (last + 1) = [] := by
        refine entries_eq_nil ?_
        intro j h1 _
        rw [carrierAt_eq_none_iff]
        intro hc
        have := hlt hc
        omega
      rw [carriers, entries_cons (Nat.succ_pos last), hrest, carrierAt_eq_some_iff.2 ⟨rfl, hitem⟩]
      exact List.take_of_length_le hnr
    rw [htake]
    refine ⟨_, _, hr, hexact, ?_, ?_⟩
    · intro j _ _ _ hc
      rw [List.mem_singleton]
      exact hlt hc
    intro j hj
    rw [List.mem_singleton] at hj
    omega
  | @walked h tagged next s hfirst hnr' htag hht hsn hnext hlt hle hend =>
    have htake := hs.take_carriers hht hsn (by omega) hle hend
    have hexact := hs.walked_exactly hht hsn
    rw [htake.2]
    rw [← htake.1] at hexact
    refine ⟨_, _, hr, hexact, ?_, ?_⟩
    · intro j h1 h2 hpos hc
      rw [htake.1, mem_entries_carrierAt]
      refine ⟨h1, ?_, hc⟩
      have hj := lt_of_radixTreeLookup hc.1
      omega
    · intro j hj
      rw [htake.1, mem_entries_carrierAt] at hj
      omega

/-- In the tree with the item at 5, that item gets the other tag. -/
theorem rangeTag_exact_taggedItem :
    TagState taggedItem ∧ ∃ next root', (∀ n ≥ 2 ^ 32 * 7 + 7,
        radixTreeRangeTagIfTagged n taggedItem 0 20 1 0 1 = some (1, next, root')) ∧
      Carries root' 1 5 ∧ ¬ Carries root' 1 6 := by
  have hcarriers : (carriers taggedItem 0 0 20).take 1 = [5] := by decide
  obtain ⟨next, root', hcall, hexact, -⟩ :=
    rangeTag_exact taggedItem_run.state 0 20 (le_refl 1) 0 1
  rw [hcarriers] at hcall hexact
  refine ⟨taggedItem_run.state, next, root', hcall, (hexact.settag_iff 5).2 (by simp), ?_⟩
  rw [hexact.settag_iff 6]
  intro hor
  cases hor with
  | inl hc => exact absurd hc.1 (by decide)
  | inr hmem => exact absurd hmem (by decide)

/-- A tree with an item at the last index that carries tag 0. -/
def taggedTop : Root ℕ :=
  (radixTreeTagSet (oneItem (2 ^ 32 - 1) 7) (2 ^ 32 - 1) pagecacheTagDirty).getD (emptyRoot ℕ)

/-- The item at the last index gets the other tag, and the index to go on from wraps to 0: the
item is above it. -/
theorem rangeTag_wraps :
    TagState taggedTop ∧ ∃ root',
      radixTreeRangeTagIfTagged 20 taggedTop (2 ^ 32 - 1) (2 ^ 32 - 1) 1 0 1 =
        some (1, 0, root') ∧
      ¬ Carries taggedTop 1 (2 ^ 32 - 1) ∧ Carries root' 1 (2 ^ 32 - 1) := by
  have hrun : TagRun taggedTop :=
    TagRun.tagSet (TagRun.insert TagRun.empty allocAll (2 ^ 32 - 1) 7 (by decide)) (2 ^ 32 - 1) 0
      (by decide) rfl
  refine ⟨hrun.state, _, rfl, ?_, by decide, by decide⟩
  exact fun hc => absurd hc.2 (by decide)

end NestLinux.RadixTree
