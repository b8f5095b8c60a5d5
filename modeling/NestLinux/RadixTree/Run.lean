import NestLinux.RadixTree.Gang
import NestLinux.RadixTree.Tags

/-!
# Runs of a radix tree

A run of insertions and deletions, in which allocations fail as they like, is a run of a
finite map. A lookup reads the map, and a gang lookup lists it; an exception is a gang
lookup of no items, which a tree that is one item answers with that item.
-/

namespace NestLinux.RadixTree

open Function

variable {α : Type*}

/-- A run of `radix_tree_insert` and `radix_tree_delete` from an empty root, with the map
that it is meant to leave: an insertion that returns 0 adds the item, and no other changes
anything. -/
inductive MapRun : Root α → (ℕ → Option α) → Prop
  | empty : MapRun (emptyRoot α) (fun _ => none)
  | insert {root : Root α} {m : ℕ → Option α} (run : MapRun root m) (alloc : Allocs) (index : ℕ)
      (a : α) (hi : index < 2 ^ 32) :
      MapRun (radixTreeInsert alloc root index a).2
        (if (radixTreeInsert alloc root index a).1 = .ok then update m index (some a) else m)
  | delete {root : Root α} {m : ℕ → Option α} (run : MapRun root m) (index : ℕ)
      (hi : index < 2 ^ 32) : MapRun (radixTreeDelete root index).2 (update m index none)

structure RunState (root : Root α) (m : ℕ → Option α) : Prop where
  sound : SoundRoot root
  exact : ExactRoot root
  map : ∀ j, rootMap root j = m j

variable {root : Root α} {m : ℕ → Option α}

theorem RunState.insert (hs : RunState root m) (alloc : Allocs)
    {index : ℕ} (hi : index < 2 ^ 32) (a : α) : RunState (radixTreeInsert alloc root index a).2
        (if (radixTreeInsert alloc root index a).1 = .ok then update m index (some a) else m) ∧
      (radixTreeInsert alloc root index a).1 ≠ .bug ∧
      ((radixTreeInsert alloc root index a).1 = .eexist ↔ m index ≠ none) := by
  have his := hs.sound.insert alloc hi a
  have hex := hs.exact.insert hs.sound alloc hi a
  have hm := his.2
  cases hr : (radixTreeInsert alloc root index a).1 with
  | ok =>
    rw [hr] at hm
    refine ⟨⟨his.1, hex.1, ?_⟩, by simp, ?_⟩
    · intro j
      rw [hm.2 j, if_pos rfl, update_apply, hs.map]
    · simp [← hs.map, hm.1]
  | bug => exact absurd hr hex.2
  | eexist =>
    rw [hr] at hm
    refine ⟨⟨his.1, hex.1, ?_⟩, by simp, ?_⟩
    · intro j
      rw [hm.2 j, if_neg (by simp), hs.map]
    · simpa [← hs.map] using hm.1
  | enomem =>
    rw [hr] at hm
    refine ⟨⟨his.1, hex.1, ?_⟩, by simp, ?_⟩
    · intro j
      rw [hm.2 j, if_neg (by simp), hs.map]
    · simp [← hs.map, hm.1]

theorem RunState.delete (hs : RunState root m) {index : ℕ} (hi : index < 2 ^ 32) :
    RunState (radixTreeDelete root index).2 (update m index none) ∧
      (radixTreeDelete root index).1 = m index := by
  have hdel := hs.sound.delete hi
  refine ⟨⟨hdel.1, hs.exact.delete hs.sound hi, ?_⟩, hdel.2.1.trans (hs.map index)⟩
  intro j
  rw [hdel.2.2 j, update_apply, hs.map]

theorem MapRun.state (hr : MapRun root m) : RunState root m := by
  induction hr with
  | empty =>
    refine ⟨⟨Nat.zero_le _, sound_null⟩, exactRoot_empty, ?_⟩
    simp [rootMap, emptyRoot]
  | insert _ alloc index a hi ih => exact (ih.insert alloc hi a).1
  | delete _ index hi ih => exact (ih.delete hi).1

/-- What is returned in a state that stands for a map: by a lookup, by an insertion with
any allocations, and by a deletion. -/
structure RefinesMap (root : Root α) (m : ℕ → Option α) : Prop where
  lookup : ∀ index < 2 ^ 32, radixTreeLookup root index = m index
  insert : ∀ alloc, ∀ index < 2 ^ 32, ∀ a,
    (radixTreeInsert alloc root index a).1 ∈ [InsertResult.ok, .eexist, .enomem] ∧
      ((radixTreeInsert alloc root index a).1 = .eexist ↔ m index ≠ none)
  delete : ∀ index < 2 ^ 32, (radixTreeDelete root index).1 = m index

theorem RunState.refinesMap (hs : RunState root m) : RefinesMap root m := by
  refine ⟨?_, ?_, ?_⟩
  · intro index hi
    exact (hs.sound.lookup hi).trans (hs.map index)
  · intro alloc index hi a
    have his := hs.insert alloc hi a
    refine ⟨?_, his.2.2⟩
    cases hr : (radixTreeInsert alloc root index a).1 with
    | ok | eexist | enomem => simp
    | bug => exact absurd hr his.2.1
  · intro index hi
    exact (hs.delete hi).2

/-- A gang lookup that asks for no items, of a tree that is one item. -/
def AsksForNone (root : Root α) (first max : ℕ) : Prop :=
  first = 0 ∧ max = 0 ∧ ∃ a, root.rnode = .item a

/-- **The gang lookup** after a run: what it should return, unless it asks for nothing. -/
theorem RunState.gangLookup (hs : RunState root m)
    {first max n : ℕ} (hf : first < 2 ^ 32) (hn : 2 ^ 32 < n) :
    ∃ found, radixTreeGangLookup n root first max = some found ∧
      (found = firstItems m first max ↔ ¬ AsksForNone root first max) := by
  have hm : rootMap root = m := funext hs.map
  refine ⟨_, hs.sound.gangLookup hf hn, ?_⟩
  unfold AsksForNone
  rw [hm]
  cases hnode : root.rnode with
  | null | node => simp
  | item a =>
    have hat (j : ℕ) : m j = if j < 1 then some a else none := by
      rw [← hs.map, rootMap, hs.sound.height_item hnode, hnode]
      rfl
    simp only [Slot.item.injEq, exists_eq', and_true]
    exact direct_eq_firstItems_iff hat

/-- **The radix tree is a finite map.** After any run of insertions and deletions, with
allocations that may fail, what a lookup, an insertion and a deletion return is what the
map says, and a gang lookup comes to an end with the first items of the map, exactly when
it does not ask a tree that is one item for no items. -/
theorem mapRun_refines {root : Root α} {m : ℕ → Option α} (hrun : MapRun root m) :
    RefinesMap root m ∧
      ∀ first < 2 ^ 32, ∀ max, ∃ found,
        (∀ n > 2 ^ 32, radixTreeGangLookup n root first max = some found) ∧
          (found = firstItems m first max ↔ ¬ AsksForNone root first max) := by
  refine ⟨hrun.state.refinesMap, ?_⟩
  intro first hfirst max
  obtain ⟨found, hfound, hiff⟩ : ∃ found, radixTreeGangLookup (2 ^ 32 + 1) root first max =
      some found ∧ (found = firstItems m first max ↔ ¬ AsksForNone root first max) :=
    hrun.state.gangLookup hfirst (Nat.lt_succ_self _)
  refine ⟨found, ?_, hiff⟩
  intro n hn
  rw [← hfound, hrun.state.sound.gangLookup hfirst hn,
    hrun.state.sound.gangLookup hfirst (Nat.lt_succ_self _)]

/-- Allocations that all succeed. -/
def allocAll : Allocs := { extend := fun _ => true, walk := fun _ => true }

def oneItem (index a : ℕ) : Root ℕ := (radixTreeInsert allocAll (emptyRoot ℕ) index a).2

theorem mapRun_refines_oneItem :
    MapRun (oneItem 5 7) (update (fun _ => none) 5 (some 7)) ∧
      radixTreeLookup (oneItem 5 7) 5 = some 7 ∧
      ∃ found, (∀ n > 2 ^ 32, radixTreeGangLookup n (oneItem 5 7) 0 3 = some found) ∧
        found = firstItems (update (fun _ => none) 5 (some 7)) 0 3 := by
  have hrun : MapRun (oneItem 5 7) (update (fun _ => none) 5 (some 7)) :=
    MapRun.insert MapRun.empty allocAll 5 7 (by decide)
  have hspec := mapRun_refines hrun
  refine ⟨hrun, (hspec.1.lookup 5 (by decide)).trans (update_self _ _ _), ?_⟩
  obtain ⟨found, hfound, hiff⟩ := hspec.2 0 (by decide) 3
  exact ⟨found, hfound, hiff.2 (fun hc => absurd hc.2.1 (by decide))⟩

/-- One item at index 0, and a gang lookup of no items: it returns the item. -/
theorem gangLookup_none_wanted :
    MapRun (oneItem 0 7) (update (fun _ => none) 0 (some 7)) ∧
      ∀ n, radixTreeGangLookup n (oneItem 0 7) 0 0 = some [7] ∧
        firstItems (update (fun _ => none) 0 (some 7)) 0 0 ≠ [7] :=
  ⟨MapRun.insert MapRun.empty allocAll 0 7 (by decide), fun _ => ⟨rfl, by simp [firstItems]⟩⟩

end NestLinux.RadixTree
