import NestLinux.Idr.Ops
import Mathlib.Data.Set.Card
import Mathlib.Order.Interval.Finset.Nat

/-!
# An idr is a map

In an idr the slots of the lowest level are the pointers of the user, and a bit says that an id is
taken. Whatever the calls, and wherever the free list runs empty, `idr_find` returns the pointer
stored last, and a new id is the first one that is not taken.
-/

namespace NestLinux.IdAlloc

open Function Lib Option

variable {α : Type*} {i j id start : ℕ} {bm : ℕ → Bool} {ary : ℕ → Slot α} {n : ℤ}
  {idp idp' : Idr α} {m : ℕ → Option (Option α)} {ptr : Option α}

/-- The lowest layers of an idr: they count their bits, and a slot whose bit is clear is null. -/
def PtrLeaf : Leaf α := fun bm ary n =>
  n = used (fun b => b = true) bm idrSize ∧ ∀ i < idrSize, bm i = false → ary i = .null

theorem leafOk_ptrLeaf : LeafOk (PtrLeaf : Leaf α) where
  zero := by
    refine ⟨?_, fun _ _ _ => rfl⟩
    rfl
  empty := by
    intro bm ary h i hi
    have hno := (used_eq_zero_iff (fun b => b = true) bm idrSize).1 (by have := h.1; omega) i hi
    have hb := Bool.eq_false_of_not_eq_true hno
    exact ⟨hb, h.2 i hi hb⟩

/-- A pointer is put where the bit is clear, and the bit is set. -/
theorem PtrLeaf.insert (h : PtrLeaf bm ary n) (hi : i < idrSize) (hb : bm i = false) (c : Slot α) :
    PtrLeaf (update bm i true) (update ary i c) (n + 1) := by
  have hc := used_update (fun b => b = true) (f := bm) hi true
  rw [hb, if_neg (by decide), if_pos rfl] at hc
  refine ⟨by have := h.1; omega, fun j hj hcr => ?_⟩
  by_cases hji : j = i
  · rw [hji, update_self] at hcr
    cases hcr
  rw [update_of_ne hji] at hcr ⊢
  exact h.2 j hj hcr

theorem PtrLeaf.erase (h : PtrLeaf bm ary n) (hi : i < idrSize) (hb : bm i = true) :
    PtrLeaf (update bm i false) (update ary i .null) (n + -1) := by
  have hc := used_update (fun b => b = true) (f := bm) hi false
  rw [hb, if_pos rfl, if_neg (by decide)] at hc
  refine ⟨by have := h.1; omega, fun j hj hcr => ?_⟩
  by_cases hji : j = i
  · rw [hji, update_self]
  rw [update_of_ne hji] at hcr ⊢
  exact h.2 j hj hcr

theorem PtrLeaf.replace (h : PtrLeaf bm ary n) (hb : bm i = true) (c : Slot α) :
    PtrLeaf bm (update ary i c) n := by
  refine ⟨h.1, fun j hj hc => ?_⟩
  have hji : j ≠ i := by
    rintro rfl
    exact absurd (hb.symm.trans hc) (by decide)
  rw [update_of_ne hji]
  exact h.2 j hj hc

/-! ### The map -/

/-- The bit and the pointer of an id that a map says. -/
def entry : Option (Option α) → Bool × Slot α
  | none => (false, .null)
  | some ptr => (true, .ofPtr ptr)

theorem entry_fst (e : Option (Option α)) : (entry e).1 = e.isSome := by cases e <;> rfl

theorem entry_item (e : Option (Option α)) : (entry e).2.item? = e.join := by
  rcases e with _ | _ | a <;> rfl

structure Represents (idp : Idr α) (m : ℕ → Option (Option α)) : Prop where
  good : Good PtrLeaf idp
  content : ∀ id, content idp id = entry (m id)

section

variable (h : Represents idp m)

include h

theorem Represents.eq_none_iff : (IdAlloc.content idp id).1 = false ↔ m id = none := by
  rw [h.content, entry_fst, isSome_eq_false_iff, isNone_iff_eq_none]

/-- An id in use has its place in the tree. -/
theorem Represents.valid (hid : m id ≠ none) :
    Valid PtrLeaf idp ∧ id < idrSize ^ idp.layers ∧ Present id (idp.layers - 1) idp.top :=
  h.good.valid_of_ne fun he => hid (h.eq_none_iff.1 (by rw [he]))

theorem Represents.lt (hid : m id ≠ none) : id < 2 ^ 30 := by
  obtain ⟨hv, hlt, -⟩ := h.valid hid
  exact lt_of_lt_of_le hlt (pow_layers_le hv)

theorem Represents.find (hid : id < maxIdBit) : idrFind idp id = some (m id).join := by
  rw [h.good.idrFind hid, h.content, entry_item]

/-- If not all ids are in use, some id is not. -/
theorem Represents.exists_free (hcd : {j | start ≤ j ∧ m j ≠ none}.ncard < 2 ^ 30 - start) :
    ∃ j, start ≤ j ∧ j < 2 ^ 30 ∧ m j = none := by
  by_contra ha
  simp only [not_exists, not_and] at ha
  have hsub : (Finset.Ico start (2 ^ 30) : Set ℕ) ⊆ {j | start ≤ j ∧ m j ≠ none} := by
    intro j hj
    rw [Finset.coe_Ico] at hj
    exact ⟨hj.1, ha j hj.1 hj.2⟩
  have hfn : {j | start ≤ j ∧ m j ≠ none}.Finite :=
    (Finset.range (2 ^ 30)).finite_toSet.subset fun j hj =>
      Finset.mem_coe.2 (Finset.mem_range.2 (h.lt hj.2))
  have hle := Set.ncard_le_ncard hsub hfn
  rw [Set.ncard_coe_finset, Nat.card_Ico] at hle
  omega

/-- A pointer is put into a free slot of the tree. -/
theorem Represents.take (hv : Valid PtrLeaf idp) (hlt : id < idrSize ^ idp.layers)
    (hpr : Present id (idp.layers - 1) idp.top) (hfree : m id = none) (ptr : Option α) :
    Represents (idrMarkFull (idp.modifyAt 0 (id / idrSize) fun p =>
      (p.put (id % idrSize) (.ofPtr ptr)).addCount 1) id) (update m id (some ptr)) := by
  have hpath : ValidPath PtrLeaf
      (fun bm ary n => PtrLeaf bm ary n ∧ bm (digit idrSize 0 id) = false) id idp := by
    exact hv.toPath hlt hpr fun bm ary n hlf hb _ => ⟨hlf, hb.trans (h.eq_none_iff.2 hfree)⟩
  obtain ⟨hput, hcontent⟩ := hpath.modify (v := fun _ => .ofPtr ptr)
    (N := fun bm => PtrLeaf (update bm (digit idrSize 0 id) true))
    (f := fun p => (p.put (id % idrSize) (.ofPtr ptr)).addCount 1) fun bm ary n hlf => by
      refine ⟨n + 1, ?_, hlf.1.insert (digit_idrSize_lt 0 id) hlf.2 _⟩
      rw [digit_zero]
      rfl
  obtain ⟨hmark, hcontent'⟩ := hput.idrMarkFull fun bm ary n hlf => hlf
  refine ⟨hmark.good, fun j => ?_⟩
  rw [hcontent']
  by_cases hj : j = id
  · rw [if_pos hj, hj, update_self, hcontent, if_pos rfl]
    rfl
  · rw [if_neg hj, hcontent, if_neg hj, update_of_ne hj, h.content]

/-- What `idr_get_new_above` returns, and the map then. -/
def GetOk (m : ℕ → Option (Option α)) (start : ℕ) : GetResult → Prop
  | .ok id => start ≤ id ∧ m id = none ∧ ∀ j, start ≤ j → j < id → m j ≠ none
  | .eagain => True
  | .enospc => False

/-- The map after `idr_get_new_above`. -/
def afterGet (m : ℕ → Option (Option α)) (ptr : Option α) : GetResult → ℕ → Option (Option α)
  | .ok id => update m id (some ptr)
  | _ => m

/-- **`idr_get_new_above`** gives out the first id that is not in use. -/
theorem Represents.getNewAbove (hso : ∃ j, start ≤ j ∧ j < 2 ^ 30 ∧ m j = none) (ptr : Option α) :
    ∃ idp' r, idrGetNewAbove idp ptr start = some (idp', r) ∧ GetOk m start r ∧
      Represents idp' (afterGet m ptr r) := by
  obtain ⟨j0, hj0, hlt, hfe⟩ := hso
  have hc := h.eq_none_iff.2 hfe
  obtain ⟨idp1, pa, r, hslot, hgood, hsame, hr⟩ :=
    idrGetEmptySlot_spec leafOk_ptrLeaf h.good hc hj0 hlt
  have hrep : Represents idp1 m := ⟨hgood, fun id => (hsame id).trans (h.content id)⟩
  cases r with
  | found t =>
    obtain ⟨ht, hfree, htaken, hv, htlt, hpa, hpr⟩ := hr
    have hnone := h.eq_none_iff.1 hfree
    refine ⟨_, .ok t, ?_, ⟨ht, hnone, fun j hj hjt hj' => ?_⟩, hrep.take hv htlt hpr hnone ptr⟩
    · rw [idrGetNewAbove, hslot]
      simp [hpa]
    · exact absurd ((htaken j hj hjt).symm.trans (h.eq_none_iff.2 hj')) (by decide)
  | noMem =>
    refine ⟨idp1, .eagain, ?_, trivial, hrep⟩
    rw [idrGetNewAbove, hslot]
    rfl
  | needToGrow t => exact hr.elim
  | noMoreSpace => exact hr.elim

/-- **`idr_remove`** of an id in use. -/
theorem Represents.remove (hid : m id ≠ none) :
    Represents (idrRemove idp id) (update m id none) := by
  obtain ⟨hv, hlt, hpr⟩ := h.valid hid
  have hph : ValidPath PtrLeaf (fun bm ary n => PtrLeaf bm ary n ∧ bm (digit idrSize 0 id) = true)
      id idp := by
    refine hv.toPath hlt hpr fun bm ary n hlf hb _ => ⟨hlf, ?_⟩
    rw [hb, h.content, entry_fst, isSome_iff_ne_none]
    exact hid
  obtain ⟨hgood, hcontent⟩ := hph.idrRemove leafOk_ptrLeaf fun bm ary n hlf =>
    ⟨hlf.2, hlf.1.erase (digit_idrSize_lt 0 id) hlf.2⟩
  refine ⟨hgood, fun j => ?_⟩
  rw [hcontent]
  by_cases hj : j = id
  · rw [if_pos hj, hj, update_self]
    rfl
  · rw [if_neg hj, update_of_ne hj, h.content]

/-- The map after `idr_replace`. -/
def afterReplace (m : ℕ → Option (Option α)) (ptr : Option α) (id : ℕ) : ℕ → Option (Option α) :=
  if m id = none then m else update m id (some ptr)

/-- **`idr_replace`** of any id. -/
theorem Represents.replace (ptr : Option α) (id : ℕ) :
    Represents (idrReplace idp ptr id).1 (afterReplace m ptr (id % maxIdBit)) := by
  rw [idrReplace]
  generalize id % maxIdBit = id
  have hkp (hbt : (IdAlloc.content idp id).1 = false) : Represents idp (afterReplace m ptr id) := by
    rw [afterReplace, if_pos (h.eq_none_iff.1 hbt)]
    exact h
  rcases h.good.tree with hnl | hv
  · rw [if_pos (by rw [hnl, isNull_null])]
    refine hkp ?_
    rw [IdAlloc.content, hnl, holds_null]
  have hlvl : idp.top.level = idp.layers - 1 := hv.wf.level_eq
  have hlay : idp.layers - 1 + 1 = idp.layers := Nat.sub_add_cancel hv.pos
  have hsz := one_shiftLeft_layers idp.layers
  rw [if_neg (by rw [hv.wf.isNull_eq]; decide)]
  simp only [hlvl, hlay]
  by_cases hlt : id < idrSize ^ idp.layers
  · rw [if_neg (by omega)]
    have hce : IdAlloc.content idp id =
        ((idp.top.down (idp.layers - 1) (id / idrSize)).bitmap (id % idrSize),
          (idp.top.down (idp.layers - 1) (id / idrSize)).ary (id % idrSize)) := by
      rw [content_of_lt hlt, cells, cell_eq_down]
    by_cases hbt : (IdAlloc.content idp id).1 = true
    · have hus : m id ≠ none := by
        rw [h.content, entry_fst, isSome_iff_ne_none] at hbt
        exact hbt
      have hthr : ¬ ((idp.top.down (idp.layers - 1) (id / idrSize)).isNull = true ∨
          (!(idp.top.down (idp.layers - 1) (id / idrSize)).bitmap (id % idrSize)) = true) := by
        rw [hce] at hbt
        simp only at hbt
        rw [hbt, not_or]
        refine ⟨fun hnl => ?_, by decide⟩
        rw [eq_null_of_isNull hnl] at hbt
        exact absurd hbt (by simp [Slot.bitmap])
      rw [if_neg hthr, afterReplace, if_neg hus]
      have hph : ValidPath PtrLeaf
          (fun bm ary n => PtrLeaf bm ary n ∧ bm (digit idrSize 0 id) = true) id idp :=
        hv.toPath hlt (h.valid hus).2.2 fun bm ary n hlf hb _ => ⟨hlf, hb.trans hbt⟩
      obtain ⟨hput, hcontent⟩ := hph.modify (v := fun _ => .ofPtr ptr) (N := PtrLeaf)
        (f := fun p => p.put (id % idrSize) (.ofPtr ptr)) fun bm ary n hlf => by
          refine ⟨n, ?_, hlf.1.replace hlf.2 _⟩
          rw [digit_zero]
          rfl
      refine ⟨(hput.toValid fun _ _ _ hlf => hlf).good, fun j => ?_⟩
      refine (hcontent j).trans ?_
      by_cases hj : j = id
      · rw [if_pos hj, hj, update_self, hbt]
        rfl
      · rw [if_neg hj, update_of_ne hj, h.content]
    · have hc := Bool.eq_false_of_not_eq_true hbt
      rw [if_pos]
      · exact hkp hc
      rw [hce] at hc
      exact .inr (by simp only at hc; rw [hc]; rfl)
  · rw [if_pos (by omega)]
    refine hkp ?_
    rw [IdAlloc.content, holds, if_neg hlt]

end

/-! ### Runs -/

/-- The idrs that a sequence of calls from `idr_init` leads to, and the pointer stored last for each
id in use. -/
inductive Run : Idr α → (ℕ → Option (Option α)) → Prop
  | init : Run (idrInit α) (fun _ => none)
  | preGet {idp : Idr α} {m : ℕ → Option (Option α)} (avail : ℕ) (h : Run idp m) :
      Run (idrPreGet idp avail).2 m
  | getNewAbove {idp idp' : Idr α} {m : ℕ → Option (Option α)} {r : GetResult} (ptr : Option α)
      (start : ℕ) (h : Run idp m) (hstart : start < 2 ^ 30)
      (hcard : {j | start ≤ j ∧ m j ≠ none}.ncard < 2 ^ 30 - start)
      (hget : idrGetNewAbove idp ptr start = some (idp', r)) : Run idp' (afterGet m ptr r)
  | remove {idp : Idr α} {m : ℕ → Option (Option α)} (id : ℕ) (h : Run idp m) (hid : m id ≠ none) :
      Run (idrRemove idp id) (update m id none)
  | replace {idp : Idr α} {m : ℕ → Option (Option α)} (ptr : Option α) (id : ℕ) (h : Run idp m) :
      Run (idrReplace idp ptr id).1 (afterReplace m ptr (id % maxIdBit))

theorem Run.represents (h : Run idp m) : Represents idp m := by
  induction h with
  | init => exact ⟨⟨by simp [idrInit], .inl rfl⟩, fun id => holds_null _ _⟩
  | preGet avail h ih =>
    obtain ⟨hgood, hsm⟩ := idrPreGetLoop_spec ih.good _ avail
    exact ⟨hgood, fun id => (hsm id).trans (ih.content id)⟩
  | getNewAbove ptr start h hst hcd hg ih =>
    obtain ⟨idp1, r1, hg1, -, hr⟩ := ih.getNewAbove (ih.exists_free hcd) ptr
    rw [hg] at hg1
    cases hg1
    exact hr
  | remove id h hid ih => exact ih.remove hid
  | replace ptr id h ih => exact ih.replace ptr id

/-- **An idr is a map with least-id allocation.** After every sequence of calls, `idr_find` returns
the pointer stored last for an id in use and null for another; `idr_get_new_above` ends and
returns the first id from the given one on that is not in use, or it fails for want of a layer and
changes no mapping. -/
theorem run_idr (h : Run idp m) :
    (∀ id < 2 ^ 31, idrFind idp id = some (m id).join) ∧
      ∀ ptr start, start < 2 ^ 30 → {j | start ≤ j ∧ m j ≠ none}.ncard < 2 ^ 30 - start →
        ∃ idp' r, idrGetNewAbove idp ptr start = some (idp', r) ∧
          match r with
          | .ok id => start ≤ id ∧ m id = none ∧ ∀ j, start ≤ j → j < id → m j ≠ none
          | .eagain => ∀ id < 2 ^ 31, idrFind idp' id = idrFind idp id
          | .enospc => False := by
  have hrep := h.represents
  refine ⟨fun id hid => hrep.find hid, fun ptr start _ hcard => ?_⟩
  obtain ⟨idp', r, hget, hok, hrep'⟩ := hrep.getNewAbove (hrep.exists_free hcard) ptr
  refine ⟨idp', r, hget, ?_⟩
  cases r with
  | ok id => exact hok
  | eagain =>
    intro id hid
    rw [hrep.find hid, hrep'.find hid]
    rfl
  | enospc => exact hok

theorem run_idr_stored :
    ∃ idp : Idr ℕ, idrGetNewAbove (idrPreGet (idrInit ℕ) 2).2 (some 7) 5 = some (idp, .ok 5) ∧
      idrFind idp 5 = some (some 7) ∧ idrFind idp 6 = some none := by
  have hrun := Run.preGet 2 (Run.init (α := ℕ))
  have hcard : {j : ℕ | 5 ≤ j ∧ (none : Option (Option ℕ)) ≠ none}.ncard < 2 ^ 30 - 5 := by simp
  obtain ⟨idp, r, hget, -⟩ := (run_idr hrun).2 (some 7) 5 (by decide) hcard
  have hres : (idrGetNewAbove (idrPreGet (idrInit ℕ) 2).2 (some 7) 5).map (·.2) = some (.ok 5) := by
    decide +kernel
  rw [hget] at hres
  have hr : r = .ok 5 := some.inj hres
  subst hr
  have hfind := (run_idr (hrun.getNewAbove (some 7) 5 (by decide) hcard hget)).1
  exact ⟨idp, hget, hfind 5 (by decide), hfind 6 (by decide)⟩

end NestLinux.IdAlloc
