import NestLinux.Idr.Model
import NestLinux.Lib.Slots

/-!
# The tree of an idr

What a tree holds is, for each id, the bit and the pointer at its place on the lowest level. A
tree is well formed if its layers know their level and the number of their slots in use, and if a
bit is set above the lowest level only where everything below is taken. What stands in a layer of
the lowest level is left open: the pointers of an idr and the bitmaps of an ida share the rest.
-/

namespace NestLinux.IdAlloc

open Function Lib

variable {α : Type*}

/-- What is said of a layer of the lowest level: its bitmap, its slots and its count. -/
abbrev Leaf (α : Type*) := (ℕ → Bool) → (ℕ → Slot α) → ℤ → Prop

variable {L M N : Leaf α} {l i j id q d k : ℕ} {p c : Slot α} {bm : ℕ → Bool} {ary : ℕ → Slot α}
  {n : ℤ}

@[simp] theorem isNull_null : (Slot.null : Slot α).isNull = true := rfl

@[simp] theorem isNull_item (a : α) : (Slot.item a).isNull = false := rfl

@[simp] theorem isNull_layer : (Slot.layer bm ary n l).isNull = false := rfl

theorem digit_idrSize_lt (l id : ℕ) : digit idrSize l id < idrSize := digit_lt (by decide) l id

@[simp] theorem digit_zero : digit idrSize 0 id = id % idrSize := by
  simp [digit]

/-- The digits of the layer of an id are those of the id above its lowest. -/
theorem digit_div : digit idrSize l (id / idrSize) = digit idrSize (l + 1) id := by
  rw [digit, digit, Nat.div_div_eq_div_mul, Nat.pow_succ, Nat.mul_comm]

/-- Two ids with the same place in a tree of level `l`. -/
def SameId (l id j : ℕ) : Prop := j % idrSize ^ (l + 1) = id % idrSize ^ (l + 1)

instance (l id j : ℕ) : Decidable (SameId l id j) := inferInstanceAs (Decidable (_ = _))

theorem sameId_zero : SameId 0 id j ↔ digit idrSize 0 j = digit idrSize 0 id := by
  simp [SameId]

theorem sameId_succ :
    SameId (l + 1) id j ↔ digit idrSize (l + 1) j = digit idrSize (l + 1) id ∧ SameId l id j :=
  mod_pow_succ_eq_iff (by decide)

theorem sameId_iff_of_lt (hid : id < idrSize ^ (l + 1)) (hj : j < idrSize ^ (l + 1)) :
    SameId l id j ↔ j = id := by
  rw [SameId, Nat.mod_eq_of_lt hid, Nat.mod_eq_of_lt hj]

/-! ### Cells -/

/-- The bit and the pointer of an id. -/
def cell : ℕ → Slot α → ℕ → Bool × Slot α
  | 0, p, id => (p.bitmap (digit idrSize 0 id), p.ary (digit idrSize 0 id))
  | l + 1, p, id => cell l (p.ary (digit idrSize (l + 1) id)) id

theorem cell_succ : cell (l + 1) p id = cell l (p.ary (digit idrSize (l + 1) id)) id := rfl

@[simp] theorem cell_null : cell l (.null : Slot α) id = (false, .null) := by
  induction l with
  | zero => rfl
  | succ l ih => exact ih

/-- The id has a place: the layers on its path are there. -/
def Present (id : ℕ) : ℕ → Slot α → Prop
  | 0, p => p.isNull = false
  | l + 1, p => Present id l (p.ary (digit idrSize (l + 1) id))

theorem not_present_null : ¬ Present id l (.null : Slot α) := by
  induction l with
  | zero => simp [Present]
  | succ l ih => exact ih

theorem present_of_cell (h : cell l p id ≠ (false, .null)) : Present id l p := by
  induction l generalizing p with
  | zero =>
    cases p with
    | null => exact absurd (cell_null) h
    | item a => rfl
    | layer => rfl
  | succ l ih => exact ih h

/-! ### Well-formed trees -/

def inUse (ary : ℕ → Slot α) : ℕ := used (fun p => p.isNull = false) ary idrSize

/-- A slot of a layer above the lowest level, where `W` holds of the layers below. -/
def SlotOk (W : Slot α → Prop) (bit : Bool) (p : Slot α) : Prop :=
  (p = .null ∧ bit = false) ∨ (W p ∧ (bit = true → p.isFull = true))

/-- Well-formed trees of level `l`. -/
def Wf (L : Leaf α) : ℕ → Slot α → Prop
  | 0, .layer bm ary n level => level = 0 ∧ L bm ary n
  | l + 1, .layer bm ary n level =>
    level = l + 1 ∧ n = inUse ary ∧ ∀ i < idrSize, SlotOk (Wf L l) (bm i) (ary i)
  | _, _ => False

/-- Trees of level `l` that are well formed but for the lowest layer on the path of `id`. -/
def WfPath (L M : Leaf α) (id : ℕ) : ℕ → Slot α → Prop
  | 0, .layer bm ary n level => level = 0 ∧ M bm ary n
  | l + 1, .layer bm ary n level =>
    level = l + 1 ∧ n = inUse ary ∧
      (∀ i < idrSize, i ≠ digit idrSize (l + 1) id → SlotOk (Wf L l) (bm i) (ary i)) ∧
      WfPath L M id l (ary (digit idrSize (l + 1) id)) ∧
      (bm (digit idrSize (l + 1) id) = true → (ary (digit idrSize (l + 1) id)).isFull = true)
  | _, _ => False

theorem Wf.exists_layer (h : Wf L l p) : ∃ bm ary n, p = .layer bm ary n l := by
  cases p with
  | null => cases l <;> exact h.elim
  | item a => cases l <;> exact h.elim
  | layer bm ary n level => cases l <;> exact ⟨bm, ary, n, by rw [h.1]⟩

theorem WfPath.exists_layer (h : WfPath L M id l p) : ∃ bm ary n, p = .layer bm ary n l := by
  cases p with
  | null => cases l <;> exact h.elim
  | item a => cases l <;> exact h.elim
  | layer bm ary n level => cases l <;> exact ⟨bm, ary, n, by rw [h.1]⟩

theorem Wf.isNull_eq (h : Wf L l p) : p.isNull = false := by
  obtain ⟨bm, ary, n, rfl⟩ := h.exists_layer
  rfl

theorem Wf.level_eq (h : Wf L l p) : p.level = l := by
  obtain ⟨bm, ary, n, rfl⟩ := h.exists_layer
  rfl

theorem Wf.child (h : Wf L (l + 1) p) (hi : i < idrSize) (hc : (p.ary i).isNull = false) :
    Wf L l (p.ary i) := by
  obtain ⟨bm, ary, n, rfl⟩ := h.exists_layer
  rcases h.2.2 i hi with ⟨hnl, -⟩ | ⟨hwf, -⟩
  · rw [Slot.ary, hnl] at hc
    cases hc
  · exact hwf

theorem eq_null_of_isNull (h : p.isNull = true) : p = .null := by
  cases p with
  | null => rfl
  | item a => cases h
  | layer => cases h

/-- **Below a set bit every id is taken.** -/
theorem Wf.bit_cell (h : Wf L l p) (hb : p.bitmap (digit idrSize l id) = true) :
    (cell l p id).1 = true := by
  induction l generalizing p with
  | zero => exact hb
  | succ l ih =>
    obtain ⟨bm, ary, n, rfl⟩ := h.exists_layer
    have hlt := digit_idrSize_lt (l + 1) id
    rcases h.2.2 _ hlt with ⟨-, hc⟩ | ⟨hwf, hfu⟩
    · rw [Slot.bitmap, hc] at hb
      cases hb
    · exact ih hwf (allOnes_iff.1 (hfu hb) _ (digit_idrSize_lt l id))

/-- A cell is empty or stands in a lowest layer. -/
theorem Wf.leaf_cell (h : Wf L l p) (id : ℕ) : cell l p id = (false, .null) ∨
    ∃ bm ary n i, i < idrSize ∧ L bm ary n ∧ cell l p id = (bm i, ary i) := by
  induction l generalizing p with
  | zero =>
    obtain ⟨bm, ary, n, rfl⟩ := h.exists_layer
    exact .inr ⟨bm, ary, n, digit idrSize 0 id, digit_idrSize_lt 0 id, h.2, rfl⟩
  | succ l ih =>
    obtain ⟨bm, ary, n, rfl⟩ := h.exists_layer
    rw [cell_succ, Slot.ary]
    rcases h.2.2 _ (digit_idrSize_lt (l + 1) id) with ⟨hnl, -⟩ | ⟨hwf, -⟩
    · rw [hnl]
      exact .inl (cell_null)
    · exact ih hwf

/-- The path of an id whose layers are there. -/
theorem Wf.toPath (h : Wf L l p) (hid : Present id l p)
    (hM : ∀ bm ary n, L bm ary n → bm (digit idrSize 0 id) = (cell l p id).1 →
      ary (digit idrSize 0 id) = (cell l p id).2 → M bm ary n) : WfPath L M id l p := by
  induction l generalizing p with
  | zero =>
    obtain ⟨bm, ary, n, rfl⟩ := h.exists_layer
    exact ⟨rfl, hM _ _ _ h.2 rfl rfl⟩
  | succ l ih =>
    obtain ⟨bm, ary, n, rfl⟩ := h.exists_layer
    have hlt := digit_idrSize_lt (l + 1) id
    refine ⟨rfl, h.2.1, fun i hi _ => h.2.2 i hi, ?_⟩
    rcases h.2.2 _ hlt with ⟨hnl, -⟩ | ⟨hwf, hfu⟩
    · rw [Present, Slot.ary, hnl] at hid
      exact absurd hid (not_present_null)
    · exact ⟨ih hwf hid hM, hfu⟩

/-- A path whose lowest layer is as all the others. -/
theorem WfPath.toWf (h : WfPath L M id l p) (hL : ∀ bm ary n, M bm ary n → L bm ary n) :
    Wf L l p := by
  induction l generalizing p with
  | zero =>
    obtain ⟨bm, ary, n, rfl⟩ := h.exists_layer
    exact ⟨rfl, hL _ _ _ h.2⟩
  | succ l ih =>
    obtain ⟨bm, ary, n, rfl⟩ := h.exists_layer
    obtain ⟨-, hn, hot, hph, hfu⟩ := h
    refine ⟨rfl, hn, fun i hi => ?_⟩
    by_cases hi' : i = digit idrSize (l + 1) id
    · subst hi'
      exact .inr ⟨ih hph, hfu⟩
    · exact hot i hi hi'

theorem WfPath.isNull_eq (h : WfPath L M id l p) : p.isNull = false := by
  obtain ⟨bm, ary, n, rfl⟩ := h.exists_layer
  rfl

/-! ### Layers with one slot changed -/

/-- A slot that stays in use, or out of use, is not counted again. -/
theorem inUse_update (hi : i < idrSize) (hc : c.isNull = (ary i).isNull) :
    inUse (update ary i c) = inUse ary := by
  have h := used_update (fun p : Slot α => p.isNull = false) (f := ary) hi c
  rw [hc] at h
  exact Nat.add_right_cancel h

theorem inUse_link (hi : i < idrSize) (hold : (ary i).isNull = true) (hc : c.isNull = false) :
    inUse (update ary i c) = inUse ary + 1 := by
  have h := used_update (fun p : Slot α => p.isNull = false) (f := ary) hi c
  rw [if_pos hc, hold] at h
  exact h

theorem inUse_unlink (hi : i < idrSize) (hold : (ary i).isNull = false) :
    inUse (update ary i .null) + 1 = inUse ary := by
  have h := used_update (fun p : Slot α => p.isNull = false) (f := ary) hi .null
  rw [if_pos hold] at h
  exact h

theorem inUse_eq_zero : inUse ary = 0 ↔ ∀ i < idrSize, ary i = .null := by
  rw [inUse, used_eq_zero_iff]
  refine forall₂_congr fun i _ => ⟨fun h => eq_null_of_isNull (Bool.eq_true_of_not_eq_false h), ?_⟩
  intro h
  rw [h]
  simp

variable {f v : Slot α → Slot α} {b : Bool}

/-- One slot of a layer is changed, and the others are as before. -/
theorem slotOk_update {W : Slot α → Prop} (h : ∀ i < idrSize, i ≠ d → SlotOk W (bm i) (ary i))
    (hc : SlotOk W b c) : ∀ i < idrSize, SlotOk W (update bm d b i) (update ary d c i) := by
  intro i hi
  by_cases hd : i = d
  · rw [hd, update_self, update_self]
    exact hc
  · rw [update_of_ne hd, update_of_ne hd]
    exact h i hi hd

/-- The layer on the path is changed, and its slot with it. -/
theorem WfPath.relink (h : WfPath L M id (l + 1) (.layer bm ary n (l + 1)))
    (hc : WfPath L N id l c) (hb : b = true → c.isFull = true) :
    WfPath L N id (l + 1) (.layer (update bm (digit idrSize (l + 1) id) b)
      (update ary (digit idrSize (l + 1) id) c) n (l + 1)) := by
  obtain ⟨-, hn, hot, hph, -⟩ := h
  refine ⟨rfl, ?_, fun i hi hne => ?_, ?_, ?_⟩
  · rw [inUse_update (digit_idrSize_lt _ _) (hc.isNull_eq.trans hph.isNull_eq.symm), hn]
  · rw [update_of_ne hne, update_of_ne hne]
    exact hot i hi hne
  · rwa [update_self]
  · rwa [update_self, update_self]

/-- The cells of a layer with one slot changed. -/
theorem cell_update : cell (l + 1) (.layer bm (update ary (digit idrSize (l + 1) id) c) n k) j =
    if digit idrSize (l + 1) j = digit idrSize (l + 1) id then cell l c j
    else cell (l + 1) (.layer bm ary n k) j := by
  rw [cell_succ, Slot.ary]
  by_cases hj : digit idrSize (l + 1) j = digit idrSize (l + 1) id
  · rw [if_pos hj, hj, update_self]
  rw [if_neg hj, update_of_ne hj]
  rfl

/-- The cells of a layer, where those below one slot have one id changed. -/
theorem cell_update_of_cell {v : Bool × Slot α} (hc : ∀ j, cell l c j =
      if SameId l id j then v else cell l (ary (digit idrSize (l + 1) id)) j) :
    cell (l + 1) (.layer bm (update ary (digit idrSize (l + 1) id) c) n k) j =
      if SameId (l + 1) id j then v else cell (l + 1) (.layer bm ary n k) j := by
  rw [cell_update]
  by_cases hj : digit idrSize (l + 1) j = digit idrSize (l + 1) id
  · rw [hc]
    simp [sameId_succ, hj, cell_succ, Slot.ary]
  have hne : ¬ SameId (l + 1) id j := fun h => hj (sameId_succ.1 h).1
  rw [if_neg hj, if_neg hne]

/-- The cells of a lowest layer with one slot changed. -/
theorem cell_zero_update {v : Slot α} {b : Bool} :
    cell 0 (.layer (update bm (digit idrSize 0 id) b) (update ary (digit idrSize 0 id) v) n k) j =
      if SameId 0 id j then (b, v) else cell 0 (.layer bm ary n k) j := by
  simp only [sameId_zero, cell, Slot.bitmap, Slot.ary]
  by_cases hj : digit idrSize 0 j = digit idrSize 0 id
  · rw [if_pos hj, hj, update_self, update_self]
  · rw [if_neg hj, update_of_ne hj, update_of_ne hj]

/-- What `f` does to the slot of `id` in the lowest layer, and to the bitmap. -/
def Changes (M N : Leaf α) (id : ℕ) (v f : Slot α → Slot α) (pre post : (ℕ → Bool) → ℕ → Bool) :
    Prop :=
  ∀ bm ary n, M bm ary n → ∃ n', f (.layer (pre bm) ary n 0) =
    .layer (post bm) (update ary (digit idrSize 0 id) (v (ary (digit idrSize 0 id)))) n' 0 ∧
    N (post bm) (update ary (digit idrSize 0 id) (v (ary (digit idrSize 0 id)))) n'

/-- A change to the lowest layer on the path of `id` that keeps its bitmap. -/
theorem WfPath.modify (h : WfPath L M id l p)
    (hf : Changes M N id v f (fun bm => bm) fun bm => bm) :
    WfPath L N id l (p.modify l (id / idrSize) f) ∧
      (p.modify l (id / idrSize) f).isFull = p.isFull ∧
      ∀ j, cell l (p.modify l (id / idrSize) f) j =
        if SameId l id j then ((cell l p id).1, v (cell l p id).2) else cell l p j := by
  induction l generalizing p with
  | zero =>
    obtain ⟨bm, ary, n, rfl⟩ := h.exists_layer
    obtain ⟨n', hfp, hM⟩ := hf bm ary n h.2
    rw [Slot.modify, hfp]
    refine ⟨⟨rfl, hM⟩, rfl, fun j => ?_⟩
    have hbm : bm = update bm (digit idrSize 0 id) (bm (digit idrSize 0 id)) :=
      (update_eq_self _ _).symm
    nth_rewrite 1 [hbm]
    rw [cell_zero_update]
    rfl
  | succ l ih =>
    obtain ⟨bm, ary, n, rfl⟩ := h.exists_layer
    obtain ⟨hwf, hsm, hce⟩ := ih h.2.2.2.1
    have hup := h.relink hwf (hsm ▸ h.2.2.2.2)
    rw [update_eq_self] at hup
    rw [Slot.modify, digit_div]
    exact ⟨hup, rfl, fun j => cell_update_of_cell hce⟩

/-- The walk that clears the bits on the path of `id`. -/
theorem WfPath.clearFull (h : WfPath L M id l p) (hf : Changes M N id v f
      (update · (digit idrSize 0 id) false) (update · (digit idrSize 0 id) b)) :
    WfPath L N id l (clearFull id f l p) ∧ ∀ j, cell l (IdAlloc.clearFull id f l p) j =
        if SameId l id j then (b, v (cell l p id).2) else cell l p j := by
  induction l generalizing p with
  | zero =>
    obtain ⟨bm, ary, n, rfl⟩ := h.exists_layer
    obtain ⟨n', hfp, hM⟩ := hf bm ary n h.2
    rw [IdAlloc.clearFull, Slot.setBit, hfp]
    exact ⟨⟨rfl, hM⟩, fun j => cell_zero_update⟩
  | succ l ih =>
    obtain ⟨bm, ary, n, rfl⟩ := h.exists_layer
    obtain ⟨hwf, hce⟩ := ih h.2.2.2.1
    exact ⟨h.relink hwf (by simp), fun j => cell_update_of_cell hce⟩

theorem markFull_succ {r : Slot α × Bool} (hd : digit idrSize (l + 1) id = d)
    (hr : markFull id l (ary d) = r) : markFull id (l + 1) (.layer bm ary n k) =
      if r.2 = true then (.layer (update bm d true) (update ary d r.1) n k,
        allOnes (update bm d true) idrSize)
      else (.layer bm (update ary d r.1) n k, false) := by
  rw [← hr, ← hd]
  rfl

theorem allOnes_update (h : allOnes bm idrSize = true) :
    allOnes (update bm i true) idrSize = true := by
  rw [allOnes_iff] at h ⊢
  intro k hk
  by_cases hki : k = i
  · rw [hki, update_self]
  · rw [update_of_ne hki, h k hk]

theorem WfPath.isFull_markFull (hp : WfPath L M id l p) (h : p.isFull = true) :
    (markFull id l p).1.isFull = true := by
  obtain ⟨bm, ary, n, rfl⟩ := hp.exists_layer
  cases l with
  | zero => exact allOnes_update h
  | succ l =>
    rw [markFull_succ rfl rfl]
    split
    · exact allOnes_update h
    · exact h

/-- **`idr_mark_full`** sets the bit of an id, and those above it where nothing is left. -/
theorem WfPath.markFull (h : WfPath L M id l p)
    (hL : ∀ bm ary n, M bm ary n → L (update bm (digit idrSize 0 id) true) ary n) :
    Wf L l (markFull id l p).1 ∧
      ((IdAlloc.markFull id l p).2 = true → (IdAlloc.markFull id l p).1.isFull = true) ∧
      ∀ j, cell l (IdAlloc.markFull id l p).1 j =
        if SameId l id j then (true, (cell l p id).2) else cell l p j := by
  induction l generalizing p with
  | zero =>
    obtain ⟨bm, ary, n, rfl⟩ := h.exists_layer
    refine ⟨⟨rfl, hL bm ary n h.2⟩, fun hfu => hfu, fun j => ?_⟩
    have hary : ary = update ary (digit idrSize 0 id) (ary (digit idrSize 0 id)) :=
      (update_eq_self _ _).symm
    nth_rewrite 1 [hary]
    exact cell_zero_update
  | succ l ih =>
    obtain ⟨bm, ary, n, rfl⟩ := h.exists_layer
    obtain ⟨-, hn, hot, hph, hfu⟩ := h
    have hlt := digit_idrSize_lt (l + 1) id
    obtain ⟨hwf, hsub, hce⟩ := ih hph
    have hct : n = inUse (update ary (digit idrSize (l + 1) id)
        (IdAlloc.markFull id l (ary (digit idrSize (l + 1) id))).1) := by
      rw [inUse_update hlt (hwf.isNull_eq.trans hph.isNull_eq.symm), hn]
    rw [markFull_succ rfl rfl]
    by_cases hc : (IdAlloc.markFull id l (ary (digit idrSize (l + 1) id))).2 = true
    · rw [if_pos hc]
      exact ⟨⟨rfl, hct, slotOk_update hot (.inr ⟨hwf, fun _ => hsub hc⟩)⟩, fun hfu => hfu,
        fun j => cell_update_of_cell hce⟩
    rw [if_neg hc]
    have hsl := slotOk_update hot (.inr ⟨hwf, fun hb => hph.isFull_markFull (hfu hb)⟩)
    rw [update_eq_self] at hsl
    exact ⟨⟨rfl, hct, hsl⟩, by simp, fun j => cell_update_of_cell hce⟩

/-- An id of a layer that is freed, or whose layer below is freed. -/
theorem subRemove_succ {r : Slot α × Bool} (hd : digit idrSize (l + 1) id = d)
    (hr : subRemove id l (ary d) = r) : subRemove id (l + 1) (.layer bm ary n k) =
      if r.2 = true then if n + -1 = 0 then (.null, true)
        else (.layer (update bm d false) (update ary d r.1) (n + -1) k, false)
      else (.layer (update bm d false) (update ary d r.1) n k, false) := by
  rw [← hr, ← hd]
  rfl

/-- **`sub_remove`** empties the place of an id, and frees the layers that it leaves empty. -/
theorem WfPath.subRemove (h : WfPath L M id l p)
    (hL : ∀ bm ary n, M bm ary n → bm (digit idrSize 0 id) = true ∧
      L (update bm (digit idrSize 0 id) false) (update ary (digit idrSize 0 id) .null) (n + -1))
    (he : ∀ bm ary, L bm ary 0 → ∀ i < idrSize, bm i = false ∧ ary i = .null) :
    ((subRemove id l p).2 = true → (IdAlloc.subRemove id l p).1 = .null) ∧
      ((IdAlloc.subRemove id l p).2 = false → Wf L l (IdAlloc.subRemove id l p).1) ∧
      ∀ j, cell l (IdAlloc.subRemove id l p).1 j =
        if SameId l id j then (false, .null) else cell l p j := by
  induction l generalizing p with
  | zero =>
    obtain ⟨bm, ary, n, rfl⟩ := h.exists_layer
    obtain ⟨hb, hlf⟩ := hL bm ary n h.2
    have hsp : IdAlloc.subRemove id 0 (.layer bm ary n 0) = if n + -1 = 0 then (.null, true)
        else (.layer (update bm (digit idrSize 0 id) false)
          (update ary (digit idrSize 0 id) .null) (n + -1) 0, false) := by
      simp only [IdAlloc.subRemove, Slot.bitmap, hb]
      rfl
    have hce (j : ℕ) : cell 0 (.layer (update bm (digit idrSize 0 id) false)
        (update ary (digit idrSize 0 id) .null) (n + -1) 0) j =
        if SameId 0 id j then (false, .null) else cell 0 (.layer bm ary n 0) j := cell_zero_update
    rw [hsp]
    by_cases hn : n + -1 = 0
    · rw [if_pos hn]
      refine ⟨fun _ => rfl, by simp, fun j => ?_⟩
      rw [hn] at hlf
      have hno := he _ _ hlf _ (digit_idrSize_lt 0 j)
      rw [← hce j]
      exact Prod.ext hno.1.symm hno.2.symm
    · rw [if_neg hn]
      exact ⟨by simp, fun _ => ⟨rfl, hlf⟩, hce⟩
  | succ l ih =>
    obtain ⟨bm, ary, n, rfl⟩ := h.exists_layer
    obtain ⟨-, hn, hot, hph, hfu⟩ := h
    have hlt := digit_idrSize_lt (l + 1) id
    obtain ⟨hgn, hwf, hce⟩ := ih hph
    rw [subRemove_succ rfl rfl]
    by_cases hc : (IdAlloc.subRemove id l (ary (digit idrSize (l + 1) id))).2 = true
    · rw [if_pos hc]
      have hnl := hgn hc
      rw [hnl] at hce ⊢
      have hct : n + -1 = inUse (update ary (digit idrSize (l + 1) id) .null) := by
        have := inUse_unlink hlt hph.isNull_eq
        omega
      have hcel (j : ℕ) : cell (l + 1) (.layer (update bm (digit idrSize (l + 1) id) false)
          (update ary (digit idrSize (l + 1) id) .null) (n + -1) (l + 1)) j =
          if SameId (l + 1) id j then (false, .null)
          else cell (l + 1) (.layer bm ary n (l + 1)) j := cell_update_of_cell hce
      by_cases hz : n + -1 = 0
      · rw [if_pos hz]
        refine ⟨fun _ => rfl, by simp, fun j => ?_⟩
        have hzr : inUse (update ary (digit idrSize (l + 1) id) .null) = 0 := by omega
        have ha := inUse_eq_zero.1 hzr _ (digit_idrSize_lt (l + 1) j)
        rw [← hcel j, cell_null, cell_succ, Slot.ary, ha, cell_null]
      rw [if_neg hz]
      exact ⟨by simp, fun _ => ⟨rfl, hct, slotOk_update hot (.inl ⟨rfl, rfl⟩)⟩, hcel⟩
    · rw [if_neg hc]
      have hbl := hwf (Bool.eq_false_of_not_eq_true hc)
      refine ⟨by simp, fun _ => ⟨rfl, ?_, slotOk_update hot (.inr ⟨hbl, by simp⟩)⟩,
        fun j => cell_update_of_cell hce⟩
      rw [inUse_update hlt (hbl.isNull_eq.trans hph.isNull_eq.symm), hn]

end NestLinux.IdAlloc
