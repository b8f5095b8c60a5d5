import NestLinux.Idr.EmptySlot

/-!
# The operations on the tree

What the operations do to the content of an idr, for any kind of lowest layers: an id is taken, an
id is removed, and the layers it leaves empty are freed.
-/

namespace NestLinux.IdAlloc

open Function Lib

variable {α : Type*} {L M N : Leaf α} {l i j id k : ℕ} {p : Slot α} {bm : ℕ → Bool}
  {ary : ℕ → Slot α} {n : ℤ} {idp : Idr α}

/-- An idr whose tree is well formed but for the lowest layer on the path of `id`. -/
structure ValidPath (L M : Leaf α) (id : ℕ) (idp : Idr α) : Prop where
  wf : WfPath L M id (idp.layers - 1) idp.top
  pos : 0 < idp.layers
  le : idp.layers < maxLevel
  free : ∀ s ∈ idp.idFree, Zeroed s
  id_lt : id < idrSize ^ idp.layers

theorem Valid.toPath (h : Valid L idp) (hid : id < idrSize ^ idp.layers)
    (hpr : Present id (idp.layers - 1) idp.top)
    (hM : ∀ bm ary n, L bm ary n → bm (digit idrSize 0 id) = (content idp id).1 →
      ary (digit idrSize 0 id) = (content idp id).2 → M bm ary n) : ValidPath L M id idp := by
  refine ⟨h.wf.toPath hpr fun bm ary n hL hb hsl => ?_, h.pos, h.le, h.free, hid⟩
  rw [content_of_lt hid] at hM
  exact hM bm ary n hL hb hsl

theorem ValidPath.toValid (h : ValidPath L M id idp) (hL : ∀ bm ary n, M bm ary n → L bm ary n) :
    Valid L idp := ⟨h.wf.toWf hL, h.pos, h.le, h.free⟩

/-- What holds something has its place in the tree. -/
theorem Good.valid_of_ne (h : Good L idp) (hne : content idp id ≠ (false, .null)) :
    Valid L idp ∧ id < idrSize ^ idp.layers ∧ Present id (idp.layers - 1) idp.top := by
  have hlt : id < idrSize ^ idp.layers := by
    by_contra hge
    rw [content, holds, if_neg hge] at hne
    exact hne rfl
  rcases h.tree with hnl | hv
  · rw [content, hnl, holds_null] at hne
    exact absurd rfl hne
  rw [content_of_lt hlt] at hne
  exact ⟨hv, hlt, present_of_cell hne⟩

/-- Where the cells of one id change, the content does. -/
theorem holds_update {p' : Slot α} {layers : ℕ} {v : Bool × Slot α} (hp : 0 < layers)
    (hid : id < idrSize ^ layers) (hce : ∀ j, cell (layers - 1) p' j =
      if SameId (layers - 1) id j then v else cell (layers - 1) p j) (j : ℕ) :
    holds layers p' j = if j = id then v else holds layers p j := by
  rw [holds, holds]
  by_cases hj : j < idrSize ^ layers
  · have hlay : layers - 1 + 1 = layers := Nat.sub_add_cancel hp
    have hsm : SameId (layers - 1) id j ↔ j = id := sameId_iff_of_lt (by rwa [hlay]) (by rwa [hlay])
    rw [if_pos hj, if_pos hj, hce]
    simp [hsm]
  · have hne : j ≠ id := fun heq => hj (heq ▸ hid)
    rw [if_neg hj, if_neg hj, if_neg hne]

/-- The lowest layer on the path is changed. -/
theorem ValidPath.modify {f v : Slot α → Slot α} (h : ValidPath L M id idp)
    (hf : Changes M N id v f (fun bm => bm) fun bm => bm) :
    ValidPath L N id (idp.modifyAt 0 (id / idrSize) f) ∧
      ∀ j, content (idp.modifyAt 0 (id / idrSize) f) j =
        if j = id then ((content idp id).1, v (content idp id).2) else content idp j := by
  obtain ⟨hwf, -, hce⟩ := h.wf.modify hf
  refine ⟨⟨hwf, h.pos, h.le, h.free, h.id_lt⟩, fun j => ?_⟩
  rw [content_of_lt h.id_lt]
  exact holds_update h.pos h.id_lt hce j

/-- **`idr_mark_full`.** -/
theorem ValidPath.idrMarkFull (h : ValidPath L M id idp)
    (hL : ∀ bm ary n, M bm ary n → L (update bm (digit idrSize 0 id) true) ary n) :
    Valid L (idrMarkFull idp id) ∧ ∀ j, content (IdAlloc.idrMarkFull idp id) j =
        if j = id then (true, (content idp id).2) else content idp j := by
  obtain ⟨hwf, -, hce⟩ := h.wf.markFull hL
  refine ⟨⟨hwf, h.pos, h.le, h.free⟩, fun j => ?_⟩
  rw [content_of_lt h.id_lt]
  exact holds_update h.pos h.id_lt hce j

/-- The idr after the walk that clears the bits on the path of `id`. -/
def clearPath (idp : Idr α) (id : ℕ) (f : Slot α → Slot α) : Idr α :=
  { idp with top := clearFull id f (idp.layers - 1) idp.top }

/-- The walk that clears the bits on the path. -/
theorem ValidPath.clearPath {f v : Slot α → Slot α} {b : Bool} (h : ValidPath L M id idp)
    (hf : Changes M N id v f
      (update · (digit idrSize 0 id) false) (update · (digit idrSize 0 id) b)) :
    ValidPath L N id (clearPath idp id f) ∧ ∀ j, content (IdAlloc.clearPath idp id f) j =
        if j = id then (b, v (content idp id).2) else content idp j := by
  obtain ⟨hwf, hce⟩ := h.wf.clearFull hf
  refine ⟨⟨hwf, h.pos, h.le, h.free, h.id_lt⟩, fun j => ?_⟩
  rw [content_of_lt h.id_lt]
  exact holds_update h.pos h.id_lt hce j

/-! ### Removal -/

theorem trimFreeList_subset (l : List (Slot α)) : trimFreeList l ⊆ l := by
  induction l with
  | nil => exact List.Subset.refl []
  | cons p l ih =>
    rw [trimFreeList]
    split
    · exact fun s hs => List.mem_cons_of_mem p (ih hs)
    · exact List.Subset.refl _

/-- A single child at the leftmost slot takes the place of the top. -/
theorem Wf.shrink (h : Wf L (l + 1) p) (hct : p.count = 1) (hch : (p.ary 0).isNull = false) :
    Wf L l (p.ary 0) ∧ ∀ j, holds (l + 1) (p.ary 0) j = holds (l + 2) p j := by
  have hwf := h.child (by decide) hch
  obtain ⟨bm, ary, n, rfl⟩ := h.exists_layer
  have ho : inUse ary = 1 := by
    have := h.2.1
    have hn : n = 1 := hct
    omega
  have hot (i : ℕ) (hi : i < idrSize) (hne : i ≠ 0) : ary i = .null := by
    by_contra hc
    have hnl : (ary i).isNull = false := by
      rw [Bool.eq_false_iff]
      exact fun h => hc (eq_null_of_isNull h)
    exact hne (eq_of_used_eq_one _ ho hi (by decide) hnl hch)
  exact ⟨hwf, fun j => (holds_leftmost hot).symm⟩

/-- Shrinking the tree keeps what it holds. -/
theorem Good.shrink (h : Good L idp) :
    Good L (idrShrink idp) ∧ ∀ j, content (idrShrink idp) j = content idp j := by
  rw [idrShrink]
  split
  · rename_i hcontent
    obtain ⟨ht, hc, hlay, hch⟩ := hcontent
    rcases h.tree with hnl | hv
    · rw [hnl] at ht
      cases ht
    have hwf := hv.wf
    have hsl : idp.layers - 1 = idp.layers - 2 + 1 := by omega
    rw [hsl] at hwf
    obtain ⟨hb, hhld⟩ := hwf.shrink hc (by simpa using hch)
    have hle := hv.le
    refine ⟨Valid.good ⟨hb, by simp only; omega, by simp only; omega, h.free⟩, fun j => ?_⟩
    have hj := hhld j
    rw [← hsl, show idp.layers - 2 + 2 = idp.layers by omega] at hj
    exact hj
  · exact ⟨h, fun _ => rfl⟩

/-- The end of `idr_remove` keeps what the tree holds. -/
theorem Good.finish (h : Good L idp) :
    Good L { idrShrink idp with idFree := trimFreeList (idrShrink idp).idFree } ∧
      ∀ j, content { idrShrink idp with idFree := trimFreeList (idrShrink idp).idFree } j =
        content idp j := by
  obtain ⟨hgood, hcontent⟩ := h.shrink
  have hfe (s : Slot α) (hs : s ∈ trimFreeList (idrShrink idp).idFree) : Zeroed s :=
    hgood.free s (trimFreeList_subset _ hs)
  exact ⟨⟨hfe, hgood.tree.imp_right fun hv => ⟨hv.wf, hv.pos, hv.le, hfe⟩⟩, hcontent⟩

/-- **`idr_remove`** of an id whose bit is set. -/
theorem ValidPath.idrRemove (hOk : LeafOk L) (h : ValidPath L M id idp)
    (hL : ∀ bm ary n, M bm ary n → bm (digit idrSize 0 id) = true ∧
      L (update bm (digit idrSize 0 id) false) (update ary (digit idrSize 0 id) .null) (n + -1)) :
    Good L (idrRemove idp id) ∧ ∀ j, content (IdAlloc.idrRemove idp id) j =
        if j = id then (false, .null) else content idp j := by
  have hid : id % maxIdBit = id := by
    refine Nat.mod_eq_of_lt (lt_of_lt_of_le h.id_lt ?_)
    have hle : idp.layers ≤ 6 := Nat.le_of_lt_succ h.le
    exact (Nat.pow_le_pow_right (by decide) hle).trans (by decide)
  obtain ⟨hgn, hwf, hce⟩ := h.wf.subRemove hL hOk.empty
  have hhld := holds_update h.pos h.id_lt hce
  rw [IdAlloc.idrRemove, hid]
  generalize subRemove id (idp.layers - 1) idp.top = r at *
  have hb : Good L { idp with top := r.1, layers := if r.2 = true then 0 else idp.layers } ∧
      ∀ j, content { idp with top := r.1, layers := if r.2 = true then 0 else idp.layers } j =
        if j = id then (false, .null) else content idp j := by
    by_cases hfrd : r.2 = true
    · have ht := hgn hfrd
      refine ⟨⟨h.free, .inl ht⟩, fun j => ?_⟩
      have hj := hhld j
      rw [ht, holds_null] at hj
      rw [content, ht, holds_null]
      exact hj
    · rw [if_neg hfrd]
      exact ⟨Valid.good ⟨hwf (Bool.eq_false_of_not_eq_true hfrd), h.pos, h.le, h.free⟩, hhld⟩
  obtain ⟨hgood, hcontent⟩ := hb.1.finish
  exact ⟨hgood, fun j => (hcontent j).trans (hb.2 j)⟩

/-! ### Lookup -/

theorem Wf.findLoop (h : Wf L l p) : findLoop id (l + 1) p = some (cell l p id).2.item? := by
  induction l generalizing p with
  | zero =>
    obtain ⟨bm, ary, n, rfl⟩ := h.exists_layer
    rfl
  | succ l ih =>
    obtain ⟨bm, ary, n, rfl⟩ := h.exists_layer
    have hsp : IdAlloc.findLoop id (l + 2) (.layer bm ary n (l + 1)) =
        IdAlloc.findLoop id (l + 1) (ary (digit idrSize (l + 1) id)) := by
      rw [IdAlloc.findLoop]
      simp [Slot.level, Slot.ary]
    rw [hsp, cell_succ, Slot.ary]
    rcases h.2.2 _ (digit_idrSize_lt (l + 1) id) with ⟨hnl, -⟩ | ⟨hwf, -⟩
    · rw [hnl, cell_null]
      rfl
    · exact ih hwf

/-- **`idr_find`** returns the pointer of an id, and meets no `BUG_ON`. -/
theorem Good.idrFind (h : Good L idp) (hid : id < maxIdBit) :
    idrFind idp id = some (content idp id).2.item? := by
  rw [IdAlloc.idrFind]
  rcases h.tree with hnl | hv
  · rw [content, hnl, holds_null]
    rfl
  have hp := hv.pos
  have hlay : idp.top.level + 1 = idp.layers := by
    rw [hv.wf.level_eq]
    omega
  have hsz := one_shiftLeft_layers idp.layers
  rw [hv.wf.isNull_eq]
  simp only [Bool.false_eq_true, if_false, hlay, Nat.mod_eq_of_lt hid]
  rw [content, holds]
  by_cases hlt : id < idrSize ^ idp.layers
  · rw [if_neg (by omega), if_pos hlt, ← hv.wf.findLoop, Nat.sub_add_cancel hp]
  rw [if_pos (by omega), if_neg hlt]
  rfl

/-! ### The free list -/

/-- A layer of the free list is not a part of the tree. -/
theorem Good.getFromFreeList (h : Good L idp) : Good L (getFromFreeList idp).2 ∧
      ∀ j, content (IdAlloc.getFromFreeList idp).2 j = content idp j := by
  rcases getFromFreeList_cases h.free with hno | ⟨k, rest, hso, hrs⟩
  · rw [hno]
    exact ⟨h, fun _ => rfl⟩
  rw [hso]
  exact ⟨⟨hrs, h.tree.imp_right fun hv => ⟨hv.wf, hv.pos, hv.le, hrs⟩⟩, fun _ => rfl⟩

theorem idrPreGetLoop_spec (h : Good L idp) (n avail : ℕ) : Good L (idrPreGetLoop n avail idp).2 ∧
      ∀ j, content (idrPreGetLoop n avail idp).2 j = content idp j := by
  induction n generalizing avail idp with
  | zero => exact ⟨h, fun _ => rfl⟩
  | succ n ih =>
    cases avail with
    | zero => exact ⟨h, fun _ => rfl⟩
    | succ avail =>
      have hfe : ∀ s ∈ (moveToFreeList idp (newLayer α)).idFree, Zeroed s :=
        List.forall_mem_cons.2 ⟨⟨0, rfl⟩, h.free⟩
      have hgood : Good L (moveToFreeList idp (newLayer α)) :=
        ⟨hfe, h.tree.imp_right fun hv => ⟨hv.wf, hv.pos, hv.le, hfe⟩⟩
      exact ih hgood avail

end NestLinux.IdAlloc
