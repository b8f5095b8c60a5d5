import NestLinux.Idr.Tree

/-!
# The search in the tree

`sub_alloc` walks down to the first id from some id on that is not taken. Where a layer has
nothing left it goes on behind the layer; where a layer is missing it puts an empty one. None of
this changes what the tree holds, whether the search ends with an id, at the end of the tree, or
for want of a layer.
-/

namespace NestLinux.IdAlloc

open Function Lib Slot

variable {α : Type*} {L : Leaf α} {l i j id q d k m : ℕ} {p c : Slot α} {bm : ℕ → Bool}
  {ary : ℕ → Slot α} {n : ℤ} {idp : Idr α} {pa : Path}

/-- An empty layer is a lowest layer, and the only one with a count of zero. -/
structure LeafOk (L : Leaf α) : Prop where
  zero : L (fun _ => false) (fun _ => .null) 0
  empty : ∀ bm ary, L bm ary 0 → ∀ i < idrSize, bm i = false ∧ ary i = .null

/-! ### Layers by their names -/

@[simp] theorem down_null : (null : Slot α).down d q = .null := by
  induction d with
  | zero => rfl
  | succ d ih => exact ih

theorem down_succ (hm : m < idrSize) : p.down (d + 1) (q * idrSize + m) = (p.down d q).ary m := by
  have hd : (q * idrSize + m) / idrSize = q := by
    rw [mul_comm, Nat.mul_add_div (by decide), Nat.div_eq_of_lt hm, add_zero]
  induction d generalizing p with
  | zero =>
    have hmd : (q * idrSize + m) % idrSize = m := by
      rw [mul_comm, Nat.mul_add_mod, Nat.mod_eq_of_lt hm]
    rw [down, down, down, digit_zero, hmd]
  | succ d ih =>
    rw [down, ih, down, ← digit_div, hd]

theorem Wf.down (h : Wf L (l + d) p) (hq : (p.down d q).isNull = false) : Wf L l (p.down d q) := by
  induction d generalizing p with
  | zero => exact h
  | succ d ih =>
    refine ih (h.child (digit_idrSize_lt d q) ?_) hq
    by_contra hnl
    rw [down, eq_null_of_isNull (Bool.eq_true_of_not_eq_false hnl)] at hq
    exact absurd hq (by simp)

/-- The cells of a layer are those of the tree. -/
theorem cell_down (p : Slot α) (l d j : ℕ) :
    cell (l + d) p j = cell l (p.down d (j / idrSize ^ (l + 1))) j := by
  induction d generalizing p with
  | zero => rfl
  | succ d ih =>
    have hdig : digit idrSize d (j / idrSize ^ (l + 1)) = digit idrSize (l + d + 1) j := by
      rw [digit, Nat.div_div_eq_div_mul, ← pow_add]
      congr 3
      omega
    rw [down, hdig, ← ih]
    rfl

/-- The cell of an id is in its lowest layer. -/
theorem cell_eq_down : cell l p id =
    ((p.down l (id / idrSize)).bitmap (id % idrSize),
      (p.down l (id / idrSize)).ary (id % idrSize)) := by
  have h := cell_down p 0 l id
  rw [zero_add, pow_one] at h
  rw [h, cell, digit_zero]

/-- A layer is replaced by one that holds the same. -/
theorem Wf.modify {f : Slot α → Slot α} (h : Wf L (l + d) p) (hq : (p.down d q).isNull = false)
    (hf : Wf L l (f (p.down d q)))
    (hfu : (p.down d q).isFull = true → (f (p.down d q)).isFull = true)
    (hce : ∀ j, cell l (f (p.down d q)) j = cell l (p.down d q) j) :
    Wf L (l + d) (p.modify d q f) ∧ (p.isFull = true → (p.modify d q f).isFull = true) ∧
      (∀ j, cell (l + d) (p.modify d q f) j = cell (l + d) p j) ∧
      (p.modify d q f).down d q = f (p.down d q) := by
  induction d generalizing p with
  | zero => exact ⟨hf, hfu, hce, rfl⟩
  | succ d ih =>
    have hlt := digit_idrSize_lt d q
    obtain ⟨bm, ary, n, rfl⟩ := h.exists_layer
    have hch : (ary (digit idrSize d q)).isNull = false := by
      by_contra hnl
      rw [Slot.down, Slot.ary, eq_null_of_isNull (Bool.eq_true_of_not_eq_false hnl)] at hq
      exact absurd hq (by simp)
    have hbl : Wf L (l + d) (ary (digit idrSize d q)) := h.child hlt hch
    obtain ⟨hwf, hkp, hcel, hdw⟩ := ih hbl hq hf hfu hce
    rw [Slot.modify, Slot.ary, Slot.put]
    refine ⟨⟨rfl, ?_, fun i hi => ?_⟩, fun hp => hp, fun j => ?_, ?_⟩
    · rw [inUse_update hlt (hwf.isNull_eq.trans hch.symm)]
      exact h.2.1
    · by_cases hi' : i = digit idrSize d q
      · subst hi'
        rw [update_self]
        rcases h.2.2 _ hlt with ⟨hnl, -⟩ | ⟨-, hbt⟩
        · rw [hnl] at hch
          cases hch
        · exact .inr ⟨hwf, fun hb => hkp (hbt hb)⟩
      · rw [update_of_ne hi']
        exact h.2.2 i hi
    · rw [← add_assoc, cell_succ, cell_succ, Slot.ary, Slot.ary]
      by_cases hj : digit idrSize (l + d + 1) j = digit idrSize d q
      · rw [hj, update_self, hcel]
      · rw [update_of_ne hj]
    · rw [Slot.down, Slot.ary, update_self, hdw]
      rfl

/-! ### Empty layers -/

abbrev emptyLayer (α : Type*) (k : ℕ) : Slot α := .layer (fun _ => false) (fun _ => .null) 0 k

/-- The layers of the free list are empty. -/
def Zeroed (p : Slot α) : Prop := ∃ k, p = emptyLayer α k

theorem wf_empty (hL : LeafOk L) : Wf L l (emptyLayer α l) := by
  cases l with
  | zero => exact ⟨rfl, hL.zero⟩
  | succ l =>
    refine ⟨rfl, ?_, fun i _ => .inl ⟨rfl, rfl⟩⟩
    rfl

theorem cell_empty : cell l (emptyLayer α k) j = (false, .null) := by
  cases l with
  | zero => rfl
  | succ l => exact cell_null

/-- What comes from the free list is an empty layer. -/
theorem getFromFreeList_cases (hfe : ∀ s ∈ idp.idFree, Zeroed s) :
    getFromFreeList idp = (none, idp) ∨
      ∃ k rest, getFromFreeList idp = (some (emptyLayer α k), { idp with idFree := rest }) ∧
        ∀ s ∈ rest, Zeroed s := by
  rw [getFromFreeList]
  split
  · exact .inl rfl
  rename_i p rest hli
  rw [hli] at hfe
  obtain ⟨k, rfl⟩ := hfe p (by simp)
  refine .inr ⟨k, rest, ?_, fun s hs => hfe s (by simp [hs])⟩
  rw [put, update_eq_self]

/-- An empty layer is put where one is missing. -/
theorem Wf.attach (hL : LeafOk L) (h : Wf L (l + 1) p) (hm : m < idrSize)
    (hnl : (p.ary m).isNull = true) : Wf L (l + 1) ((p.put m (emptyLayer α l)).addCount 1) ∧
      ((p.put m (emptyLayer α l)).addCount 1).isFull = p.isFull ∧
      ∀ j, cell (l + 1) ((p.put m (emptyLayer α l)).addCount 1) j = cell (l + 1) p j := by
  obtain ⟨bm, ary, n, rfl⟩ := h.exists_layer
  have hsl : ary m = .null := eq_null_of_isNull hnl
  have hc : inUse (update ary m (emptyLayer α l)) = inUse ary + 1 := inUse_link hm hnl rfl
  refine ⟨⟨rfl, ?_, fun i hi => ?_⟩, rfl, fun j => ?_⟩
  · rw [hc, h.2.1]
    rfl
  · by_cases hi' : i = m
    · subst hi'
      rw [update_self]
      rcases h.2.2 i hi with ⟨-, hbt⟩ | ⟨hwf, -⟩
      · exact .inr ⟨wf_empty hL, fun hb => absurd (hbt.symm.trans hb) (by decide)⟩
      · exact absurd (hwf.isNull_eq.symm.trans hnl) (by decide)
    · rw [update_of_ne hi']
      exact h.2.2 i hi
  · change cell l (update ary m _ _) j = cell l (ary _) j
    by_cases hj : digit idrSize (l + 1) j = m
    · rw [hj, update_self, hsl, cell_null, cell_empty]
    · rw [update_of_ne hj]

/-! ### The walk down -/

def cells (idp : Idr α) (id : ℕ) : Bool × Slot α := cell (idp.layers - 1) idp.top id

/-- An idr between two calls, whose tree is there. -/
structure Valid (L : Leaf α) (idp : Idr α) : Prop where
  wf : Wf L (idp.layers - 1) idp.top
  pos : 0 < idp.layers
  le : idp.layers < maxLevel
  free : ∀ s ∈ idp.idFree, Zeroed s

/-- The state of the loop of `sub_alloc`: the layer `q` of level `l` is on the path of `id`, and
the layers above it are in `pa`. -/
structure Walk (L : Leaf α) (idp : Idr α) (pa : Path) (q l id : ℕ) : Prop where
  valid : Valid L idp
  level : l < idp.layers
  id_lt : id < idrSize ^ idp.layers
  name : q = id / idrSize ^ (l + 1)
  there : (idp.layerAt l q).isNull = false
  path : ∀ k, l < k → k < idp.layers → pa k = some (id / idrSize ^ (k + 1))

/-- What `sub_alloc` returns for an id. -/
def SubAllocOk (idp : Idr α) (id : ℕ) (idp' : Idr α) (pa : Path) : AllocResult → Prop
  | .found t => id ≤ t ∧ t < idrSize ^ idp.layers ∧ (cells idp t).1 = false ∧
      (∀ j, id ≤ j → j < t → (cells idp j).1 = true) ∧ pa 0 = some (t / idrSize) ∧
      Present t (idp.layers - 1) idp'.top
  | .needToGrow t => t = idrSize ^ idp.layers ∧
      ∀ j, id ≤ j → j < t → (cells idp j).1 = true
  | .noMem => True
  | .noMoreSpace => False

theorem Valid.walk (h : Valid L idp) (hid : id < idrSize ^ idp.layers) (pa : Path) :
    Walk L idp (update pa idp.layers none) 0 (idp.layers - 1) id := by
  have hp := h.pos
  refine ⟨h, by omega, hid, ?_, ?_, fun k hk hk' => by omega⟩
  · rw [Nat.sub_add_cancel hp, Nat.div_eq_of_lt hid]
  have ht : idp.layerAt (idp.layers - 1) 0 = idp.top := by
    rw [Idr.layerAt, Nat.sub_self]
    rfl
  rw [ht]
  exact h.wf.isNull_eq

section Walk

variable (hw : Walk L idp pa q l id)

include hw

theorem Walk.sub_add : l + (idp.layers - 1 - l) = idp.layers - 1 := by
  have := hw.level
  omega

theorem Walk.wf : Wf L l (idp.layerAt l q) := by
  have h := hw.valid.wf
  rw [← hw.sub_add] at h
  exact h.down hw.there

theorem Walk.cells_eq (hj : j / idrSize ^ (l + 1) = q) :
    cells idp j = cell l (idp.layerAt l q) j := by
  rw [cells, ← hw.sub_add, cell_down, hj]
  rfl

theorem Walk.taken (hj : j / idrSize ^ (l + 1) = q)
    (hb : (idp.layerAt l q).bitmap (digit idrSize l j) = true) : (cells idp j).1 = true := by
  rw [hw.cells_eq hj]
  exact hw.wf.bit_cell hb

/-- The end of the layer is not behind the tree. -/
theorem Walk.nextBlock_le : nextBlock idrSize (l + 1) id ≤ idrSize ^ idp.layers :=
  nextBlock_le_of_dvd (by decide) (pow_dvd_pow _ hw.level) hw.id_lt

/-- The walk goes on behind the layer, in the layer above it. -/
theorem Walk.up {id' : ℕ} (hl : l + 1 < idp.layers) (hid' : id' < idrSize ^ idp.layers)
    (hsm : id' / idrSize ^ (l + 2) = id / idrSize ^ (l + 2)) :
    Walk L idp pa (id / idrSize ^ (l + 2)) (l + 1) id' := by
  refine ⟨hw.valid, hl, hid', hsm.symm, ?_, fun k hk hk' => ?_⟩
  · by_contra hnl
    have hthr := hw.there
    have hdep : idp.layers - 1 - l = idp.layers - 1 - (l + 1) + 1 := by omega
    have hq : q = id / idrSize ^ (l + 2) * idrSize + digit idrSize (l + 1) id := by
      rw [hw.name]
      exact div_pow_eq idrSize (l + 1) id
    rw [Idr.layerAt, hdep, hq, down_succ (digit_idrSize_lt _ _)] at hthr
    rw [Idr.layerAt] at hnl
    rw [eq_null_of_isNull (Bool.eq_true_of_not_eq_false hnl)] at hthr
    exact absurd hthr (by simp [ary])
  · rw [hw.path k (by omega) hk', div_pow_eq_of_le (by omega) hsm]

end Walk

theorem layerAt_child (hl : l + 1 < idp.layers) (hm : m < idrSize) :
    idp.layerAt l (q * idrSize + m) = (idp.layerAt (l + 1) q).ary m := by
  have hdep : idp.layers - 1 - l = idp.layers - 1 - (l + 1) + 1 := by omega
  rw [Idr.layerAt, Idr.layerAt, hdep, down_succ hm]

theorem Walk.down {id' : ℕ} (hw : Walk L idp pa q (l + 1) id) (hm : m < idrSize)
    (hid' : id' < idrSize ^ idp.layers) (hsm : id' / idrSize ^ (l + 2) = id / idrSize ^ (l + 2))
    (hdig : digit idrSize (l + 1) id' = m) (hch : ((idp.layerAt (l + 1) q).ary m).isNull = false) :
    Walk L idp (update pa (l + 1) (some q)) (q * idrSize + m) l id' := by
  have hl := hw.level
  refine ⟨hw.valid, by omega, hid', ?_, ?_, fun k hk hk' => ?_⟩
  · rw [div_pow_eq idrSize (l + 1) id', hsm, hdig, hw.name]
  · rw [layerAt_child hl hm]
    exact hch
  by_cases hkl : k = l + 1
  · subst hkl
    rw [update_self, hw.name, hsm]
  rw [update_of_ne hkl, hw.path k (by omega) hk', div_pow_eq_of_le (by omega) hsm]

theorem Walk.attach (hL : LeafOk L) (hw : Walk L idp pa q (l + 1) id) (hm : m < idrSize)
    (hnl : ((idp.layerAt (l + 1) q).ary m).isNull = true) {rest : List (Slot α)}
    (hrs : ∀ s ∈ rest, Zeroed s) {idp' : Idr α}
    (hidp' : idp' = Idr.modifyAt { idp with idFree := rest } (l + 1) q fun layer =>
      (layer.put m (emptyLayer α l)).addCount 1) :
    Walk L idp' pa q (l + 1) id ∧ idp'.layers = idp.layers ∧
      ((idp'.layerAt (l + 1) q).ary m).isNull = false ∧ ∀ j, cells idp' j = cells idp j := by
  have hwf := hw.valid.wf
  rw [← hw.sub_add] at hwf
  obtain ⟨hn, hfu, hce⟩ := hw.wf.attach hL hm hnl
  obtain ⟨hmd, -, hcel, hdw⟩ := hwf.modify
    (f := fun layer => (layer.put m (emptyLayer α l)).addCount 1) hw.there hn
    (fun h => hfu.trans h) hce
  have hly : idp'.layerAt (l + 1) q =
      ((idp.layerAt (l + 1) q).put m (emptyLayer α l)).addCount 1 := by
    rw [hidp']
    exact hdw
  subst hidp'
  refine ⟨⟨⟨?_, hw.valid.pos, hw.valid.le, hrs⟩, hw.level, hw.id_lt, hw.name, ?_, hw.path⟩, rfl, ?_,
    fun j => ?_⟩
  · rw [hw.sub_add] at hmd
    exact hmd
  · rw [hly]
    exact hn.isNull_eq
  · obtain ⟨bm, ary, n, hp⟩ := hw.wf.exists_layer
    rw [hly, hp]
    change (update ary m (emptyLayer α l) m).isNull = false
    rw [update_self]
    rfl
  · have h := hcel j
    rw [hw.sub_add] at h
    exact h

theorem present_of_down (h : (p.down l (id / idrSize)).isNull = false) : Present id l p := by
  induction l generalizing p with
  | zero => exact h
  | succ l ih =>
    rw [down, digit_div] at h
    exact ih h

/-- The search ends, and changes no cell. -/
def SubAllocs (L : Leaf α) (idp : Idr α) (id : ℕ) (res : Option (Idr α × Path × AllocResult)) :
    Prop :=
  ∃ idp' pa r, res = some (idp', pa, r) ∧ Valid L idp' ∧ idp'.layers = idp.layers ∧
    (∀ j, cells idp' j = cells idp j) ∧ SubAllocOk idp id idp' pa r

/-- The search may start later, if everything before is taken. -/
theorem SubAllocs.mono {idp1 : Idr α} {id' : ℕ} {res : Option (Idr α × Path × AllocResult)}
    (h : SubAllocs L idp1 id' res) (hlay : idp1.layers = idp.layers)
    (hcel : ∀ j, cells idp1 j = cells idp j) (hid : id ≤ id')
    (htkn : ∀ j, id ≤ j → j < id' → (cells idp j).1 = true) : SubAllocs L idp id res := by
  obtain ⟨idp', pa, r, hr, hv, hlay', hcel', h⟩ := h
  refine ⟨idp', pa, r, hr, hv, hlay'.trans hlay, fun j => (hcel' j).trans (hcel j), ?_⟩
  have hrng {t : ℕ} (ht : ∀ j, id' ≤ j → j < t → (cells idp1 j).1 = true) (j : ℕ) (hj : id ≤ j)
      (hjt : j < t) : (cells idp j).1 = true := by
    rcases lt_or_ge j id' with hlt | hge
    · exact htkn j hj hlt
    rw [← hcel]
    exact ht j hge hjt
  cases r with
  | found t =>
    obtain ⟨hle, hlt, hfe, ha, hpa, hpr⟩ := h
    rw [hlay] at hlt hpr
    rw [hcel] at hfe
    exact ⟨hid.trans hle, hlt, hfe, hrng ha, hpa, hpr⟩
  | noMem => trivial
  | needToGrow t =>
    obtain ⟨ht, ha⟩ := h
    rw [hlay] at ht
    exact ⟨ht, hrng ha⟩
  | noMoreSpace => exact h

theorem one_shiftLeft_layers (layers : ℕ) : 1 <<< (layers * 5) = idrSize ^ layers := by
  rw [mul_comm]
  exact one_shiftLeft_mul 5 layers

theorem pow_layers_le (h : Valid L idp) : idrSize ^ idp.layers ≤ 2 ^ 30 := by
  have hle : idp.layers ≤ 6 := Nat.le_of_lt_succ h.le
  exact Nat.pow_le_pow_right (by decide) hle

/-- The layer has nothing left from the id on. -/
theorem subAllocLoop_full {fuel : ℕ}
    (he : nextZero (idp.layerAt l q).bitmap idrSize (digit idrSize l id) = idrSize) :
    subAllocLoop (fuel + 1) idp pa q l id =
      if idrSize ^ idp.layers ≤ nextBlock idrSize (l + 1) id ∧
          nextBlock idrSize (l + 1) id < maxIdBit then
        some (idp, pa, .needToGrow (nextBlock idrSize (l + 1) id)) else match pa (l + 1) with
        | none => none
        | some p =>
          if id / idrSize ^ (l + 2) = nextBlock idrSize (l + 1) id / idrSize ^ (l + 2) then
            subAllocLoop fuel idp pa p (l + 1) (nextBlock idrSize (l + 1) id) else
            subAllocLoop fuel idp (update pa idp.layers none) 0 (idp.layers - 1)
              (nextBlock idrSize (l + 1) id) := by
  have hnx : (id ||| (1 <<< (5 * (l + 1)) - 1)) + 1 = nextBlock idrSize (l + 1) id :=
    or_add_one_eq_nextBlock 5 (l + 1) id
  have hsz := one_shiftLeft_layers idp.layers
  have hshf (i : ℕ) : i >>> (5 * (l + 1 + 1)) = i / idrSize ^ (l + 2) := shiftRight_mul 5 (l + 2) i
  rw [subAllocLoop]
  simp only [he, hnx, hsz, hshf]
  rfl

/-- The id that the loop goes on with if slot `m` has something left. -/
def advance (l id m : ℕ) : ℕ := if m ≠ digit idrSize l id then setDigit idrSize l id m else id

theorem advance_spec (hm : m < idrSize) (hle : digit idrSize l id ≤ m) :
    id ≤ advance l id m ∧ advance l id m / idrSize ^ (l + 1) = id / idrSize ^ (l + 1) ∧
      digit idrSize l (advance l id m) = m ∧ ∀ j, id ≤ j → j < advance l id m →
        j / idrSize ^ (l + 1) = id / idrSize ^ (l + 1) ∧ digit idrSize l j < m := by
  rw [advance]
  by_cases heq : m = digit idrSize l id
  · rw [if_neg (by simp [heq])]
    exact ⟨le_refl id, rfl, heq.symm, fun j hj hlt => by omega⟩
  have hlt : digit idrSize l id < m := by omega
  rw [if_pos heq]
  refine ⟨le_of_lt (lt_setDigit (by decide) hlt), setDigit_div_succ hm, digit_setDigit hm, ?_⟩
  intro j hj hjt
  exact digit_lt_of_lt_setDigit (by decide) hm hj hjt

theorem Walk.advance_lt (hw : Walk L idp pa q l id) (hm : m < idrSize)
    (hle : digit idrSize l id ≤ m) : advance l id m < idrSize ^ idp.layers := by
  refine lt_of_lt_of_le ?_ hw.nextBlock_le
  rw [nextBlock_eq, ← Nat.div_lt_iff_lt_mul (Nat.pow_pos (by decide)), (advance_spec hm hle).2.1]
  exact Nat.lt_succ_self _

/-- The walk ends at an id that is not taken. -/
theorem Walk.found (hw : Walk L idp pa q 0 id) (hm : m < idrSize) (hle : digit idrSize 0 id ≤ m)
    (hb : (idp.layerAt 0 q).bitmap m = false) : q = advance 0 id m / idrSize ∧
      (cells idp (advance 0 id m)).1 = false ∧
        Present (advance 0 id m) (idp.layers - 1) idp.top := by
  obtain ⟨-, hsm, hdig, -⟩ := advance_spec hm hle
  have hname : q = advance 0 id m / idrSize := by
    rw [hw.name, ← hsm]
    simp
  refine ⟨hname, ?_, present_of_down ?_⟩
  · rw [hw.cells_eq (hsm.trans hw.name.symm), cell, hdig]
    exact hb
  · rw [← hname]
    exact hw.there

/-- The layer has something left in slot `m`. -/
theorem subAllocLoop_space {fuel : ℕ} (hm : m < idrSize)
    (hfi : nextZero (idp.layerAt l q).bitmap idrSize (digit idrSize l id) = m) :
    subAllocLoop (fuel + 1) idp pa q l id =
      if maxIdBit ≤ advance l id m then some (idp, pa, .noMoreSpace) else match l with
      | 0 => some (idp, update pa 0 (some q), .found (advance 0 id m))
      | l + 1 => if ((idp.layerAt (l + 1) q).ary m).isNull then match getFromFreeList idp with
          | (none, idp) => some (idp, pa, .noMem)
          | (some new, idp) => subAllocLoop fuel
              (idp.modifyAt (l + 1) q fun layer => (layer.put m (new.setLevel l)).addCount 1)
              (update pa (l + 1) (some q)) (q * idrSize + m) l (advance (l + 1) id m) else
          subAllocLoop fuel idp (update pa (l + 1) (some q)) (q * idrSize + m) l
            (advance (l + 1) id m) := by
  have hxor :
      ((id >>> (5 * l)) ^^^ digit idrSize l id ^^^ m) <<< (5 * l) = setDigit idrSize l id m :=
    xor_digit_eq_setDigit 5 l id hm
  rw [subAllocLoop]
  simp only [hfi, hxor]
  rw [if_neg (by omega)]
  cases l <;> rfl

/-- **The loop of `sub_alloc`** finds the first id that is not taken, or comes to the end of the
tree, or wants a layer. -/
theorem subAllocLoop_spec (hL : LeafOk L) {fuel : ℕ} (hw : Walk L idp pa q l id)
    (hfl : (idrSize ^ idp.layers - id) * idp.layers + l < fuel) :
    SubAllocs L idp id (subAllocLoop fuel idp pa q l id) := by
  induction fuel generalizing idp pa q l id with
  | zero => omega
  | succ fuel ih =>
    have hq := hw.name
    have hsn (j : ℕ) (hj : id ≤ j) (hbk : j / idrSize ^ (l + 1) = id / idrSize ^ (l + 1))
        (hlt : digit idrSize l j < nextZero (idp.layerAt l q).bitmap idrSize (digit idrSize l id)) :
        (cells idp j).1 = true := by
      refine hw.taken (hbk.trans hq.symm) ?_
      exact getBit_of_lt_nextZero (digit_le_digit hj hbk) hlt (digit_idrSize_lt l j)
    rcases nextZero_cases (idp.layerAt l q).bitmap idrSize (digit idrSize l id) with
      he | ⟨hm, hle, hb⟩
    · rw [he] at hsn
      have hlat := lt_nextBlock (by decide : 0 < idrSize) (l + 1) id
      have htkn (j : ℕ) (hj : id ≤ j) (hlt : j < nextBlock idrSize (l + 1) id) :
          (cells idp j).1 = true :=
        hsn j hj (div_eq_of_lt_nextBlock (by decide) hj hlt) (digit_idrSize_lt l j)
      rw [subAllocLoop_full he]
      by_cases hgr : idrSize ^ idp.layers ≤ nextBlock idrSize (l + 1) id
      · rw [if_pos ⟨hgr, hw.nextBlock_le.trans_lt ((pow_layers_le hw.valid).trans_lt (by decide))⟩]
        exact ⟨idp, pa, _, rfl, hw.valid, rfl, fun _ => rfl, le_antisymm hw.nextBlock_le hgr, htkn⟩
      rw [if_neg fun h => hgr h.1]
      have hnx : nextBlock idrSize (l + 1) id < idrSize ^ idp.layers := by omega
      have hl : l + 1 < idp.layers := by
        refine lt_of_le_of_ne hw.level fun heq => ?_
        rw [heq, nextBlock_eq, Nat.div_eq_of_lt hw.id_lt] at hnx
        omega
      have hms {k : ℕ} (hk : k < idp.layers) :
          (idrSize ^ idp.layers - nextBlock idrSize (l + 1) id) * idp.layers + k < fuel := by
        have hls : idrSize ^ idp.layers - nextBlock idrSize (l + 1) id + 1 ≤
            idrSize ^ idp.layers - id := by omega
        have hmul := Nat.mul_le_mul_right idp.layers hls
        rw [add_mul] at hmul
        omega
      rw [hw.path (l + 1) (by omega) hl]
      simp only
      by_cases hsm : id / idrSize ^ (l + 2) =
          nextBlock idrSize (l + 1) id / idrSize ^ (l + 2)
      · rw [if_pos hsm]
        exact (ih (hw.up hl hnx hsm.symm) (hms hl)).mono rfl (fun _ => rfl) hlat.le htkn
      rw [if_neg hsm]
      exact (ih (hw.valid.walk hnx pa) (hms (by omega))).mono rfl (fun _ => rfl) hlat.le
        htkn
    generalize hfi : nextZero (idp.layerAt l q).bitmap idrSize (digit idrSize l id) = m at *
    obtain ⟨hge, hsm, hdig, hbf⟩ := advance_spec hm hle
    have htkn (j : ℕ) (hj : id ≤ j) (hlt : j < advance l id m) : (cells idp j).1 = true :=
      hsn j hj (hbf j hj hlt).1 (hbf j hj hlt).2
    have hid' := hw.advance_lt hm hle
    have hmx : advance l id m < maxIdBit :=
      lt_of_lt_of_le hid' ((pow_layers_le hw.valid).trans (by decide))
    rw [subAllocLoop_space hm hfi, if_neg hmx.not_ge]
    cases l with
    | zero =>
      obtain ⟨hname, hfree, hpr⟩ := hw.found hm hle hb
      refine ⟨idp, _, _, rfl, hw.valid, rfl, fun _ => rfl, hge, hid', hfree, htkn, ?_, hpr⟩
      rw [update_self, hname]
    | succ l =>
      have hms : (idrSize ^ idp.layers - advance (l + 1) id m) * idp.layers + l < fuel := by
        have hls : idrSize ^ idp.layers - advance (l + 1) id m ≤ idrSize ^ idp.layers - id := by
          omega
        have hmul := Nat.mul_le_mul_right idp.layers hls
        omega
      by_cases hnl : ((idp.layerAt (l + 1) q).ary m).isNull = true
      · simp only [hnl]
        rcases getFromFreeList_cases hw.valid.free with hno | ⟨k, rest, hso, hrs⟩
        · rw [hno]
          exact ⟨idp, pa, .noMem, rfl, hw.valid, rfl, fun _ => rfl, trivial⟩
        rw [hso]
        obtain ⟨hw', hlay', hch, hcel'⟩ := hw.attach hL hm hnl hrs rfl
        exact (ih (hw'.down hm hid' hsm hdig hch) hms).mono hlay' hcel' hge htkn
      · simp only [hnl]
        have hch := Bool.eq_false_of_not_eq_true hnl
        exact (ih (hw.down hm hid' hsm hdig hch) hms).mono rfl (fun _ => rfl) hge htkn

/-- **`sub_alloc`.** -/
theorem subAlloc_spec (hL : LeafOk L) (h : Valid L idp) (hid : id < idrSize ^ idp.layers)
    : SubAllocs L idp id (subAlloc idp pa id) := by
  refine subAllocLoop_spec hL (h.walk hid pa) ?_
  have hsz := pow_layers_le h
  have hle : idp.layers ≤ 6 := Nat.le_of_lt_succ h.le
  have hmul : (idrSize ^ idp.layers - id) * idp.layers ≤ 2 ^ 30 * 6 :=
    Nat.mul_le_mul (by omega) hle
  have hfl : 2 ^ 30 * 6 + 6 < subAllocFuel := by decide
  omega

end NestLinux.IdAlloc
