import NestLinux.Idr.Alloc

/-!
# An empty slot

If the search comes to the end of the tree, or if the id it is to start from is too large for the
tree, `idr_get_empty_slot` adds layers at the top. A tree without ids moves up as it is. If the
free list runs empty on the way, what was built is torn down.
-/

namespace NestLinux.IdAlloc

open Function Lib

variable {α : Type*} {L : Leaf α} {l i j id q d k m : ℕ} {p c : Slot α} {bm : ℕ → Bool}
  {ary : ℕ → Slot α} {n : ℤ} {idp : Idr α} {pa : Path}

/-! ### Growing -/

/-- What a tree of some layers holds. -/
def holds (layers : ℕ) (p : Slot α) (j : ℕ) : Bool × Slot α :=
  if j < idrSize ^ layers then cell (layers - 1) p j else (false, .null)

section

variable (hL : LeafOk L) (h : Wf L l p) (hc : p.count = 0)

include hL h hc

theorem Wf.eq_null : ∀ i < idrSize, p.bitmap i = false ∧ p.ary i = .null := by
  obtain ⟨bm, ary, n, rfl⟩ := h.exists_layer
  have hn : n = 0 := hc
  subst hn
  cases l with
  | zero => exact hL.empty bm ary h.2
  | succ l =>
    intro i hi
    have hnl : ary i = .null := inUse_eq_zero.1 (by have := h.2.1; omega) i hi
    rcases h.2.2 i hi with ⟨-, hb⟩ | ⟨hwf, -⟩
    · exact ⟨hb, hnl⟩
    rw [hnl] at hwf
    exact absurd hwf.isNull_eq (by simp)

theorem Wf.cell_eq_null (j : ℕ) : cell l p j = (false, .null) := by
  have hsl := h.eq_null hL hc (digit idrSize l j) (digit_idrSize_lt l j)
  cases l with
  | zero => exact Prod.ext hsl.1 hsl.2
  | succ l => rw [cell_succ, hsl.2, cell_null]

theorem Wf.relabel :
    Wf L (l + 1) (p.setLevel (p.level + 1)) ∧ (p.setLevel (p.level + 1)).count = 0 := by
  have hnl := h.eq_null hL hc
  obtain ⟨bm, ary, n, rfl⟩ := h.exists_layer
  refine ⟨⟨rfl, ?_, fun i hi => .inl ⟨(hnl i hi).2, (hnl i hi).1⟩⟩, hc⟩
  have hz : inUse ary = 0 := inUse_eq_zero.2 fun i hi => (hnl i hi).2
  rw [hz]
  exact hc

end

/-- The tree `p` is `base` with `k` layers built above it. -/
def Built : ℕ → Slot α → Slot α → Prop
  | 0, p, base => p = base
  | k + 1, p, base =>
    ∃ bm c n lv, p = .layer bm (update (fun _ => .null) 0 c) n lv ∧ Built k c base

theorem tearDown_spec {base : Slot α} (h : Built k p base) (hfe : ∀ s ∈ idp.idFree, Zeroed s) :
    ∃ rest, tearDown k idp p = { idp with top := base, idFree := rest } ∧ ∀ s ∈ rest, Zeroed s := by
  induction k generalizing p idp with
  | zero => exact ⟨idp.idFree, by rw [tearDown, show p = base from h], hfe⟩
  | succ k ih =>
    obtain ⟨bm, c, n, lv, rfl, hblt⟩ := h
    have he : ((Slot.layer bm (update (fun _ => .null) 0 c) n lv).put 0 .null).clear =
        emptyLayer α lv := by
      simp [Slot.put, Slot.clear]
    rw [tearDown, he]
    have hfe' : ∀ s ∈ (moveToFreeList idp (emptyLayer α lv)).idFree, Zeroed s :=
      List.forall_mem_cons.2 ⟨⟨lv, rfl⟩, hfe⟩
    obtain ⟨rest, hlp, hrs⟩ := ih hblt hfe'
    refine ⟨rest, ?_, hrs⟩
    rw [Slot.ary, update_self, hlp]
    rfl

theorem layerAbove_empty :
    ∃ bm, layerAbove (emptyLayer α k) p l = .layer bm (update (fun _ => .null) 0 p) 1 l ∧
      (bm 0 = true → p.isFull = true) ∧ ∀ i ≠ 0, bm i = false := by
  rw [layerAbove]
  by_cases hfu : p.isFull = true
  · rw [if_pos hfu]
    refine ⟨update (fun _ => false) 0 true, rfl, fun _ => hfu, fun i hi => ?_⟩
    rw [update_of_ne hi]
  · rw [if_neg hfu]
    exact ⟨fun _ => false, rfl, fun h => absurd h (by decide), fun _ _ => rfl⟩

/-- A top with nothing but its leftmost slot holds what is there. -/
theorem holds_leftmost (h : ∀ i < idrSize, i ≠ 0 → ary i = .null) :
    holds (l + 2) (.layer bm ary n k) j = holds (l + 1) (ary 0) j := by
  have hp : 0 < idrSize ^ (l + 1) := Nat.pow_pos (by decide)
  have hsz : idrSize ^ (l + 2) = idrSize ^ (l + 1) * idrSize := pow_succ _ _
  rw [holds, holds, hsz, Nat.add_sub_cancel, show l + 2 - 1 = l + 1 from rfl, cell_succ, Slot.ary]
  by_cases hj : j < idrSize ^ (l + 1)
  · have hz : digit idrSize (l + 1) j = 0 := by
      rw [digit, Nat.div_eq_of_lt hj, Nat.zero_mod]
    rw [if_pos hj, if_pos (lt_of_lt_of_le hj (Nat.le_mul_of_pos_right _ (by decide))), hz]
  rw [if_neg hj]
  by_cases hj' : j < idrSize ^ (l + 1) * idrSize
  · have hd : j / idrSize ^ (l + 1) < idrSize := Nat.div_lt_of_lt_mul hj'
    have hne : digit idrSize (l + 1) j ≠ 0 := by
      rw [digit, Nat.mod_eq_of_lt hd]
      exact ne_of_gt (Nat.div_pos (by omega) hp)
    rw [if_pos hj', h _ (digit_idrSize_lt _ _) hne, cell_null]
  · rw [if_neg hj']

theorem Wf.layerAbove (h : Wf L l p) (k : ℕ) :
    Wf L (l + 1) (layerAbove (emptyLayer α k) p (l + 1)) ∧
      ∀ j, holds (l + 2) (IdAlloc.layerAbove (emptyLayer α k) p (l + 1)) j = holds (l + 1) p j := by
  obtain ⟨bm, heq, hb, hot⟩ := layerAbove_empty
  have hc : inUse (update (fun _ => .null) 0 p) = inUse (fun _ => (.null : Slot α)) + 1 :=
    inUse_link (by decide) rfl h.isNull_eq
  rw [heq]
  refine ⟨⟨rfl, ?_, fun i _ => ?_⟩, fun j => ?_⟩
  · rw [hc]
    rfl
  · by_cases hi : i = 0
    · subst hi
      exact .inr ⟨h, hb⟩
    rw [update_of_ne hi]
    exact .inl ⟨rfl, hot i hi⟩
  · rw [holds_leftmost fun i _ hi => update_of_ne hi _ _]
    rfl

/-- The loop ends with a tree that holds the same, or with the tree it was started on. -/
def Grown (L : Leaf α) (id n : ℕ) (idp : Idr α) (p base : Slot α) (layers : ℕ)
    (res : Idr α × Option (Slot α × ℕ)) : Prop :=
  (∃ rest p' layers', res = ({ idp with idFree := rest }, some (p', layers')) ∧
      (∀ s ∈ rest, Zeroed s) ∧ Wf L (layers' - 1) p' ∧ layers ≤ layers' ∧ layers' ≤ layers + n ∧
      (id < idrSize ^ layers' ∨ layers' = layers + n) ∧
      ∀ j, holds layers' p' j = holds layers p j) ∨
    ∃ rest, res = ({ idp with top := base, idFree := rest }, none) ∧ ∀ s ∈ rest, Zeroed s

theorem Grown.step {base q : Slot α} {n layers : ℕ} {rest : List (Slot α)}
    {res : Idr α × Option (Slot α × ℕ)}
    (h : Grown L id n { idp with idFree := rest } q base (layers + 1) res)
    (hhld : ∀ j, holds (layers + 1) q j = holds layers p j) :
    Grown L id (n + 1) idp p base layers res := by
  rcases h with ⟨rest', p', layers', hlp, hz, ht, hle, hle', he, hr⟩ | hb
  · refine .inl ⟨rest', p', layers', hlp, hz, ht, by omega, by omega, ?_, fun j => ?_⟩
    · exact he.imp_right fun heq => by omega
    · rw [hr, hhld]
  · exact .inr hb

/-- **The loop that adds layers** keeps what the tree holds, or leaves it as it was. An empty tree
grows without a new layer. -/
theorem growLoop_spec (hL : LeafOk L) {layers : ℕ} {base : Slot α} (h : Wf L (layers - 1) p)
    (hp : 0 < layers) (hfe : ∀ s ∈ idp.idFree, Zeroed s) (hblt : p.count = 0 ∨ Built k p base)
    (n : ℕ) : Grown L id n idp p base layers (growLoop id n idp p k layers) := by
  induction n generalizing p idp k layers with
  | zero => exact .inl ⟨_, p, layers, rfl, hfe, h, le_rfl, le_rfl, .inr rfl, fun _ => rfl⟩
  | succ n ih =>
    have hsz := one_shiftLeft_layers layers
    rw [growLoop, hsz]
    by_cases hid : idrSize ^ layers ≤ id
    · rw [if_pos hid]
      by_cases hc : p.count = 0
      · rw [if_pos hc]
        obtain ⟨hwf, hc'⟩ := h.relabel hL hc
        rw [show layers - 1 + 1 = layers + 1 - 1 by omega] at hwf
        refine (ih hwf (Nat.succ_pos _) hfe (.inl hc')).step fun j => ?_
        rw [holds, hwf.cell_eq_null hL hc', holds, h.cell_eq_null hL hc, ite_self, ite_self]
      rw [if_neg hc]
      have hblt := hblt.resolve_left hc
      rcases getFromFreeList_cases hfe with hno | ⟨k', rest, hso, hrs⟩
      · obtain ⟨rest, htr, hrs⟩ := tearDown_spec hblt hfe
        refine .inr ⟨rest, ?_, hrs⟩
        rw [hno]
        simp [htr]
      rw [hso]
      obtain ⟨hwf, hhld⟩ := h.layerAbove k'
      rw [Nat.sub_add_cancel hp] at hwf hhld
      have hwf' : Wf L (layers + 1 - 1) (layerAbove (emptyLayer α k') p layers) := hwf
      obtain ⟨bm, heq, -⟩ := layerAbove_empty
      have hblt' : Built (k + 1) (layerAbove (emptyLayer α k') p layers) base :=
        ⟨bm, p, 1, layers, heq, hblt⟩
      refine (ih hwf' (Nat.succ_pos _) hrs (.inr hblt')).step fun j => ?_
      rw [show layers + 1 = layers - 1 + 2 by omega, hhld]
    · rw [if_neg hid]
      exact .inl ⟨_, p, layers, rfl, hfe, h, le_rfl, by omega, .inl (by omega), fun _ => rfl⟩

/-! ### The empty slot -/

def content (idp : Idr α) (j : ℕ) : Bool × Slot α := holds idp.layers idp.top j

/-- An idr between two calls: the tree may be empty. -/
structure Good (L : Leaf α) (idp : Idr α) : Prop where
  free : ∀ s ∈ idp.idFree, Zeroed s
  tree : idp.top = .null ∨ Valid L idp

theorem content_of_lt (hj : j < idrSize ^ idp.layers) : content idp j = cells idp j := if_pos hj

theorem content_congr {idp' : Idr α} (hlay : idp'.layers = idp.layers)
    (hcel : ∀ j, cells idp' j = cells idp j) : content idp' j = content idp j := by
  have h := hcel j
  rw [cells, cells, hlay] at h
  rw [content, content, holds, holds, hlay, h]

theorem Valid.good (h : Valid L idp) : Good L idp := ⟨h.free, .inr h⟩

theorem holds_null (layers j : ℕ) : holds layers (.null : Slot α) j = (false, .null) := by
  rw [holds, cell_null, ite_self]

theorem holds_empty (layers j k : ℕ) : holds layers (emptyLayer α k) j = (false, .null) := by
  rw [holds, cell_empty, ite_self]

/-- The top from which the tree is built up. -/
theorem buildUp_cases (hL : LeafOk L) (h : Good L idp) : buildUp idp = (none, 1, 1, idp) ∨
      ∃ p k layers rest, buildUp idp = (some p, k, layers, { idp with idFree := rest }) ∧
        (∀ s ∈ rest, Zeroed s) ∧ Wf L (layers - 1) p ∧ 0 < layers ∧ layers < maxLevel ∧
        Built k p idp.top ∧ (∀ j, holds layers p j = content idp j) ∧
        (idp.top.isNull = true ∨ layers = idp.layers) := by
  rcases h.tree with hnl | hv
  · have ht : idp.top.isNull = true := by rw [hnl, isNull_null]
    rw [buildUp, if_pos ht]
    rcases getFromFreeList_cases h.free with hno | ⟨k, rest, hso, hrs⟩
    · rw [hno]
      exact .inl rfl
    rw [hso]
    refine .inr ⟨emptyLayer α 0, 1, 1, rest, rfl, hrs, wf_empty hL, by decide, by decide,
      ⟨fun _ => false, .null, 0, 0, ?_, hnl.symm⟩, fun j => ?_, .inl ht⟩
    · rw [update_eq_self]
    · rw [holds_empty, content, hnl, holds_null]
  · have ht := hv.wf.isNull_eq
    rw [buildUp, ht]
    exact .inr ⟨idp.top, 0, idp.layers, idp.idFree, rfl, h.free, hv.wf, hv.pos, hv.le, rfl,
      fun _ => rfl, .inr rfl⟩

/-- What `idr_get_empty_slot` returns for an id. -/
def EmptySlotOk (L : Leaf α) (idp : Idr α) (id : ℕ) (idp' : Idr α) (pa : Path) : AllocResult → Prop
  | .found t => id ≤ t ∧ (content idp t).1 = false ∧
      (∀ j, id ≤ j → j < t → (content idp j).1 = true) ∧ Valid L idp' ∧
      t < idrSize ^ idp'.layers ∧ pa 0 = some (t / idrSize) ∧
      Present t (idp'.layers - 1) idp'.top
  | .noMem => True
  | _ => False

/-- How often the search may still go back to `build_up`. -/
def growsLeft (idp : Idr α) (id : ℕ) : ℕ :=
  let layers := if idp.top.isNull then 0 else idp.layers
  maxLevel - layers + if id < idrSize ^ layers then 1 else 0

theorem EmptySlotOk.mono {idp1 idp' : Idr α} {id' : ℕ} {r : AllocResult}
    (h : EmptySlotOk L idp1 id' idp' pa r) (hsm : ∀ j, content idp1 j = content idp j)
    (hid : id ≤ id') (htkn : ∀ j, id ≤ j → j < id' → (content idp j).1 = true) :
    EmptySlotOk L idp id idp' pa r := by
  cases r with
  | found t =>
    obtain ⟨hle, hfe, ha, hrs⟩ := h
    rw [hsm] at hfe
    refine ⟨hid.trans hle, hfe, fun j hj hjt => ?_, hrs⟩
    rcases lt_or_ge j id' with hlt | hge
    · exact htkn j hj hlt
    rw [← hsm]
    exact ha j hge hjt
  | noMem => trivial
  | needToGrow t => exact h
  | noMoreSpace => exact h

theorem growsLeft_lt {idp' : Idr α} {t : ℕ} (h : Valid L idp') (ht : t = idrSize ^ idp'.layers)
    (hid : id < idrSize ^ idp'.layers) (hlay : idp.top.isNull = true ∨ idp.layers ≤ idp'.layers) :
    growsLeft idp' t < growsLeft idp id := by
  have hm := h.le
  have hlf : growsLeft idp' t = maxLevel - idp'.layers := by
    rw [growsLeft, h.wf.isNull_eq]
    simp [ht]
  have hgen {layers : ℕ} (hle : layers ≤ idp'.layers) :
      maxLevel - idp'.layers < maxLevel - layers + if id < idrSize ^ layers then 1 else 0 := by
    by_cases hlt : id < idrSize ^ layers
    · rw [if_pos hlt]
      omega
    have hne : layers ≠ idp'.layers := fun heq => hlt (heq ▸ hid)
    omega
  rw [hlf, growsLeft]
  by_cases hnl : idp.top.isNull = true
  · rw [hnl]
    exact hgen (Nat.zero_le _)
  rw [Bool.eq_false_of_not_eq_true hnl]
  exact hgen (hlay.resolve_left hnl)

/-- One turn of `idr_get_empty_slot`: the free list is empty, or the search goes on in a tree that
is as high as the id wants it, if that is not too high. -/
theorem idrGetEmptySlotLoop_succ (hL : LeafOk L) (h : Good L idp) (pa : Path) (id fuel : ℕ) :
    (∃ idp', idrGetEmptySlotLoop (fuel + 1) idp pa id = some (idp', pa, .noMem) ∧ Good L idp' ∧
      ∀ j, content idp' j = content idp j) ∨
    ∃ idp', idrGetEmptySlotLoop (fuel + 1) idp pa id = (match subAlloc idp' pa id with
        | some (idp, pa, .needToGrow id) => idrGetEmptySlotLoop fuel idp pa id
        | r => r) ∧
      Valid L idp' ∧ (∀ j, content idp' j = content idp j) ∧
      (id < idrSize ^ idp'.layers ∨ idp'.layers = 6) ∧
      (idp.top.isNull = true ∨ idp.layers ≤ idp'.layers) := by
  have hseven : maxLevel = 7 := rfl
  rw [idrGetEmptySlotLoop]
  rcases buildUp_cases hL h with hno | ⟨p, k, layers, rest, hup, hrest, hwf, hpos, hle, hbuilt,
    hholds, hlayers⟩
  · rw [hno]
    exact .inl ⟨idp, rfl, h, fun _ => rfl⟩
  rw [hup]
  have hrest' : ∀ s ∈ ({ idp with idFree := rest } : Idr α).idFree, Zeroed s := hrest
  rcases growLoop_spec hL hwf hpos hrest' (.inr hbuilt) (maxLevel - 1 - layers) with
    ⟨rest1, p1, layers1, hgrow, hrest1, hwf1, hle1, hle2, henough, hsame⟩ | ⟨rest1, hgrow, hrest1⟩
  · have hbound : 0 < layers1 ∧ layers1 < maxLevel := by omega
    have hsix : layers1 = layers + (maxLevel - 1 - layers) → layers1 = 6 := by omega
    refine .inr ⟨{ top := p1, idFree := rest1, layers := layers1 }, ?_,
      ⟨hwf1, hbound.1, hbound.2, hrest1⟩, fun j => (hsame j).trans (hholds j),
      henough.imp_right hsix, hlayers.imp_right fun heq => heq.symm.trans_le hle1⟩
    dsimp only
    exact hgrow ▸ rfl
  · refine .inl ⟨{ idp with idFree := rest1 }, ?_, ⟨hrest1, ?_⟩, fun _ => rfl⟩
    · simp only [hgrow]
    exact h.tree.imp_right fun hv => ⟨hv.wf, hv.pos, hv.le, hrest1⟩

/-- **The search goes on to the first id that is not taken**, if there is one that is not too
large. -/
theorem idrGetEmptySlotLoop_spec (hL : LeafOk L) {fuel j0 : ℕ} (h : Good L idp)
    (hfe : (content idp j0).1 = false) (hle : id ≤ j0) (hlt : j0 < 2 ^ 30)
    (hfl : growsLeft idp id < fuel) :
    ∃ idp' pa' r, idrGetEmptySlotLoop fuel idp pa id = some (idp', pa', r) ∧ Good L idp' ∧
      (∀ j, content idp' j = content idp j) ∧ EmptySlotOk L idp id idp' pa' r := by
  induction fuel generalizing idp pa id with
  | zero => omega
  | succ fuel ih =>
    rcases idrGetEmptySlotLoop_succ hL h pa id fuel with
      ⟨idp1, hno, hgood, hsame⟩ | ⟨idp2, hgo, hv2, hsm2, hid2, hlay⟩
    · exact ⟨idp1, pa, .noMem, hno, hgood, hsame, trivial⟩
    rw [hgo]
    have hid2 : id < idrSize ^ idp2.layers := by
      refine hid2.elim (fun hid => hid) fun hsix => ?_
      rw [hsix]
      exact lt_of_le_of_lt hle hlt
    obtain ⟨idp', pa', r, hsub, hv', hlay', hcel', hr⟩ :=
      subAlloc_spec hL hv2 hid2
    have hsm' (j : ℕ) : content idp' j = content idp j :=
      (content_congr hlay' hcel').trans (hsm2 j)
    have hce {j : ℕ} (hj : j < idrSize ^ idp2.layers) : cells idp2 j = content idp j :=
      (content_of_lt hj).symm.trans (hsm2 j)
    rw [hsub]
    cases r with
    | found t =>
      obtain ⟨ht, htlt, htf, htl, hpa, hpr⟩ := hr
      rw [hce htlt] at htf
      rw [← hlay'] at htlt hpr
      refine ⟨idp', pa', _, rfl, hv'.good, hsm', ht, htf, fun j hj hjt => ?_, hv', htlt, hpa,
        hpr⟩
      rw [← hce (by rw [← hlay']; omega)]
      exact htl j hj hjt
    | noMem => exact ⟨idp', pa', _, rfl, hv'.good, hsm', trivial⟩
    | noMoreSpace => exact hr.elim
    | needToGrow t =>
      obtain ⟨ht, htl⟩ := hr
      have htkn (j : ℕ) (hj : id ≤ j) (hjt : j < t) : (content idp j).1 = true := by
        rw [← hce (by omega)]
        exact htl j hj hjt
      have htj : t ≤ j0 := by
        by_contra hgt
        rw [htkn j0 hle (by omega)] at hfe
        cases hfe
      have hfe' : (content idp' j0).1 = false := by
        rw [hsm']
        exact hfe
      have hls : growsLeft idp' t < fuel := by
        rw [← hlay'] at ht hid2
        refine lt_of_lt_of_le (growsLeft_lt hv' ht hid2 (hlay.imp_right ?_)) (by omega)
        omega
      obtain ⟨idp'', pa'', r', hlp, hgood', hsm'', hr'⟩ :=
        ih hv'.good hfe' htj hls
      exact ⟨idp'', pa'', r', hlp, hgood', fun j => (hsm'' j).trans (hsm' j),
        hr'.mono hsm' (by omega) htkn⟩

/-- **`idr_get_empty_slot`.** -/
theorem idrGetEmptySlot_spec (hL : LeafOk L) {j0 : ℕ} (h : Good L idp)
    (hfe : (content idp j0).1 = false) (hle : id ≤ j0) (hlt : j0 < 2 ^ 30) :
    ∃ idp' pa r, idrGetEmptySlot idp id = some (idp', pa, r) ∧ Good L idp' ∧
      (∀ j, content idp' j = content idp j) ∧ EmptySlotOk L idp id idp' pa r := by
  refine idrGetEmptySlotLoop_spec hL h hfe hle hlt ?_
  have ho (n : ℕ) : (if id < idrSize ^ n then 1 else 0) ≤ 1 := by split <;> omega
  have hm : maxLevel - (if idp.top.isNull = true then 0 else idp.layers) ≤ maxLevel :=
    Nat.sub_le _ _
  exact lt_of_le_of_lt (add_le_add hm (ho _)) (by decide)

end NestLinux.IdAlloc
