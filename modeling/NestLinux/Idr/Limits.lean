import NestLinux.Idr.Run

/-!
# Ids beyond the tree

`sub_remove` and `sub_alloc` look only at the digits of an id that the tree has levels for, and the
tree stops at six levels. So `idr_remove` of an id that is too large for the tree removes the id
with the same low digits, and an id of more than 30 bits is given out but not found again.
-/

namespace NestLinux.IdAlloc

open Function Lib

variable {α : Type*} {L : Leaf α} {l q id id' start n k layers fuel : ℕ} {p p' : Slot α}
  {idp idp' : Idr α} {m : ℕ → Option (Option α)} {pa pa' : Path} {ptr : Option α} {r : AllocResult}

/-! ### Removal of an id that is not in use -/

/-- `sub_remove` reads the digits of the id up to the level of the tree. -/
theorem subRemove_congr (h : SameId l id id') : subRemove id l p = subRemove id' l p := by
  induction l generalizing p with
  | zero => rw [subRemove, subRemove, sameId_zero.1 h]
  | succ l ih =>
    obtain ⟨hdig, hsm⟩ := sameId_succ.1 h
    rw [subRemove, subRemove, hdig, ih hsm]

/-- Where the bit of the id is clear, `sub_remove` only clears bits above it. -/
theorem subRemove_clear (h : p = .null ∨ Wf L l p) (hb : (cell l p id).1 = false) :
    ∃ p', subRemove id l p = (p', false) ∧ p'.isNull = p.isNull ∧ (Wf L l p → Wf L l p') ∧
      ∀ j, cell l p' j = cell l p j := by
  induction l generalizing p with
  | zero =>
    have hc : p.bitmap (digit idrSize 0 id) = false := hb
    exact ⟨p, by rw [subRemove, hc]; rfl, rfl, fun hwf => hwf, fun _ => rfl⟩
  | succ l ih =>
    rcases h with rfl | hwf
    · obtain ⟨p', hsub, -⟩ := ih (.inl rfl) (by rw [cell_null])
      simp [subRemove, Slot.setBit, Slot.ary, hsub, Slot.put]
    obtain ⟨bm, ary, n, rfl⟩ := hwf.exists_layer
    have hlt := digit_idrSize_lt (l + 1) id
    have hsl := hwf.2.2 _ hlt
    obtain ⟨c, hsub, hnl, hkp, hce⟩ := ih (hsl.imp And.left And.left) hb
    have hsp : subRemove id (l + 1) (.layer bm ary n (l + 1)) =
        (.layer (update bm (digit idrSize (l + 1) id) false)
          (update ary (digit idrSize (l + 1) id) c) n (l + 1), false) := by
      rw [subRemove_succ rfl hsub]
      rfl
    refine ⟨_, hsp, rfl, fun _ => ⟨rfl, ?_, fun i hi => ?_⟩, fun j => ?_⟩
    · rw [inUse_update hlt hnl, hwf.2.1]
    · by_cases hi' : i = digit idrSize (l + 1) id
      · subst hi'
        rw [update_self, update_self]
        rcases hsl with ⟨hgn, -⟩ | ⟨hch, -⟩
        · rw [hgn] at hnl
          exact .inl ⟨eq_null_of_isNull hnl, rfl⟩
        · exact .inr ⟨hkp hch, by simp⟩
      · rw [update_of_ne hi', update_of_ne hi']
        exact hwf.2.2 i hi
    · rw [cell_update]
      by_cases hj : digit idrSize (l + 1) j = digit idrSize (l + 1) id
      · rw [if_pos hj, hce, cell_succ, Slot.ary, hj]
      rw [if_neg hj]
      rfl

/-- `idr_remove` keeps the map where the bit of the id is clear. -/
theorem Represents.remove_clear (h : Represents idp m) (hid : id < 2 ^ 31)
    (hb : (cell (idp.layers - 1) idp.top id).1 = false) : Represents (idrRemove idp id) m := by
  obtain ⟨p', hsub, hnl, hwf, hce⟩ := subRemove_clear (h.good.tree.imp_right Valid.wf) hb
  have hbf : Good PtrLeaf { idp with top := p', layers := idp.layers } := by
    refine ⟨h.good.free, h.good.tree.imp (fun ht => ?_) fun hv => ?_⟩
    · rw [ht] at hnl
      exact eq_null_of_isNull hnl
    · exact ⟨hwf hv.wf, hv.pos, hv.le, hv.free⟩
  obtain ⟨hgood, hcontent⟩ := hbf.finish
  rw [idrRemove, show id % maxIdBit = id from Nat.mod_eq_of_lt hid, hsub]
  refine ⟨hgood, fun j => (hcontent j).trans ?_⟩
  rw [← h.content, IdAlloc.content, IdAlloc.content, holds, holds, hce]

/-- `idr_remove` of any id clears the slot of the digits that the tree has levels for. -/
theorem Represents.remove_any (h : Represents idp m) (hid : id < 2 ^ 31) :
    Represents (idrRemove idp id) (update m (id % idrSize ^ idp.layers) none) := by
  rcases h.good.tree with hnull | hvalid
  · have hnone (j : ℕ) : m j = none :=
      h.eq_none_iff.1 (by rw [IdAlloc.content, hnull, holds_null])
    rw [← hnone (id % idrSize ^ idp.layers), update_eq_self]
    exact h.remove_clear hid (by rw [hnull, cell_null])
  have hlt : id % idrSize ^ idp.layers < idrSize ^ idp.layers :=
    Nat.mod_lt _ (Nat.pow_pos (by decide))
  have hsmall : id % idrSize ^ idp.layers < 2 ^ 31 := (Nat.mod_le _ _).trans_lt hid
  have halias : idrRemove idp id = idrRemove idp (id % idrSize ^ idp.layers) := by
    have hsame : SameId (idp.layers - 1) id (id % idrSize ^ idp.layers) := by
      rw [SameId, Nat.sub_add_cancel hvalid.pos, Nat.mod_mod]
    rw [idrRemove, idrRemove, show id % maxIdBit = id from Nat.mod_eq_of_lt hid,
      show _ % maxIdBit = _ from Nat.mod_eq_of_lt hsmall, subRemove_congr hsame]
  rw [halias]
  generalize id % idrSize ^ idp.layers = a at *
  by_cases ha : m a = none
  · have hbit := h.eq_none_iff.2 ha
    rw [content_of_lt hlt] at hbit
    rw [← ha, update_eq_self]
    exact h.remove_clear hsmall hbit
  · exact h.remove ha

/-! ### Ids of more than 30 bits -/

/-- The search has found an id, in the slot of its low bits. -/
structure FoundSlot (idp : Idr α) (pa : Path) (t : ℕ) : Prop where
  lt : t < maxIdBit
  slot_lt : t % 2 ^ 30 < idrSize ^ idp.layers
  free : (cells idp (t % 2 ^ 30)).1 = false
  path : pa 0 = some (t % 2 ^ 30 / idrSize)
  present : Present (t % 2 ^ 30) (idp.layers - 1) idp.top

/-- What the search returns, whatever the id. -/
def AnySlotOk (idp : Idr α) (pa : Path) : AllocResult → Prop
  | .found t => FoundSlot idp pa t
  | .needToGrow t => t < maxIdBit
  | _ => True

/-- Whatever the search returns, the cells are the same. -/
def Keeps (L : Leaf α) (idp : Idr α) (res : Option (Idr α × Path × AllocResult)) : Prop :=
  ∀ idp' pa r, res = some (idp', pa, r) → Valid L idp' ∧ idp'.layers = idp.layers ∧
    (∀ j, cells idp' j = cells idp j) ∧ AnySlotOk idp' pa r

theorem Valid.keeps (h : Valid L idp) (hr : AnySlotOk idp pa r) :
    Keeps L idp (some (idp, pa, r)) := by
  rintro _ _ _ ⟨⟩
  exact ⟨h, rfl, fun _ => rfl, hr⟩

theorem Keeps.mono {idp1 : Idr α} {res : Option (Idr α × Path × AllocResult)}
    (h : Keeps L idp1 res) (hlay : idp1.layers = idp.layers)
    (hcel : ∀ j, cells idp1 j = cells idp j) : Keeps L idp res := by
  intro idp' pa r hr
  obtain ⟨hv, hlay', hcel', hfound⟩ := h idp' pa r hr
  exact ⟨hv, hlay'.trans hlay, fun j => (hcel' j).trans (hcel j), hfound⟩

/-- **The loop of `sub_alloc` for an id beyond the tree** goes by its low digits. Where a layer has
nothing left it returns, or the id becomes negative and it starts once more from the top. -/
theorem subAllocLoop_beyond (hL : LeafOk L) {c a : ℕ} (hw : Walk L idp pa q l a)
    (hlay : idp.layers = 6) (htop : pa 6 = none) (hc : c = 1 ∨ l = 5 ∧ 1 ≤ c) :
    Keeps L idp (subAllocLoop fuel idp pa q l (c * 2 ^ 30 + a)) := by
  induction fuel generalizing idp pa q l c a with
  | zero => nofun
  | succ fuel ih =>
    have hmax : maxIdBit = 2 * 2 ^ 30 + 0 := rfl
    have hN : idrSize ^ idp.layers = 2 ^ 30 := by rw [hlay]; rfl
    have ha : a < 2 ^ 30 := hN ▸ hw.id_lt
    have hl : l < 6 := hlay ▸ hw.level
    have hdigit (m : ℕ) : digit idrSize l (c * 2 ^ 30 + a) = digit idrSize l a ∧
        setDigit idrSize l (c * 2 ^ 30 + a) m = c * 2 ^ 30 + setDigit idrSize l a m :=
      setDigit_mul_add (by decide) hl c
    rcases nextZero_cases (idp.layerAt l q).bitmap idrSize (digit idrSize l (c * 2 ^ 30 + a)) with
      he | ⟨hm, hle, hb⟩
    · rw [subAllocLoop_full he]
      split
      · rename_i hgr
        exact hw.valid.keeps hgr.2
      split
      · nofun
      rename_i p hp
      have hl5 : l ≠ 5 := by
        rintro rfl
        simp [htop] at hp
      obtain rfl : c = 1 := hc.resolve_right fun h => hl5 h.1
      have hlt : 1 * 2 ^ 30 + a < maxIdBit := by omega
      have hdvd {k : ℕ} (hk : k ≤ 6) : idrSize ^ k ∣ maxIdBit :=
        (pow_dvd_pow _ hk).trans (by decide : idrSize ^ 6 ∣ maxIdBit)
      have hnext : nextBlock idrSize (l + 1) (1 * 2 ^ 30 + a) = maxIdBit := by
        have hge := lt_nextBlock (by decide : 0 < idrSize) (l + 1) (1 * 2 ^ 30 + a)
        have hle := nextBlock_le_of_dvd (by decide) (hdvd (k := l + 1) (by omega)) hlt
        omega
      rw [hnext, if_neg (Nat.div_lt_div_of_lt_of_dvd (hdvd (by omega)) hlt).ne, hmax]
      exact ih (hw.valid.walk (Nat.pow_pos (by decide)) pa) hlay (by rw [hlay, update_self])
        (.inr ⟨by rw [hlay], by decide⟩)
    generalize hfi : nextZero (idp.layerAt l q).bitmap idrSize _ = m at *
    rw [(hdigit 0).1] at hle
    have hadv : advance l (c * 2 ^ 30 + a) m = c * 2 ^ 30 + advance l a m := by
      rw [advance, advance, (hdigit 0).1, (hdigit m).2]
      split <;> rfl
    obtain ⟨-, hsm, hdig, -⟩ := advance_spec hm hle
    have hlt := hw.advance_lt hm hle
    rw [subAllocLoop_space hm hfi]
    split
    · exact hw.valid.keeps trivial
    rename_i hmx
    cases l with
    | zero =>
      obtain ⟨hname, hfree, hpr⟩ := hw.found hm hle hb
      have hslot : advance 0 (c * 2 ^ 30 + a) m % 2 ^ 30 = advance 0 a m := by omega
      refine hw.valid.keeps ⟨not_le.1 hmx, ?_, ?_, ?_, ?_⟩ <;> rw [hslot]
      · exact hlt
      · exact hfree
      · rw [update_self, hname]
      · exact hpr
    | succ l =>
      have hc : c = 1 := by omega
      have htop' : update pa (l + 1) (some q) 6 = none := by rw [update_of_ne (by omega), htop]
      simp only [hadv]
      split
      · rename_i hnull
        rcases getFromFreeList_cases hw.valid.free with hno | ⟨k, rest, hso, hrs⟩
        · rw [hno]
          exact hw.valid.keeps trivial
        rw [hso]
        obtain ⟨hw', hlay', hch, hcel'⟩ := hw.attach hL hm hnull hrs rfl
        exact (ih (hw'.down hm hlt hsm hdig hch) (hlay'.trans hlay) htop'
          (.inl hc)).mono hlay' hcel'
      · rename_i hnull
        exact ih (hw.down hm hlt hsm hdig (by simpa using hnull)) hlay htop' (.inl hc)

theorem Valid.subAlloc (h : Valid L idp) (hL : LeafOk L) (pa : Path) (hid : id < maxIdBit)
    (hhigh : id < idrSize ^ idp.layers ∨ idp.layers = 6) : Keeps L idp (subAlloc idp pa id) := by
  by_cases hlt : id < idrSize ^ idp.layers
  · obtain ⟨idp1, pa1, r1, hr, hv, hlay, hcel, hok⟩ :
      SubAllocs L idp id (IdAlloc.subAlloc idp pa id) :=
      subAlloc_spec hL h hlt
    rw [hr]
    rintro _ _ _ ⟨⟩
    refine ⟨hv, hlay, hcel, ?_⟩
    have hle := pow_layers_le h
    cases r1 with
    | found t =>
      obtain ⟨-, ht, hfree, -, hpath, hpr⟩ := hok
      have hmod : t % 2 ^ 30 = t := Nat.mod_eq_of_lt (ht.trans_le hle)
      refine ⟨(ht.trans_le hle).trans (by decide), ?_, ?_, ?_, ?_⟩ <;> rw [hmod]
      · rwa [hlay]
      · rwa [hcel]
      · exact hpath
      · rwa [hlay]
    | needToGrow t => exact hok.1 ▸ hle.trans_lt (by decide)
    | noMem => trivial
    | noMoreSpace => trivial
  · have hlay := hhigh.resolve_left hlt
    have hpow : idrSize ^ idp.layers = 2 ^ 30 := by rw [hlay]; rfl
    have hmax : maxIdBit = 2 * 2 ^ 30 := rfl
    obtain ⟨a, rfl⟩ := Nat.exists_eq_add_of_le (show 1 * 2 ^ 30 ≤ id by omega)
    exact subAllocLoop_beyond hL (h.walk (by omega) pa) hlay (by rw [hlay, update_self]) (.inl rfl)

/-- **`idr_get_empty_slot` for any id** changes nothing that the tree holds. -/
theorem idrGetEmptySlotLoop_keeps (hL : LeafOk L) (h : Good L idp) (hid : id < maxIdBit)
    (hr : idrGetEmptySlotLoop fuel idp pa id = some (idp', pa', r)) :
    Good L idp' ∧ (∀ j, content idp' j = content idp j) ∧
      ∀ t, r = .found t → Valid L idp' ∧ FoundSlot idp' pa' t := by
  induction fuel generalizing idp pa id with
  | zero => exact absurd hr (by simp [idrGetEmptySlotLoop])
  | succ fuel ih =>
    rcases idrGetEmptySlotLoop_succ hL h pa id fuel with
      ⟨idp1, hno, hgood, hsame⟩ | ⟨idp1, hgo, hv, hsame, hhigh, -⟩
    · cases hno.symm.trans hr
      exact ⟨hgood, hsame, by simp⟩
    rw [hgo] at hr
    have hkeeps := hv.subAlloc hL pa hid hhigh
    split at hr
    · rename_i idp2 pa2 t hsub
      obtain ⟨hv2, hlay, hcel, ht⟩ := hkeeps _ _ _ hsub
      obtain ⟨hgood, hsame2, hfound⟩ := ih hv2.good ht hr
      exact ⟨hgood, fun j => (hsame2 j).trans ((content_congr hlay hcel).trans (hsame j)), hfound⟩
    · obtain ⟨hv2, hlay, hcel, hok⟩ := hkeeps _ _ _ hr
      refine ⟨hv2.good, fun j => (content_congr hlay hcel).trans (hsame j), ?_⟩
      rintro t rfl
      exact ⟨hv2, hok⟩

/-- `idr_mark_full` reads the digits of the id up to the level of the tree. -/
theorem markFull_congr (h : SameId l id id') : markFull id l p = markFull id' l p := by
  induction l generalizing p with
  | zero => rw [markFull, markFull, sameId_zero.1 h]
  | succ l ih =>
    obtain ⟨hdig, hsm⟩ := sameId_succ.1 h
    rw [markFull, markFull, hdig, ih hsm]

theorem idrMarkFull_mod (hpos : 0 < idp.layers) (hle : idp.layers < maxLevel) (id : ℕ) :
    idrMarkFull idp (id % 2 ^ 30) = idrMarkFull idp id := by
  have hdvd := pow_dvd_pow idrSize (Nat.le_of_lt_succ hle)
  have hsame : SameId (idp.layers - 1) (id % 2 ^ 30) id := by
    rw [SameId, Nat.sub_add_cancel hpos]
    exact (Nat.mod_mod_of_dvd id (hdvd.trans (by decide))).symm
  rw [idrMarkFull, idrMarkFull, markFull_congr hsame]

/-- **`idr_get_new_above` for any id** stores the pointer in the slot of the low bits of the id it
gives out, and changes nothing else. -/
theorem Represents.getNewAbove_any (h : Represents idp m) (hstart : start < 2 ^ 31)
    {r : GetResult} (hget : idrGetNewAbove idp ptr start = some (idp', r)) :
    (∀ id, r = .ok id → id < 2 ^ 31 ∧ Represents idp' (update m (id % 2 ^ 30) (some ptr))) ∧
      ((∀ id, r ≠ .ok id) → Represents idp' m) := by
  rw [idrGetNewAbove] at hget
  split at hget
  · cases hget
  all_goals
    rename_i hslot
    obtain ⟨hgood, hsame, hfound⟩ := idrGetEmptySlotLoop_keeps leafOk_ptrLeaf h.good hstart hslot
    have hrep : Represents _ m := ⟨hgood, fun j => (hsame j).trans (h.content j)⟩
  · rename_i idp1 pa t
    obtain ⟨hv, ht, hlt, hfree, hpath, hpr⟩ := hfound t rfl
    rw [← content_of_lt hlt] at hfree
    have htake := hrep.take hv hlt hpr (hrep.eq_none_iff.1 hfree) ptr
    rw [hpath] at hget
    cases hget
    refine ⟨?_, fun hne => absurd rfl (hne t)⟩
    rintro _ ⟨⟩
    have hdigit : t % 2 ^ 30 % idrSize = t % idrSize := Nat.mod_mod_of_dvd t (by decide)
    rw [hdigit, idrMarkFull_mod] at htake
    · exact ⟨ht, htake⟩
    · exact hv.pos
    · exact hv.le
  · rename_i r1 _
    cases hget
    refine ⟨fun id hid => ?_, fun _ => hrep⟩
    cases r1 <;> cases hid

/-! ### Every sequence of calls -/

/-- The idrs that any calls from `idr_init` lead to, and for each slot of the tree the id that was
given out for it and the pointer stored last. -/
inductive Reach : Idr α → (ℕ → Option (ℕ × Option α)) → Prop
  | init : Reach (idrInit α) fun _ => none
  | preGet {idp : Idr α} {σ : ℕ → Option (ℕ × Option α)} (avail : ℕ) (h : Reach idp σ) :
      Reach (idrPreGet idp avail).2 σ
  | getNewAbove {idp idp' : Idr α} {σ : ℕ → Option (ℕ × Option α)} {id : ℕ} (ptr : Option α)
      (start : ℕ) (h : Reach idp σ) (hstart : start < 2 ^ 31)
      (hget : idrGetNewAbove idp ptr start = some (idp', .ok id)) :
      Reach idp' (update σ (id % 2 ^ 30) (some (id, ptr)))
  | getFails {idp idp' : Idr α} {σ : ℕ → Option (ℕ × Option α)} {r : GetResult} (ptr : Option α)
      (start : ℕ) (h : Reach idp σ) (hstart : start < 2 ^ 31)
      (hget : idrGetNewAbove idp ptr start = some (idp', r)) (hr : ∀ id, r ≠ .ok id) : Reach idp' σ
  | remove {idp : Idr α} {σ : ℕ → Option (ℕ × Option α)} (id : ℕ) (h : Reach idp σ)
      (hid : id < 2 ^ 31) : Reach (idrRemove idp id) (update σ (id % idrSize ^ idp.layers) none)
  | replace {idp : Idr α} {σ : ℕ → Option (ℕ × Option α)} (ptr : Option α) (id : ℕ)
      (h : Reach idp σ) : Reach (idrReplace idp ptr id).1
        (update σ (id % maxIdBit) ((σ (id % maxIdBit)).map fun x => (x.1, ptr)))

variable {σ : ℕ → Option (ℕ × Option α)}

theorem afterReplace_snd (σ : ℕ → Option (ℕ × Option α)) (ptr : Option α) (a : ℕ) :
    afterReplace (Option.map Prod.snd ∘ σ) ptr a =
      Option.map Prod.snd ∘ update σ a ((σ a).map fun x => (x.1, ptr)) := by
  rw [afterReplace, comp_update]
  cases ha : σ a with
  | none =>
    rw [if_pos (by simp [ha])]
    exact (update_eq_self_iff.2 (by simp [ha])).symm
  | some x =>
    rw [if_neg (by simp [ha])]
    rfl

theorem Reach.represents (h : Reach idp σ) : Represents idp (Option.map Prod.snd ∘ σ) := by
  induction h with
  | init => exact Run.init.represents
  | preGet avail h ih =>
    obtain ⟨hgood, hsame⟩ := idrPreGetLoop_spec ih.good _ avail
    exact ⟨hgood, fun id => (hsame id).trans (ih.content id)⟩
  | getNewAbove ptr start h hstart hget ih =>
    rw [comp_update]
    exact ((ih.getNewAbove_any hstart hget).1 _ rfl).2
  | getFails ptr start h hstart hget hr ih => exact (ih.getNewAbove_any hstart hget).2 hr
  | remove id h hid ih =>
    rw [comp_update]
    exact ih.remove_any hid
  | replace ptr id h ih =>
    rw [← afterReplace_snd]
    exact ih.replace ptr id

/-- An id that was given out is in the slot of its low bits. -/
theorem Reach.slot (h : Reach idp σ) (a : ℕ) (x : ℕ × Option α) (hx : σ a = some x) :
    x.1 % 2 ^ 30 = a ∧ x.1 < 2 ^ 31 := by
  induction h generalizing a x with
  | init => cases hx
  | preGet _ _ ih | getFails _ _ _ _ _ _ ih => exact ih a x hx
  | @getNewAbove idp idp' σ id ptr start h hstart hget ih =>
    by_cases ha : a = id % 2 ^ 30
    · subst ha
      rw [update_self] at hx
      cases hx
      exact ⟨rfl, ((h.represents.getNewAbove_any hstart hget).1 _ rfl).1⟩
    · rw [update_of_ne ha] at hx
      exact ih a x hx
  | @remove idp σ id h hid ih =>
    by_cases ha : a = id % idrSize ^ idp.layers
    · rw [ha, update_self] at hx
      cases hx
    · rw [update_of_ne ha] at hx
      exact ih a x hx
  | @replace idp σ ptr id h ih =>
    by_cases ha : a = id % maxIdBit
    · rw [← ha, update_self] at hx
      obtain ⟨y, hy, rfl⟩ := Option.map_eq_some_iff.1 hx
      exact ih a y hy
    · rw [update_of_ne ha] at hx
      exact ih a x hx

/-- **`idr_remove` of any id** changes no mapping if and only if no pointer is found for the id with
the digits that the tree has levels for. An id that is not in use may be too large for the tree, and
then that is another id. -/
theorem idrRemove_stale_iff (h : Reach idp σ) (hid : id < 2 ^ 31) :
    (∀ j < 2 ^ 31, idrFind (idrRemove idp id) j = idrFind idp j) ↔
      idrFind idp (id % idrSize ^ idp.layers) = some none := by
  have hrep := h.represents
  have hrep' := hrep.remove_any hid
  have hsmall : id % idrSize ^ idp.layers < 2 ^ 31 := (Nat.mod_le _ _).trans_lt hid
  refine ⟨fun hsame => ?_, fun hnone j hj => ?_⟩
  · rw [← hsame _ hsmall, hrep'.find hsmall, update_self]
    rfl
  by_cases hja : j = id % idrSize ^ idp.layers
  · rw [hja, hnone, hrep'.find hsmall, update_self]
    rfl
  · rw [hrep'.find hj, hrep.find hj, update_of_ne hja]

/-- Id 5 is given out, and the next call gives out id 6. -/
theorem getNewAbove_five_six : ∃ idp idp' : Idr ℕ,
    idrGetNewAbove (idrPreGet (idrInit ℕ) 14).2 (some 7) 5 = some (idp, .ok 5) ∧
      idrFind idp (6 % idrSize ^ idp.layers) = some none ∧
      idrGetNewAbove idp (some 8) 5 = some (idp', .ok 6) := by
  have hres : ((idrGetNewAbove (idrPreGet (idrInit ℕ) 14).2 (some 7) 5).bind fun r =>
      (idrGetNewAbove r.1 (some 8) 5).map fun r' =>
        (r.2, idrFind r.1 (6 % idrSize ^ r.1.layers), r'.2)) = some (.ok 5, some none, .ok 6) := by
    decide +kernel
  obtain ⟨⟨idp, r⟩, hget, hres⟩ := Option.bind_eq_some_iff.1 hres
  obtain ⟨⟨idp', r'⟩, hget', heq⟩ := Option.map_eq_some_iff.1 hres
  simp only [Prod.mk.injEq] at heq
  obtain ⟨rfl, hfind, rfl⟩ := heq
  exact ⟨idp, idp', hget, hfind, hget'⟩

/-- `idr_remove` of id 6, while id 5 is in use. -/
theorem idrRemove_stale_six : ∃ idp : Idr ℕ,
    idrGetNewAbove (idrPreGet (idrInit ℕ) 14).2 (some 7) 5 = some (idp, .ok 5) ∧
      ∀ j < 2 ^ 31, idrFind (idrRemove idp 6) j = idrFind idp j := by
  obtain ⟨idp, -, hget, hfind, -⟩ := getNewAbove_five_six
  have hreach := (Reach.init.preGet 14).getNewAbove (some 7) 5 (by decide) hget
  exact ⟨idp, hget, (idrRemove_stale_iff hreach (by decide)).2 hfind⟩

/-- The tree has one layer, and id 5 is in use: `idr_remove` of id 37 removes it. -/
theorem idrRemove_alias :
    (idrGetNewAbove (idrPreGet (idrInit ℕ) 2).2 (some 7) 5).map (fun r =>
      (r.2, idrFind r.1 37, idrFind r.1 5, idrFind (idrRemove r.1 37) 5)) =
        some (.ok 5, some none, some (some 7), some none) := by
  decide +kernel

/-- An id that was given out, and the pointer stored last for it. -/
def InUse (σ : ℕ → Option (ℕ × Option α)) (id : ℕ) (ptr : Option α) : Prop :=
  σ (id % 2 ^ 30) = some (id, ptr)

/-- What is said of a call of `idr_get_new_above` that returns 0; `σ` is from before it. -/
structure Documented (σ : ℕ → Option (ℕ × Option α)) (ptr : Option α) (start : ℕ) (idp' : Idr α)
    (id : ℕ) : Prop where
  start_le : start ≤ id
  le : id ≤ 0x7fffffff
  fresh : ∀ p, ¬ InUse σ id p
  find : idrFind idp' id = some ptr
  keeps : ∀ j p, InUse σ j p → idrFind idp' j = some p

/-- No id of more than 30 bits is in use, and from the given one on an id of 30 bits is not. -/
def Room (σ : ℕ → Option (ℕ × Option α)) (start : ℕ) : Prop :=
  (∀ j p, InUse σ j p → j < 2 ^ 30) ∧ ∃ j, start ≤ j ∧ j < 2 ^ 30 ∧ ∀ p, ¬ InUse σ j p

/-- **`idr_get_new_above`** keeps its promise if no id of more than 30 bits is in use and an id of
30 bits is left from the given one on; where the pointers are not null, only then. -/
theorem idrGetNewAbove_documented (h : Reach idp σ) (hstart : start ≤ 0x7fffffff)
    (hget : idrGetNewAbove idp ptr start = some (idp', .ok id)) :
    (Room σ start → Documented σ ptr start idp' id) ∧
      (ptr ≠ none → (∀ j, ¬ InUse σ j none) → Documented σ ptr start idp' id → Room σ start) := by
  have hrep := h.represents
  refine ⟨fun ⟨hlow, j, hj, hlt, hfree⟩ => ?_, fun hptr hnull hdoc => ?_⟩
  · have hslot {a : ℕ} {x : ℕ × Option α} (hx : σ a = some x) : x.1 = a := by
      obtain ⟨hmod, -⟩ := h.slot a x hx
      have := hlow x.1 x.2 (by rw [InUse, hmod, hx])
      omega
    have hnone : (Option.map Prod.snd ∘ σ) j = none := by
      rw [comp_apply, Option.map_eq_none_iff, Option.eq_none_iff_forall_ne_some]
      intro x hx
      exact hfree x.2 (by rw [InUse, Nat.mod_eq_of_lt hlt, hx, ← hslot hx])
    obtain ⟨idp1, r, hget1, hok, hrep1⟩ := hrep.getNewAbove ⟨j, hj, hlt, hnone⟩ ptr
    cases hget.symm.trans hget1
    have hid : id < 2 ^ 30 := hrep1.lt (by simp [afterGet])
    have hfresh : σ id = none := Option.map_eq_none_iff.1 hok.2.1
    refine ⟨hok.1, by omega, fun p hp => ?_, ?_, fun k p hp => ?_⟩
    · rw [InUse, Nat.mod_eq_of_lt hid, hfresh] at hp
      cases hp
    · rw [hrep1.find (hid.trans (by decide)), afterGet, update_self]
      rfl
    · have hk := hlow k p hp
      rw [InUse, Nat.mod_eq_of_lt hk] at hp
      have hne : k ≠ id := by
        rintro rfl
        cases hfresh.symm.trans hp
      rw [hrep1.find (hk.trans (by decide)), afterGet, update_of_ne hne, comp_apply, hp]
      rfl
  · have hrep1 := ((hrep.getNewAbove_any (Nat.lt_succ_of_le hstart) hget).1 _ rfl).2
    have hsmall {k : ℕ} {p : Option α} (hk : k < 2 ^ 31) (hp : p ≠ none)
        (hfind : idrFind idp' k = some p) : k < 2 ^ 30 := by
      refine hrep1.lt fun hnone => hp ?_
      rw [hrep1.find hk, hnone] at hfind
      exact (Option.some.inj hfind).symm
    refine ⟨fun k p hp => ?_, id, hdoc.start_le, hsmall (Nat.lt_succ_of_le hdoc.le) hptr hdoc.find,
      hdoc.fresh⟩
    refine hsmall (h.slot _ _ hp).2 ?_ (hdoc.keeps k p hp)
    rintro rfl
    exact hnull k hp

/-- Id 5 is in use, and id 6 is given out. -/
theorem idrGetNewAbove_documented_six : ∃ idp idp' : Idr ℕ,
    idrGetNewAbove (idrPreGet (idrInit ℕ) 14).2 (some 7) 5 = some (idp, .ok 5) ∧
      idrGetNewAbove idp (some 8) 5 = some (idp', .ok 6) ∧
      Documented (update (fun _ => none) 5 (some (5, some 7))) (some 8) 5 idp' 6 := by
  obtain ⟨idp, idp', hget, -, hget'⟩ := getNewAbove_five_six
  have hreach := (Reach.init.preGet 14).getNewAbove (some 7) 5 (by decide) hget
  refine ⟨idp, idp', hget, hget', (idrGetNewAbove_documented hreach (by decide) hget').1
    ⟨?_, 6, ?_⟩⟩
  · intro j p hj
    rw [InUse, update_apply] at hj
    split at hj <;> cases hj
    decide
  · exact ⟨by decide, by decide, nofun⟩

/-- The idr is empty and the free list is full: id `2^30` is given out, and not found. -/
theorem idrGetNewAbove_lost :
    (idrPreGet (idrInit ℕ) 14).2.idFree.length = idrFreeMax ∧
      (idrGetNewAbove (idrPreGet (idrInit ℕ) 14).2 (some 7) (2 ^ 30)).map (fun r =>
        (r.2, idrFind r.1 (2 ^ 30))) = some (.ok (2 ^ 30), some none) := by
  decide +kernel

end NestLinux.IdAlloc
