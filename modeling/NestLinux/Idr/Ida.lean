import NestLinux.Idr.Ops

/-!
# An ida is a set

In an ida a slot of the lowest level points to a bitmap of 992 ids, and its bit says that the bitmap
is full. Whatever the calls, and wherever layers or bitmaps run out, a new id is the first one that
is not in the set, and it is added to the set.
-/

namespace NestLinux.IdAlloc

open Function Lib

variable {i j k id start offset t : ℕ} {bm : ℕ → Bool} {ary : ℕ → Slot IdaBitmap} {n : ℤ}
  {ida : Ida} {b : IdaBitmap} {idr : Idr IdaBitmap} {p : Slot IdaBitmap}

/-! ### Bitmaps -/

def BitmapOk (b : IdaBitmap) : Prop := b.nrBusy = used (fun v => v = true) b.bitmap idaBitmapBits

abbrev emptyBitmap : IdaBitmap := ⟨0, fun _ => false⟩

theorem bitmapOk_empty : BitmapOk emptyBitmap := by
  rw [BitmapOk, (used_eq_zero_iff _ _ _).2 fun _ _ => by simp]
  rfl

theorem BitmapOk.take (h : BitmapOk b) (ht : t < idaBitmapBits) (hb : b.bitmap t = false) :
    BitmapOk (b.change t true 1) := by
  have hc := used_update (fun v => v = true) (f := b.bitmap) ht true
  rw [hb, if_neg (by decide), if_pos rfl] at hc
  rw [BitmapOk] at h ⊢
  simp only [IdaBitmap.change]
  omega

theorem BitmapOk.drop (h : BitmapOk b) (ht : t < idaBitmapBits) (hb : b.bitmap t = true) :
    BitmapOk (b.change t false (-1)) := by
  have hc := used_update (fun v => v = true) (f := b.bitmap) ht false
  rw [hb, if_pos rfl, if_neg (by decide)] at hc
  rw [BitmapOk] at h ⊢
  simp only [IdaBitmap.change]
  omega

theorem BitmapOk.full (h : BitmapOk b) (hfu : b.nrBusy = idaBitmapBits) (ht : t < idaBitmapBits) :
    b.bitmap t = true := by
  rw [BitmapOk] at h
  exact (used_eq_iff (fun v => v = true) b.bitmap idaBitmapBits).1 (by omega) t ht

theorem BitmapOk.nrBusy_eq (h : BitmapOk b) (ha : ∀ t < idaBitmapBits, b.bitmap t = true) :
    b.nrBusy = idaBitmapBits := by
  rw [h, (used_eq_iff (fun v => v = true) b.bitmap idaBitmapBits).2 ha]

theorem BitmapOk.empty (h : BitmapOk b) (hz : b.nrBusy = 0) (ht : t < idaBitmapBits) :
    b.bitmap t = false := by
  rw [BitmapOk] at h
  have hno := (used_eq_zero_iff (fun v => v = true) b.bitmap idaBitmapBits).1 (by omega) t ht
  exact Bool.eq_false_of_not_eq_true hno

/-! ### The lowest layers -/

/-- A slot of a lowest layer, and its bit. -/
def MapSlot (bit : Bool) (p : Slot IdaBitmap) : Prop :=
  (p = .null ∧ bit = false) ∨
    ∃ b, p = .item b ∧ BitmapOk b ∧ (bit = true ↔ b.nrBusy = idaBitmapBits)

/-- The lowest layers of an ida: they count their bitmaps, and know which ones are full. -/
def MapLeaf : Leaf IdaBitmap := fun bm ary n =>
  n = inUse ary ∧ ∀ i < idrSize, MapSlot (bm i) (ary i)

theorem leafOk_mapLeaf : LeafOk MapLeaf where
  zero := by
    refine ⟨?_, fun _ _ => .inl ⟨rfl, rfl⟩⟩
    rfl
  empty := by
    intro bm ary h i hi
    have hz : inUse ary = 0 := by
      have := h.1
      omega
    have hnl := inUse_eq_zero.1 hz i hi
    rcases h.2 i hi with ⟨-, hb⟩ | ⟨b, hit, -⟩
    · exact ⟨hb, hnl⟩
    rw [hnl] at hit
    cases hit

theorem MapLeaf.update {bit : Bool} {n' : ℤ} (h : MapLeaf bm ary n) (hp : MapSlot bit p)
    (hn : n' = inUse (update ary i p)) :
    MapLeaf (update bm i bit) (Function.update ary i p) n' := by
  refine ⟨hn, fun j hj => ?_⟩
  by_cases hji : j = i
  · rwa [hji, update_self, update_self]
  rw [update_of_ne hji, update_of_ne hji]
  exact h.2 j hj

theorem MapLeaf.replace {bit : Bool} {b' : IdaBitmap} (h : MapLeaf bm ary n) (hi : i < idrSize)
    (hold : ary i = .item b) (hp : MapSlot bit (.item b')) :
    MapLeaf (Function.update bm i bit) (Function.update ary i (.item b')) n := by
  refine h.update hp ?_
  rw [inUse_update hi (by rw [hold]; rfl)]
  exact h.1

/-- The lowest layer with the bitmap `b` in slot `k`, which is not full. -/
def AtMap (k : ℕ) (b : IdaBitmap) : Leaf IdaBitmap := fun bm ary n =>
  MapLeaf bm ary n ∧ bm (digit idrSize 0 k) = false ∧ ary (digit idrSize 0 k) = .item b

theorem Good.mapSlot (h : Good MapLeaf idr) (k : ℕ) :
    MapSlot (content idr k).1 (content idr k).2 := by
  by_cases he : content idr k = (false, .null)
  · rw [he]
    exact .inl ⟨rfl, rfl⟩
  obtain ⟨hv, hlt, -⟩ := h.valid_of_ne he
  rw [content_of_lt hlt] at he ⊢
  rcases hv.wf.leaf_cell k with hno | ⟨bm, ary, n, i, hi, hlf, hce⟩
  · exact absurd hno he
  rw [cells, hce]
  exact hlf.2 i hi

/-! ### The set -/

/-- The ids whose bits are set in the bitmaps. -/
def allocated (ida : Ida) : Set ℕ :=
  {id | id < maxIdBit ∧ ∃ b, idrFind ida.idr (id / idaBitmapBits) = some (some b) ∧
    b.bitmap (id % idaBitmapBits) = true}

theorem item?_eq_some_iff : p.item? = some b ↔ p = .item b := by
  cases p <;> simp [Slot.item?]

section

variable (h : Good MapLeaf ida.idr)

include h

theorem mem_allocated :
    id ∈ allocated ida ↔ id < maxIdBit ∧ ∃ b, (content ida.idr (id / idaBitmapBits)).2 = .item b ∧
      b.bitmap (id % idaBitmapBits) = true := by
  refine and_congr_right fun hid => exists_congr fun b => and_congr_left fun _ => ?_
  rw [h.idrFind (lt_of_le_of_lt (Nat.div_le_self _ _) hid), Option.some_inj, item?_eq_some_iff]

theorem allocated_congr {ida' : Ida} (h' : Good MapLeaf ida'.idr)
    (hsm : ∀ j, content ida'.idr j = content ida.idr j) : allocated ida' = allocated ida := by
  ext id
  rw [mem_allocated h, mem_allocated h', hsm]

theorem mem_allocated_of_full (hid : id < maxIdBit)
    (hbt : (content ida.idr (id / idaBitmapBits)).1 = true) : id ∈ allocated ida := by
  rcases h.mapSlot (id / idaBitmapBits) with ⟨-, hc⟩ | ⟨b, hsl, hb, hfu⟩
  · rw [hc] at hbt
    cases hbt
  rw [mem_allocated h]
  exact ⟨hid, b, hsl, hb.full (hfu.1 hbt) (Nat.mod_lt id (by decide))⟩

theorem mem_allocated_update {ida' : Ida} (h' : Good MapLeaf ida'.idr)
    (hcontent : ∀ j, (content ida'.idr j).2 = if j = k then p else (content ida.idr j).2) :
    id ∈ allocated ida' ↔ if id / idaBitmapBits = k then
      id < maxIdBit ∧ ∃ b, p = .item b ∧ b.bitmap (id % idaBitmapBits) = true
      else id ∈ allocated ida := by
  rw [mem_allocated h', hcontent]
  by_cases hid : id / idaBitmapBits = k
  · rw [if_pos hid, if_pos hid]
  · rw [if_neg hid, if_neg hid, mem_allocated h]

end

theorem chunk_div (ht : t < idaBitmapBits) : (k * idaBitmapBits + t) / idaBitmapBits = k := by
  rw [mul_comm, Nat.mul_add_div (by decide), Nat.div_eq_of_lt ht, add_zero]

theorem chunk_mod (ht : t < idaBitmapBits) : (k * idaBitmapBits + t) % idaBitmapBits = t := by
  rw [mul_comm, Nat.mul_add_mod, Nat.mod_eq_of_lt ht]

theorem eq_chunk_iff (ht : t < idaBitmapBits) :
    id = k * idaBitmapBits + t ↔ id / idaBitmapBits = k ∧ id % idaBitmapBits = t := by
  constructor
  · rintro rfl
    exact ⟨chunk_div ht, chunk_mod ht⟩
  rintro ⟨rfl, rfl⟩
  exact (Nat.div_add_mod' id idaBitmapBits).symm

theorem mem_allocated_chunk (h : Good MapLeaf ida.idr) (hsl : (content ida.idr k).2 = .item b)
    (hk : (k + 1) * idaBitmapBits ≤ maxIdBit) (ht : t < idaBitmapBits) :
    k * idaBitmapBits + t ∈ allocated ida ↔ b.bitmap t = true := by
  rw [mem_allocated h, chunk_div ht, chunk_mod ht, hsl]
  have hlt : k * idaBitmapBits + t < maxIdBit := by
    rw [add_mul] at hk
    omega
  simp [hlt]

/-! ### Allocation -/

/-- The bitmap of a slot that is not full, and its layer. -/
theorem Valid.atMap (h : Valid MapLeaf idr) (hlt : k < idrSize ^ idr.layers)
    (hpr : Present k (idr.layers - 1) idr.top) (hsl : content idr k = (false, .item b)) :
    ValidPath MapLeaf (AtMap k b) k idr := by
  refine h.toPath hlt hpr fun bm ary n hlf hb hary => ?_
  rw [hsl] at hb hary
  exact ⟨hlf, hb, hary⟩

/-- A new bitmap is put into a slot without one. -/
theorem Valid.newMap (h : Valid MapLeaf idr) (hlt : k < idrSize ^ idr.layers)
    (hpr : Present k (idr.layers - 1) idr.top) (hsl : content idr k = (false, .null)) :
    ValidPath MapLeaf (AtMap k emptyBitmap) k (idr.modifyAt 0 (k / idrSize) fun p =>
        (p.put (k % idrSize) (.item emptyBitmap)).addCount 1) ∧
      ∀ j, content (idr.modifyAt 0 (k / idrSize) fun p =>
        (p.put (k % idrSize) (.item emptyBitmap)).addCount 1) j =
          if j = k then (false, .item emptyBitmap) else content idr j := by
  have hph : ValidPath MapLeaf (fun bm ary n => MapLeaf bm ary n ∧
      bm (digit idrSize 0 k) = false ∧ ary (digit idrSize 0 k) = .null) k idr := by
    refine h.toPath hlt hpr fun bm ary n hlf hb hary => ?_
    rw [hsl] at hb hary
    exact ⟨hlf, hb, hary⟩
  have hput := hph.modify (v := fun _ => .item emptyBitmap) (N := AtMap k emptyBitmap)
    (f := fun p => (p.put (k % idrSize) (.item emptyBitmap)).addCount 1) fun bm ary n hlf => by
      obtain ⟨hlf, hb, hary⟩ := hlf
      have hsl : MapSlot (bm (digit idrSize 0 k)) (.item emptyBitmap) := by
        refine .inr ⟨emptyBitmap, rfl, bitmapOk_empty, ?_⟩
        rw [hb]
        decide
      have hold : (ary (digit idrSize 0 k)).isNull = true := by rw [hary, isNull_null]
      have hc := inUse_link (digit_idrSize_lt 0 k) hold (isNull_item emptyBitmap)
      have hn : n + 1 = inUse (update ary (digit idrSize 0 k) (.item emptyBitmap)) := by
        rw [hc, hlf.1]
        rfl
      have hnw := hlf.update hsl hn
      rw [update_eq_self] at hnw
      refine ⟨n + 1, ?_, hnw, hb, update_self ..⟩
      rw [digit_zero]
      rfl
  rwa [hsl] at hput

/-- The bitmap is written, and the bit of its slot where it is full. -/
theorem ValidPath.putMap {b' : IdaBitmap} (h : ValidPath MapLeaf (AtMap k b) k idr)
    (hb : BitmapOk b') {idr' : Idr IdaBitmap}
    (hidr : idr' = idr.modifyAt 0 (k / idrSize) fun p => p.put (k % idrSize) (.item b')) :
    Good MapLeaf (if b'.nrBusy = idaBitmapBits then IdAlloc.idrMarkFull idr' k else idr') ∧
      ∀ j, (content (if b'.nrBusy = idaBitmapBits then IdAlloc.idrMarkFull idr' k else idr') j).2 =
        if j = k then .item b' else (content idr j).2 := by
  subst hidr
  have hlt := digit_idrSize_lt 0 k
  have hwr (bm : ℕ → Bool) (ary : ℕ → Slot IdaBitmap) (n : ℤ) :
      (Slot.layer bm ary n 0).put (k % idrSize) (.item b') =
        .layer bm (update ary (digit idrSize 0 k) (.item b')) n 0 := by
    rw [digit_zero]
    rfl
  by_cases hfu : b'.nrBusy = idaBitmapBits
  · rw [if_pos hfu]
    obtain ⟨hput, hcontent⟩ := h.modify (v := fun _ => .item b')
      (f := fun p => p.put (k % idrSize) (.item b'))
      (N := fun bm ary n => MapLeaf (update bm (digit idrSize 0 k) true) ary n)
      fun bm ary n hlf => ⟨n, hwr bm ary n,
        hlf.1.replace hlt hlf.2.2 (.inr ⟨b', rfl, hb, by simp [hfu]⟩)⟩
    obtain ⟨hmk, hcontent'⟩ := hput.idrMarkFull fun bm ary n hlf => hlf
    refine ⟨hmk.good, fun j => ?_⟩
    rw [hcontent', hcontent, hcontent]
    by_cases hj : j = k <;> simp [hj]
  rw [if_neg hfu]
  obtain ⟨hput, hcontent⟩ := h.modify (v := fun _ => .item b')
    (f := fun p => p.put (k % idrSize) (.item b')) fun bm ary n hlf => by
      have hsl : MapSlot (bm (digit idrSize 0 k)) (.item b') := by
        rw [hlf.2.1]
        exact .inr ⟨b', rfl, hb, by simp [hfu]⟩
      have hn := hlf.1.replace hlt hlf.2.2 hsl
      rw [update_eq_self] at hn
      exact ⟨n, hwr bm ary n, hn⟩
  refine ⟨(hput.toValid fun _ _ _ hlf => hlf).good, fun j => ?_⟩
  rw [hcontent]
  by_cases hj : j = k <;> simp [hj]

/-- A bit of a bitmap is taken, and a layer of the free list is thrown away. -/
theorem ValidPath.idaTake (h : ValidPath MapLeaf (AtMap k b) k ida.idr) (hb : BitmapOk b)
    (ht : t < idaBitmapBits) (hbt : b.bitmap t = false) :
    Good MapLeaf (idaTake ida k (k / idrSize) t b).idr ∧
      ∀ j, (content (IdAlloc.idaTake ida k (k / idrSize) t b).idr j).2 =
        if j = k then .item (b.change t true 1) else (content ida.idr j).2 := by
  obtain ⟨hgood, hcontent⟩ := h.putMap (hb.take ht hbt) rfl
  rw [IdAlloc.idaTake]
  generalize (if (b.change t true 1).nrBusy = idaBitmapBits then _ else _) = idr at hgood hcontent ⊢
  split
  · obtain ⟨hdp, hsm⟩ := hgood.getFromFreeList
    exact ⟨hdp, fun j => by rw [hsm, hcontent]⟩
  · exact ⟨hgood, hcontent⟩

/-- What `ida_get_new_above` returns, and the set then. -/
def IdaGetOk (ida : Ida) (start : ℕ) (ida' : Ida) : GetResult → Prop
  | .ok id => start ≤ id ∧ id ∉ allocated ida ∧ (∀ j, start ≤ j → j < id → j ∈ allocated ida) ∧
      allocated ida' = insert id (allocated ida)
  | .eagain => allocated ida' = allocated ida
  | .enospc => False

/-- The search ends. -/
def IdaGets (ida : Ida) (start : ℕ) (res : Option (Ida × GetResult)) : Prop :=
  ∃ ida' r, res = some (ida', r) ∧ Good MapLeaf ida'.idr ∧ IdaGetOk ida start ida' r

/-- The search may start later, if everything before is allocated. -/
theorem IdaGets.mono {ida1 : Ida} {start' : ℕ} {res : Option (Ida × GetResult)}
    (h : IdaGets ida1 start' res) (hsm : allocated ida1 = allocated ida) (hle : start ≤ start')
    (htkn : ∀ j, start ≤ j → j < start' → j ∈ allocated ida) : IdaGets ida start res := by
  obtain ⟨ida', r, hr, hgood, h⟩ := h
  refine ⟨ida', r, hr, hgood, ?_⟩
  cases r with
  | ok id =>
    obtain ⟨hid, hfe, ha, hst⟩ := h
    rw [hsm] at hfe hst ha
    refine ⟨hle.trans hid, hfe, fun j hj hjid => ?_, hst⟩
    by_cases hj' : j < start'
    · exact htkn j hj hj'
    · exact ha j (Nat.le_of_not_lt hj') hjid
  | eagain => exact Eq.trans h hsm
  | enospc => exact h

/-- The first clear bit of a bitmap is taken. -/
theorem ValidPath.idaTake_ok (h : ValidPath MapLeaf (AtMap k b) k ida.idr) (hb : BitmapOk b)
    (hsl : (content ida.idr k).2 = .item b) (hk : (k + 1) * idaBitmapBits ≤ maxIdBit)
    (ho : offset ≤ t) (ht : t < idaBitmapBits) (hbt : b.bitmap t = false)
    (hbf : ∀ i, offset ≤ i → i < t → b.bitmap i = true) :
    Good MapLeaf (IdAlloc.idaTake ida k (k / idrSize) t b).idr ∧
      IdaGetOk ida (k * idaBitmapBits + offset) (IdAlloc.idaTake ida k (k / idrSize) t b)
        (.ok (k * idaBitmapBits + t)) := by
  have hgood : Good MapLeaf ida.idr := (h.toValid fun _ _ _ hlf => hlf.1).good
  obtain ⟨hgood', hcontent⟩ := h.idaTake hb ht hbt
  have hm (i : ℕ) (hi : i < idaBitmapBits) := mem_allocated_chunk hgood hsl hk hi
  refine ⟨hgood', Nat.add_le_add_left ho _, ?_, fun j hj hjt => ?_, ?_⟩
  · rw [hm t ht, hbt]
    decide
  · have hi : k * idaBitmapBits + (j - k * idaBitmapBits) = j := by omega
    rw [← hi, hm _ (by omega)]
    exact hbf _ (by omega) (by omega)
  ext id
  rw [mem_allocated_update hgood hgood' hcontent, Set.mem_insert_iff, eq_chunk_iff ht]
  by_cases hid : id / idaBitmapBits = k
  · have hid' : id = k * idaBitmapBits + id % idaBitmapBits := by
      rw [← hid]
      exact (Nat.div_add_mod' id idaBitmapBits).symm
    have hmd : id % idaBitmapBits < idaBitmapBits := Nat.mod_lt id (by decide)
    have hlt : id < maxIdBit := by
      rw [add_mul] at hk
      omega
    have hm' := hm _ hmd
    rw [← hid'] at hm'
    rw [hm']
    by_cases hbi : id % idaBitmapBits = t
    · simp [IdaBitmap.change, hlt, hid, hbi]
    · simp [IdaBitmap.change, hlt, hbi]
  · simp [hid]

/-- The chunk behind all ids that are allowed. -/
def topChunk : ℕ := 2 ^ 30 / idaBitmapBits + 1

/-- The slot that `ida_get_new_above` reads. -/
theorem layerAt_ary (hlt : k < idrSize ^ idr.layers) :
    (idr.layerAt 0 (k / idrSize)).ary (k % idrSize) = (content idr k).2 := by
  rw [content_of_lt hlt, cells, cell_eq_down]
  rfl

/-- The chunk behind all allocated ids is not full. -/
theorem content_topChunk (h : Good MapLeaf ida.idr) (hsm : ∀ id ∈ allocated ida, id < 2 ^ 30) :
    (content ida.idr topChunk).1 = false := by
  by_contra hb
  have hm : topChunk * idaBitmapBits ∈ allocated ida := by
    refine mem_allocated_of_full h (by decide) ?_
    exact Bool.eq_true_of_not_eq_false hb
  exact absurd (hsm _ hm) (by decide)

/-- `ida_get_new_above` from the bitmap on, which is there; `restart` goes on with the next
chunk. -/
def takeFrom (restart : Ida → ℕ → ℕ → Option (Ida × GetResult)) (ida : Ida) (k offset : ℕ)
    (b : IdaBitmap) : Option (Ida × GetResult) :=
  let t := nextZero b.bitmap idaBitmapBits offset
  if t = idaBitmapBits then restart ida (k + 1) 0
  else if maxIdBit ≤ k * idaBitmapBits + t then some (ida, .enospc)
  else some (idaTake ida k (k / idrSize) t b, .ok (k * idaBitmapBits + t))

theorem topChunk_eq : topChunk = 1082402 := by decide

theorem succ_mul_le (hk : k ≤ topChunk) : (k + 1) * idaBitmapBits ≤ maxIdBit := by
  rw [topChunk_eq] at hk
  rw [idaBitmapBits, maxIdBit]
  omega

/-- A bitmap that is not full has a clear bit, here or it is left to the next chunk. -/
theorem takeFrom_spec (restart : Ida → ℕ → ℕ → Option (Ida × GetResult)) (ida : Ida)
    (h : ValidPath MapLeaf (AtMap k b) k ida.idr) (hb : BitmapOk b)
    (hsl : (content ida.idr k).2 = .item b) (hfu : b.nrBusy ≠ idaBitmapBits)
    (hsm : ∀ id ∈ allocated ida, id < 2 ^ 30) (hk : k ≤ topChunk) (ho : offset < idaBitmapBits)
    (hrst : b.bitmap offset = true → offset ≠ 0 → k + 1 ≤ topChunk →
      IdaGets ida ((k + 1) * idaBitmapBits + 0) (restart ida (k + 1) 0)) :
    IdaGets ida (k * idaBitmapBits + offset) (takeFrom restart ida k offset b) := by
  have hgood : Good MapLeaf ida.idr := (h.toValid fun _ _ _ hlf => hlf.1).good
  have hck := succ_mul_le hk
  have hst (i : ℕ) (hi : offset ≤ i) (hi' : i < nextZero b.bitmap idaBitmapBits offset)
      (hlt : i < idaBitmapBits) : b.bitmap i = true := getBit_of_lt_nextZero hi hi' hlt
  rw [takeFrom]
  rcases nextZero_cases b.bitmap idaBitmapBits offset with he | ⟨hlt, hge, hbt⟩
  · rw [he] at hst
    have ha (i : ℕ) (hi : offset ≤ i) (hlt : i < idaBitmapBits) :
        k * idaBitmapBits + i ∈ allocated ida :=
      (mem_allocated_chunk hgood hsl hck hlt).2 (hst i hi hlt hlt)
    have hne : offset ≠ 0 := by
      rintro rfl
      exact hfu (hb.nrBusy_eq fun i hi => hst i (Nat.zero_le i) hi hi)
    have hnx : k + 1 ≤ topChunk := by
      have hla := hsm _ (ha offset le_rfl ho)
      rw [topChunk_eq]
      rw [idaBitmapBits] at hla
      omega
    have hnx := hrst (hst offset le_rfl ho ho) hne hnx
    rw [if_pos he]
    refine hnx.mono rfl ?_ fun j hj hjlt => ?_
    · rw [add_mul]
      omega
    have hj' : k * idaBitmapBits + (j - k * idaBitmapBits) = j := by omega
    rw [← hj']
    rw [add_mul] at hjlt
    exact ha _ (by omega) (by omega)
  · have hid : ¬ maxIdBit ≤ k * idaBitmapBits + nextZero b.bitmap idaBitmapBits offset := by
      rw [add_mul] at hck
      omega
    obtain ⟨hgood', hok⟩ := h.idaTake_ok hb hsl hck hge hlt hbt fun i hi hi' =>
      hst i hi hi' (hi'.trans hlt)
    refine ⟨_, _, ?_, hgood', hok⟩
    rw [if_neg hlt.ne, if_neg hid]

/-- One turn, where the search in the tree ends at slot `t`. -/
theorem idaGetNewAboveLoop_succ {fuel : ℕ} {pa : Path}
    (hsl : idrGetEmptySlot ida.idr k = some (idr, pa, .found t))
    (hpa : pa 0 = some (t / idrSize)) (hlt : t < idrSize ^ idr.layers) (ht : t ≤ topChunk) :
    idaGetNewAboveLoop (fuel + 1) ida k offset = if (content idr t).2.isNull then
        if ida.freeBitmap then takeFrom (idaGetNewAboveLoop fuel)
            { idr := idr.modifyAt 0 (t / idrSize) fun p =>
                (p.put (t % idrSize) (.item emptyBitmap)).addCount 1
              freeBitmap := false } t (if t ≠ k then 0 else offset) emptyBitmap
        else some ({ ida with idr := idr }, .eagain)
      else takeFrom (idaGetNewAboveLoop fuel) { ida with idr := idr } t
        (if t ≠ k then 0 else offset)
        ((content idr t).2.item?.getD emptyBitmap) := by
  have hpr : ¬ maxIdBit ≤ t * idaBitmapBits % 2 ^ 32 := by
    rw [topChunk_eq] at ht
    rw [idaBitmapBits, maxIdBit, Nat.mod_eq_of_lt (by omega)]
    omega
  rw [idaGetNewAboveLoop, hsl]
  simp only [if_neg hpr, hpa, layerAt_ary hlt]
  cases hc : (content idr t).2 with
  | null =>
    cases hfe : ida.freeBitmap with
    | false => simp
    | true =>
      simp [Slot.item?, takeFrom]
  | item b => simp [takeFrom]
  | layer => simp [takeFrom]

/-- The search in the tree passes over full chunks only. -/
theorem mem_allocated_of_passed {j : ℕ} (h : Good MapLeaf ida.idr) (ht : t ≤ topChunk)
    (hps : ∀ j, k ≤ j → j < t → (content ida.idr j).1 = true)
    (hj : k * idaBitmapBits ≤ j) (hjt : j < t * idaBitmapBits) : j ∈ allocated ida := by
  refine mem_allocated_of_full h ?_ (hps _ ?_ ?_)
  · have hlt := succ_mul_le ht
    rw [add_mul] at hlt
    omega
  · exact (Nat.le_div_iff_mul_le (by decide)).2 hj
  · exact (Nat.div_lt_iff_lt_mul (by decide)).2 hjt

/-- A turn of the loop at a slot that is not full, which may have to get a bitmap. -/
theorem atSlot_spec (restart : Ida → ℕ → ℕ → Option (Ida × GetResult)) (ida : Ida)
    (h : Valid MapLeaf ida.idr)
    (hlt : t < idrSize ^ ida.idr.layers) (hpr : Present t (ida.idr.layers - 1) ida.idr.top)
    (hc : (content ida.idr t).1 = false) (hsm : ∀ id ∈ allocated ida, id < 2 ^ 30)
    (ht : t ≤ topChunk) (ho : offset < idaBitmapBits)
    (hrst : offset ≠ 0 → t + 1 ≤ topChunk →
      IdaGets ida ((t + 1) * idaBitmapBits + 0) (restart ida (t + 1) 0)) :
    IdaGets ida (t * idaBitmapBits + offset) (if (content ida.idr t).2.isNull then
        if ida.freeBitmap then takeFrom restart
            { idr := ida.idr.modifyAt 0 (t / idrSize) fun p =>
                (p.put (t % idrSize) (.item emptyBitmap)).addCount 1
              freeBitmap := false } t offset emptyBitmap
        else some (ida, .eagain)
      else takeFrom restart ida t offset ((content ida.idr t).2.item?.getD emptyBitmap)) := by
  rcases h.good.mapSlot t with ⟨hnl, -⟩ | ⟨b, hit, hb, hfu⟩
  · rw [hnl, isNull_null]
    by_cases hfe : ida.freeBitmap = true
    · rw [if_pos hfe]
      have hcontent : content ida.idr t = (false, .null) := Prod.ext hc hnl
      obtain ⟨hph, hn⟩ := h.newMap hlt hpr hcontent
      generalize (ida.idr.modifyAt 0 (t / idrSize) fun p =>
        (p.put (t % idrSize) (.item emptyBitmap)).addCount 1) = idr at hph hn
      have hgood : Good MapLeaf idr := (hph.toValid fun _ _ _ hlf => hlf.1).good
      have hst : allocated { idr := idr, freeBitmap := false } = allocated ida := by
        ext id
        have hsl (j : ℕ) : (content idr j).2 =
            if j = t then .item emptyBitmap else (content ida.idr j).2 := by
          rw [hn]
          split <;> rfl
        refine (mem_allocated_update h.good hgood hsl).trans ?_
        by_cases hid : id / idaBitmapBits = t
        · rw [mem_allocated h.good, hid, hcontent]
          simp
        · rw [if_neg hid]
      rw [← hst] at hsm
      have hslo : (content idr t).2 = .item emptyBitmap := by rw [hn, if_pos rfl]
      have htk := takeFrom_spec restart { idr := idr, freeBitmap := false } hph bitmapOk_empty
        hslo (by decide) hsm ht ho fun hbt => absurd hbt Bool.false_ne_true
      exact htk.mono hst le_rfl fun j hj hjlt => absurd hjlt (by omega)
    · rw [if_neg hfe]
      exact ⟨ida, .eagain, rfl, h.good, rfl⟩
  · have hcontent : content ida.idr t = (false, .item b) := Prod.ext hc hit
    rw [hcontent]
    refine takeFrom_spec restart ida (h.atMap hlt hpr hcontent) hb hit ?_ hsm ht ho
      fun _ => hrst
    intro hbs
    rw [hfu.2 hbs] at hc
    cases hc

/-- **The loop of `ida_get_new_above`** gives out the first id that is not allocated. -/
theorem idaGetNewAboveLoop_spec (fuel : ℕ) (h : Good MapLeaf ida.idr)
    (hsm : ∀ id ∈ allocated ida, id < 2 ^ 30) (hk : k ≤ topChunk) (ho : offset < idaBitmapBits)
    (hfl : (if offset = 0 then 0 else 1) < fuel) :
    IdaGets ida (k * idaBitmapBits + offset) (idaGetNewAboveLoop fuel ida k offset) := by
  induction fuel generalizing ida k offset with
  | zero => omega
  | succ fuel ih =>
    have hfe := content_topChunk h hsm
    obtain ⟨idr, pa, r, hsl, hgood, hsa, hr⟩ := idrGetEmptySlot_spec leafOk_mapLeaf h hfe hk
      (by decide)
    have hst : allocated { ida with idr := idr } = allocated ida := allocated_congr h hgood hsa
    cases r with
    | found t =>
      obtain ⟨hle, hc, hps, hv, hlt, hpa, hpr⟩ := hr
      have ht : t ≤ topChunk := by
        by_contra hgt
        have hb := hps topChunk hk (by omega)
        rw [hfe] at hb
        cases hb
      have hz : 0 < idaBitmapBits := by decide
      have hpt (j : ℕ) := mem_allocated_of_passed (j := j) h ht hps
      rw [← hsa] at hc
      rw [← hst] at hsm
      rw [idaGetNewAboveLoop_succ hsl hpa hlt ht]
      by_cases hne : t = k
      · subst hne
        simp only [ne_eq]
        have hat := atSlot_spec (idaGetNewAboveLoop fuel) { ida with idr := idr } hv hlt hpr
          hc hsm ht ho fun hne hnx =>
            ih hgood hsm hnx (by decide) (by rw [if_neg hne] at hfl; simp; omega)
        exact hat.mono hst le_rfl fun j hj hjlt => absurd hjlt (by omega)
      simp only [ne_eq, hne]
      have hat := atSlot_spec (idaGetNewAboveLoop fuel) { ida with idr := idr } hv hlt hpr
        hc hsm ht hz fun hne => absurd rfl hne
      have hmul : (k + 1) * idaBitmapBits ≤ t * idaBitmapBits := Nat.mul_le_mul_right _ (by omega)
      rw [add_mul] at hmul
      refine hat.mono hst (by omega) fun j hj hjlt => ?_
      exact hpt j (by omega) (by omega)
    | noMem =>
      refine ⟨_, .eagain, ?_, hgood, hst⟩
      rw [idaGetNewAboveLoop, hsl]
      rfl
    | needToGrow t => exact hr.elim
    | noMoreSpace => exact hr.elim

/-! ### Removal -/

/-- `ida_remove` of an id whose bit is set. -/
theorem idaRemove_eq (hlt : id / idaBitmapBits < idrSize ^ ida.idr.layers)
    (hsl : (content ida.idr (id / idaBitmapBits)).2 = .item b)
    (hb : b.bitmap (id % idaBitmapBits) = true) : idaRemove ida id =
      if (b.change (id % idaBitmapBits) false (-1)).nrBusy = 0 then
        ⟨idrRemove (clearPath ida.idr (id / idaBitmapBits) fun p =>
          (p.put (id / idaBitmapBits % idrSize)
            (.item (b.change (id % idaBitmapBits) false (-1)))).setBit
            (id / idaBitmapBits % idrSize) true) (id / idaBitmapBits), true⟩ else
        ⟨clearPath ida.idr (id / idaBitmapBits) fun p =>
          p.put (id / idaBitmapBits % idrSize) (.item (b.change (id % idaBitmapBits) false (-1))),
          ida.freeBitmap⟩ := by
  have hrd : ((ida.idr.top.down (ida.idr.layers - 1) (id / idaBitmapBits / idrSize)).ary
      (id / idaBitmapBits % idrSize)).item? = some b := by
    rw [item?_eq_some_iff, ← hsl]
    exact layerAt_ary hlt
  simp [idaRemove, hrd, hb, clearPath]

/-- The lowest layer with the bitmap `b` in slot `k`. -/
def HasMap (k : ℕ) (b : IdaBitmap) : Leaf IdaBitmap := fun bm ary n =>
  MapLeaf bm ary n ∧ ary (digit idrSize 0 k) = .item b

/-- The bitmap with a bit cleared is written, and all full bits above it are clear. -/
theorem ValidPath.clearMap {b' : IdaBitmap} (h : ValidPath MapLeaf (HasMap k b) k idr)
    (hb : BitmapOk b') (hfu : b'.nrBusy ≠ idaBitmapBits) :
    Good MapLeaf (IdAlloc.clearPath idr k fun p => p.put (k % idrSize) (.item b')) ∧
      ∀ j, (content (IdAlloc.clearPath idr k fun p => p.put (k % idrSize) (.item b')) j).2 =
        if j = k then .item b' else (content idr j).2 := by
  obtain ⟨hph, hcontent⟩ := h.clearPath (v := fun _ => .item b')
    (f := fun p => p.put (k % idrSize) (.item b')) fun bm ary n hlf => by
      refine ⟨n, by rw [digit_zero]; rfl, ?_⟩
      exact hlf.1.replace (digit_idrSize_lt 0 k) hlf.2 (.inr ⟨b', rfl, hb, by simp [hfu]⟩)
  refine ⟨(hph.toValid fun _ _ _ hlf => hlf).good, fun j => ?_⟩
  rw [hcontent]
  by_cases hj : j = k <;> simp [hj]

/-- An empty bitmap is removed, by `idr_remove` on a slot whose bit is set for it. -/
theorem ValidPath.removeMap (h : ValidPath MapLeaf (HasMap k b) k idr) (b' : IdaBitmap) :
    Good MapLeaf (IdAlloc.idrRemove (IdAlloc.clearPath idr k fun p =>
        (p.put (k % idrSize) (.item b')).setBit (k % idrSize) true) k) ∧
      ∀ j, (content (IdAlloc.idrRemove (IdAlloc.clearPath idr k fun p =>
        (p.put (k % idrSize) (.item b')).setBit (k % idrSize) true) k) j).2 =
          if j = k then .null else (content idr j).2 := by
  obtain ⟨hph, hcontent⟩ := h.clearPath (v := fun _ => .item b')
    (f := fun p => (p.put (k % idrSize) (.item b')).setBit (k % idrSize) true)
    (N := fun bm ary n => bm (digit idrSize 0 k) = true ∧
      MapLeaf (update bm (digit idrSize 0 k) false) (update ary (digit idrSize 0 k) .null) (n + -1))
    fun bm ary n hlf => by
      have hus : (ary (digit idrSize 0 k)).isNull = false := by rw [hlf.2, isNull_item]
      have hc := inUse_unlink (digit_idrSize_lt 0 k) hus
      have hn := hlf.1.1
      have hnw : MapLeaf (update bm (digit idrSize 0 k) false)
          (update ary (digit idrSize 0 k) .null) (n + -1) :=
        hlf.1.update (.inl ⟨rfl, rfl⟩) (by omega)
      refine ⟨n, ?_, update_self .., ?_⟩
      · simp [Slot.put, Slot.setBit]
      · rwa [update_idem, update_idem]
  obtain ⟨hgood, hcontent'⟩ := hph.idrRemove leafOk_mapLeaf fun bm ary n hlf => hlf
  refine ⟨hgood, fun j => ?_⟩
  rw [hcontent']
  by_cases hj : j = k
  · rw [if_pos hj, if_pos hj]
  · rw [if_neg hj, if_neg hj, hcontent, if_neg hj]

theorem mem_chunk_drop (h : Good MapLeaf ida.idr)
    (hsl : (content ida.idr (id / idaBitmapBits)).2 = .item b)
    (hj : j / idaBitmapBits = id / idaBitmapBits) :
    j < maxIdBit ∧ (b.change (id % idaBitmapBits) false (-1)).bitmap (j % idaBitmapBits) = true ↔
      j ∈ allocated ida ∧ j ≠ id := by
  rw [mem_allocated h, hj, hsl]
  by_cases hm : j % idaBitmapBits = id % idaBitmapBits
  · have heq : j = id := by
      rw [← Nat.div_add_mod j idaBitmapBits, hj, hm, Nat.div_add_mod]
    simp [IdaBitmap.change, heq]
  · have hne : j ≠ id := fun heq => hm (by rw [heq])
    simp [IdaBitmap.change, hm, hne]

/-- **`ida_remove`** of an allocated id. -/
theorem idaRemove_spec (h : Good MapLeaf ida.idr) (hid : id ∈ allocated ida) :
    Good MapLeaf (idaRemove ida id).idr ∧ allocated (idaRemove ida id) = allocated ida \ {id} := by
  obtain ⟨hlt, b, hslot, hbit⟩ := (mem_allocated h).1 hid
  have hm : id % idaBitmapBits < idaBitmapBits := Nat.mod_lt id (by decide)
  have hb : BitmapOk b := by
    rcases h.mapSlot (id / idaBitmapBits) with ⟨hnull, -⟩ | ⟨b1, hit, hb, -⟩
    · rw [hslot] at hnull
      cases hnull
    rw [hslot] at hit
    cases hit
    exact hb
  have hb' := hb.drop hm hbit
  have hn : (b.change (id % idaBitmapBits) false (-1)).nrBusy ≠ idaBitmapBits := by
    intro hfu
    have hst := hb'.full hfu hm
    simp [IdaBitmap.change] at hst
  have hne : content ida.idr (id / idaBitmapBits) ≠ (false, .null) := by
    intro he
    rw [he] at hslot
    cases hslot
  obtain ⟨hv, hkey, hpresent⟩ := h.valid_of_ne hne
  have hpath : ValidPath MapLeaf (HasMap (id / idaBitmapBits) b) (id / idaBitmapBits) ida.idr :=
    hv.toPath hkey hpresent fun bm ary n hlf _ hary => ⟨hlf, hary.trans hslot⟩
  have hchunk (j : ℕ) := mem_chunk_drop (j := j) h hslot
  have hst {p : Slot IdaBitmap} {ida' : Ida} (h' : Good MapLeaf ida'.idr)
      (hcontent : ∀ j, (content ida'.idr j).2 =
        if j = id / idaBitmapBits then p else (content ida.idr j).2)
      (hp : ∀ j, j / idaBitmapBits = id / idaBitmapBits →
        ((j < maxIdBit ∧ ∃ b, p = .item b ∧ b.bitmap (j % idaBitmapBits) = true) ↔
          j ∈ allocated ida ∧ j ≠ id)) : allocated ida' = allocated ida \ {id} := by
    ext j
    rw [mem_allocated_update h h' hcontent, Set.mem_sdiff, Set.mem_singleton_iff]
    by_cases hj : j / idaBitmapBits = id / idaBitmapBits
    · rw [if_pos hj, hp j hj]
    have hne : j ≠ id := fun heq => hj (by rw [heq])
    rw [if_neg hj]
    simp [hne]
  rw [idaRemove_eq hkey hslot hbit]
  generalize b.change (id % idaBitmapBits) false (-1) = b' at hb' hn hchunk ⊢
  by_cases hz : b'.nrBusy = 0
  · rw [if_pos hz]
    obtain ⟨hgood, hcontent⟩ := hpath.removeMap b'
    refine ⟨hgood, hst hgood hcontent fun j hj => ?_⟩
    have hc : b'.bitmap (j % idaBitmapBits) = false :=
      hb'.empty hz (Nat.mod_lt j (by decide))
    rw [← hchunk j hj, hc]
    simp
  · rw [if_neg hz]
    obtain ⟨hgood, hcontent⟩ := hpath.clearMap hb' hn
    refine ⟨hgood, hst hgood hcontent fun j hj => ?_⟩
    rw [← hchunk j hj]
    simp

/-! ### Runs -/

/-- The idas that a sequence of calls from `ida_init` leads to, as long as no id of `2 ^ 30` or more
is given out. -/
inductive IdaRun : Ida → Prop
  | init : IdaRun idaInit
  | preGet {ida : Ida} (avail : ℕ) (bitmap : Bool) (h : IdaRun ida) :
      IdaRun (idaPreGet ida avail bitmap).2
  | getNewAbove {ida ida' : Ida} {r : GetResult} (start : ℕ) (h : IdaRun ida)
      (hstart : start < 2 ^ 30)
      (hget : idaGetNewAbove ida start = some (ida', r)) (hid : ∀ id, r = .ok id → id < 2 ^ 30) :
      IdaRun ida'
  | remove {ida : Ida} (id : ℕ) (h : IdaRun ida) (hid : id ∈ allocated ida) :
      IdaRun (idaRemove ida id)

theorem allocated_idaInit : allocated idaInit = ∅ := by
  simp [allocated, idaInit, idrInit, idrFind]

/-- `ida_pre_get` allocates nothing. -/
theorem idaPreGet_spec (h : Good MapLeaf ida.idr) (avail : ℕ) (bitmap : Bool) :
    Good MapLeaf (idaPreGet ida avail bitmap).2.idr ∧
      allocated (idaPreGet ida avail bitmap).2 = allocated ida := by
  have hidr : (idaPreGet ida avail bitmap).2.idr = (idrPreGet ida.idr avail).2 := by
    simp only [idaPreGet]
    split_ifs <;> rfl
  obtain ⟨hgood, hsm⟩ := idrPreGetLoop_spec h (idrFreeMax - ida.idr.idFree.length) avail
  have hgood' : Good MapLeaf (idaPreGet ida avail bitmap).2.idr := by
    rw [hidr]
    exact hgood
  refine ⟨hgood', allocated_congr h hgood' fun j => ?_⟩
  rw [hidr]
  exact hsm j

/-- **`ida_get_new_above`** gives out the first id that is not allocated. -/
theorem idaGetNewAbove_spec (h : Good MapLeaf ida.idr) (hsm : ∀ id ∈ allocated ida, id < 2 ^ 30)
    (hst : start < 2 ^ 30) : IdaGets ida start (idaGetNewAbove ida start) := by
  have hk : start / idaBitmapBits ≤ topChunk := by
    rw [topChunk_eq, idaBitmapBits]
    omega
  have hsc := idaGetNewAboveLoop_spec 3 h hsm hk
    (Nat.mod_lt start (by decide : 0 < idaBitmapBits)) (by split <;> omega)
  rwa [Nat.div_add_mod'] at hsc

/-- Every call keeps the bitmaps in order, and the ids small. -/
theorem IdaRun.good (h : IdaRun ida) :
    Good MapLeaf ida.idr ∧ ∀ id ∈ allocated ida, id < 2 ^ 30 := by
  induction h with
  | init =>
    refine ⟨⟨by simp [idaInit, idrInit], .inl rfl⟩, fun id hid => ?_⟩
    rw [allocated_idaInit] at hid
    exact hid.elim
  | preGet avail bitmap h ih =>
    obtain ⟨hgood, hse⟩ := idaPreGet_spec ih.1 avail bitmap
    rw [hse]
    exact ⟨hgood, ih.2⟩
  | @getNewAbove ida ida' r start h hst hg hid ih =>
    obtain ⟨ida1, r1, hg1, hgood, hok⟩ := idaGetNewAbove_spec ih.1 ih.2 hst
    rw [hg] at hg1
    cases hg1
    refine ⟨hgood, fun j hj => ?_⟩
    cases r with
    | ok id =>
      rw [hok.2.2.2] at hj
      rcases Set.mem_insert_iff.1 hj with rfl | hj
      · exact hid _ rfl
      · exact ih.2 j hj
    | eagain =>
      rw [hok] at hj
      exact ih.2 j hj
    | enospc => exact hok.elim
  | remove id h hid ih =>
    obtain ⟨hgood, hse⟩ := idaRemove_spec ih.1 hid
    rw [hse]
    exact ⟨hgood, fun j hj => ih.2 j hj.1⟩

/-- **An ida is a set with least-element allocation.** After every sequence of calls,
`ida_get_new_above` ends; it adds the first id from the given one on that is not allocated, or it
fails for want of memory and changes nothing. `ida_remove` takes out its id, and nothing else. -/
theorem run_ida (h : IdaRun ida) :
    (∀ start < 2 ^ 30, ∃ ida' r, idaGetNewAbove ida start = some (ida', r) ∧
      match r with
      | .ok id => start ≤ id ∧ id ∉ allocated ida ∧ (∀ j, start ≤ j → j < id → j ∈ allocated ida) ∧
          allocated ida' = insert id (allocated ida)
      | .eagain => allocated ida' = allocated ida
      | .enospc => False) ∧
    (∀ id ∈ allocated ida, allocated (idaRemove ida id) = allocated ida \ {id}) ∧
    (∀ avail bitmap, allocated (idaPreGet ida avail bitmap).2 = allocated ida) ∧
    allocated idaInit = ∅ := by
  obtain ⟨hgood, hsmall⟩ := h.good
  refine ⟨fun start hstart => ?_, fun id hid => (idaRemove_spec hgood hid).2,
    fun avail bitmap => (idaPreGet_spec hgood avail bitmap).2, allocated_idaInit⟩
  obtain ⟨ida', r, hget, -, hok⟩ := idaGetNewAbove_spec hgood hsmall hstart
  refine ⟨ida', r, hget, ?_⟩
  cases r <;> exact hok

theorem run_ida_taken :
    ∃ ida, idaGetNewAbove (idaPreGet idaInit 14 true).2 1000 = some (ida, .ok 1000) ∧
      allocated ida = {1000} ∧ allocated (idaRemove ida 1000) = ∅ := by
  have hrun := IdaRun.preGet 14 true IdaRun.init
  obtain ⟨hget, -, hpre, hinit⟩ := run_ida hrun
  have hempty : allocated (idaPreGet idaInit 14 true).2 = ∅ :=
    ((run_ida IdaRun.init).2.2.1 14 true).trans hinit
  obtain ⟨ida, r, hcode, hok⟩ := hget 1000 (by decide)
  have hres : (idaGetNewAbove (idaPreGet idaInit 14 true).2 1000).map (·.2) = some (.ok 1000) := by
    decide +kernel
  rw [hcode] at hres
  have hr : r = .ok 1000 := Option.some.inj hres
  subst hr
  have hset : allocated ida = {1000} := by
    rw [hok.2.2.2, hempty]
    simp
  refine ⟨ida, hcode, hset, ?_⟩
  have hrun' := hrun.getNewAbove 1000 (by decide) hcode (by intro id hid; cases hid; decide)
  rw [(run_ida hrun').2.1 1000 (by simp [hset]), hset]
  simp

end NestLinux.IdAlloc
