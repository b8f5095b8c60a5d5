import NestLinux.Idr.Run

/-!
# Walks over the ids in use

`idr_get_next` goes down the path of an id. Where a layer is missing, it goes on as many ids further
as that layer would have, which is into the middle of the layer behind if the id was not the
first of the missing one. `idr_for_each` does the same from id 0 on, and comes to each missing layer
at its first id.
-/

namespace NestLinux.IdAlloc

open Function Lib

variable {α : Type*}

/-- Where `idr_get_next` is in the tree: `n` in levels, the layers above in `pa`, and `p`. -/
structure Cursor (α : Type*) where
  n : ℕ
  paa : List (Slot α)
  p : Slot α

def fls (x : ℕ) : ℕ := if x = 0 then 0 else Nat.log2 x + 1

/-- The loop of `idr_get_next` down the path of `id`. -/
def nextDown (id : ℕ) : ℕ → List (Slot α) → Slot α → Cursor α
  | 0, paa, p => ⟨0, paa, p⟩
  | n + 1, paa, p =>
    if p.isNull then ⟨n + 1, paa, p⟩ else nextDown id n (p :: paa) (p.ary (digit idrSize n id))

/-- The loop of `idr_get_next` back up. It ends at the top, where the id is too large for the tree
and the pointer that the C code takes from before `pa` is not used. -/
def nextUp (id : ℕ) : ℕ → List (Slot α) → Slot α → Cursor α
  | n, [], p => ⟨n, [], p⟩
  | n, q :: paa, p => if 5 * n < fls id then nextUp id (n + 1) paa q else ⟨n, q :: paa, p⟩

variable {idp : Idr α} {m : ℕ → Option (Option α)} {id id' k s t fuel : ℕ} {p : Slot α}
  {paa : List (Slot α)} {c : Cursor α} {r : Option (ℕ × Slot α)}

/-! ### Paths -/

/-- The cursor is on the path of the id. -/
inductive OnPath (idp : Idr α) (id : ℕ) : Cursor α → Prop
  | top : OnPath idp id ⟨idp.layers, [], idp.top⟩
  | down {n : ℕ} {paa : List (Slot α)} {p : Slot α} (h : OnPath idp id ⟨n + 1, paa, p⟩)
      (hp : p.isNull = false) : OnPath idp id ⟨n, p :: paa, p.ary (digit idrSize n id)⟩

/-- Where the path of an id ends. -/
def reach (idp : Idr α) (id : ℕ) : Cursor α := nextDown id idp.layers [] idp.top

theorem OnPath.nextDown (h : OnPath idp id c) : nextDown id c.n c.paa c.p = reach idp id := by
  induction h with
  | top => rfl
  | down h hp ih => rw [← ih, IdAlloc.nextDown, if_neg (by simp [hp])]

/-- A path ends at a pointer of the user or at a null pointer. -/
theorem OnPath.end (h : OnPath idp id ⟨k, paa, p⟩) : OnPath idp id (IdAlloc.nextDown id k paa p) ∧
    ((IdAlloc.nextDown id k paa p).p.isNull = false → (IdAlloc.nextDown id k paa p).n = 0) := by
  induction k generalizing paa p with
  | zero => exact ⟨h, fun _ => rfl⟩
  | succ n ih =>
    rw [IdAlloc.nextDown]
    split
    · rename_i hp
      exact ⟨h, fun hc => absurd hp (by simp [hc])⟩
    rename_i hp
    exact ih (h.down (by simpa using hp))

theorem reach_onPath (idp : Idr α) (id : ℕ) : OnPath idp id (reach idp id) ∧
    ((reach idp id).p.isNull = false → (reach idp id).n = 0) := OnPath.top.end

/-- Ids with the same digits above share the path down to there. -/
theorem OnPath.congr (h : OnPath idp id c) (heq : id' / idrSize ^ c.n = id / idrSize ^ c.n) :
    OnPath idp id' c := by
  induction h with
  | top => exact .top
  | @down n paa p h hp ih =>
    have hdig : digit idrSize n id' = digit idrSize n id := congrArg (· % idrSize) heq
    rw [← hdig]
    exact (ih (div_pow_eq_of_le n.le_succ heq)).down hp

theorem lt_of_fls_le (h : fls id ≤ 5 * k) : id < idrSize ^ k := by
  have hpow : 2 ^ (5 * k) = idrSize ^ k := pow_mul 2 5 k
  rw [← hpow]
  by_cases hid : id = 0
  · rw [hid]
    exact Nat.two_pow_pos _
  rw [fls, if_neg hid] at h
  exact (Nat.log2_lt hid).1 h

/-- Backing up leads to the path of a larger id. -/
theorem OnPath.nextUp (h : OnPath idp id c) (hle : id ≤ id') :
    OnPath idp id' (nextUp id' c.n c.paa c.p) := by
  induction h with
  | top => exact .top
  | @down n paa p h hp ih =>
    rw [IdAlloc.nextUp]
    split
    · exact ih
    rename_i hfls
    have hlt : id' < idrSize ^ n := lt_of_fls_le (not_lt.1 hfls)
    refine (h.down hp).congr ?_
    rw [Nat.div_eq_of_lt hlt, Nat.div_eq_of_lt (lt_of_le_of_lt hle hlt)]

/-- The pointer of an id, `k` levels below `p`. -/
def pointer (id : ℕ) : ℕ → Slot α → Slot α
  | 0, p => p
  | k + 1, p => (cell k p id).2

theorem OnPath.pointer_eq (h : OnPath idp id c) :
    pointer id c.n c.p = pointer id idp.layers idp.top := by
  induction h with
  | top => rfl
  | @down n paa p h hp ih =>
    rw [← ih]
    cases n <;> rfl

theorem OnPath.end_eq (h : OnPath idp id c) (hp : c.p.isNull = true) : reach idp id = c := by
  rw [← h.nextDown]
  obtain ⟨n, paa, p⟩ := c
  cases n with
  | zero => rfl
  | succ n => rw [IdAlloc.nextDown, if_pos hp]

/-- A path leads to the pointer of the id, or ends before at a null pointer if that is what it
is. -/
theorem Represents.reach_eq (h : Represents idp m) (hid : id < idrSize ^ idp.layers) :
    (reach idp id).p = (entry (m id)).2 := by
  rcases h.good.tree with hnl | hv
  · rw [OnPath.top.end_eq (by rw [hnl, isNull_null]), ← h.content, IdAlloc.content, hnl, holds_null]
  obtain ⟨hon, hz⟩ := reach_onPath idp id
  have ht : pointer id idp.layers idp.top = (entry (m id)).2 := by
    obtain ⟨l, hl⟩ := Nat.exists_eq_add_one.2 hv.pos
    rw [← h.content, content_of_lt hid, cells, hl]
    rfl
  rw [← ht, ← hon.pointer_eq]
  cases hp : (reach idp id).p with
  | null => cases (reach idp id).n <;> simp [pointer]
  | item a => rw [hz (by rw [hp, isNull_item]), pointer]
  | layer bm ary n l => rw [hz (by rw [hp, isNull_layer]), pointer]

theorem Represents.reach_item (h : Represents idp m) (hid : id < idrSize ^ idp.layers)
    (hp : (reach idp id).p.isNull = false) :
    ∃ a, (reach idp id).p = .item a ∧ m id = some (some a) := by
  rw [h.reach_eq hid] at hp ⊢
  rcases hm : m id with _ | _ | a
  · simp [hm, entry] at hp
  · simp [hm, entry, Slot.ofPtr] at hp
  · exact ⟨a, rfl, rfl⟩

/-! ### The walk -/

/-- What `idr_get_next` is to return for `s`: the first id in use from `s` on, and its pointer. -/
def IsNext (m : ℕ → Option (Option α)) (s : ℕ) : Option (ℕ × Slot α) → Prop
  | none => ∀ j, s ≤ j → m j = none
  | some (id, p) =>
    s ≤ id ∧ (∃ a, p = .item a ∧ m id = some (some a)) ∧ ∀ j, s ≤ j → j < id → m j = none

theorem OnPath.n_le (h : OnPath idp id c) : c.n ≤ idp.layers := by
  induction h with
  | top => exact le_rfl
  | down h hp ih => exact (Nat.le_succ _).trans ih

/-- A layer that starts in the tree ends in it. -/
theorem layer_le (hs : s < idrSize ^ idp.layers) (hd : idrSize ^ (reach idp s).n ∣ s) :
    s + idrSize ^ (reach idp s).n ≤ idrSize ^ idp.layers :=
  Nat.le_of_lt_add_of_dvd (Nat.add_lt_add_right hs _) (Nat.dvd_add hd dvd_rfl)
    (pow_dvd_pow idrSize (reach_onPath idp s).1.n_le)

/-- The ids of a missing layer have no pointers. -/
theorem Represents.missing (h : Represents idp m) (hs : s < idrSize ^ idp.layers)
    (hd : idrSize ^ (reach idp s).n ∣ s) (hp : (reach idp s).p.isNull = true) (hge : s ≤ id)
    (hlt : id < s + idrSize ^ (reach idp s).n) : (m id).join = none := by
  have hle := layer_le hs hd
  obtain ⟨r, rfl⟩ := Nat.exists_eq_add_of_le hge
  have heq : (s + r) / idrSize ^ (reach idp s).n = s / idrSize ^ (reach idp s).n := by
    rw [Nat.add_div_of_dvd_right hd, Nat.div_eq_of_lt (lt_of_add_lt_add_left hlt), add_zero]
  have hnull := h.reach_eq (show s + r < idrSize ^ idp.layers by omega)
  rw [((reach_onPath idp s).1.congr heq).end_eq hp] at hnull
  rw [← entry_item, ← hnull, eq_null_of_isNull hp]
  rfl

/-- The walk comes to a missing layer at its first id, as it comes from an id before it. -/
theorem dvd_next (hs : idrSize ^ (reach idp s).n ∣ s) :
    idrSize ^ (reach idp (s + idrSize ^ (reach idp s).n)).n ∣ s + idrSize ^ (reach idp s).n := by
  set k := (reach idp s).n
  set t := s + idrSize ^ k with ht
  set l := (reach idp t).n with hl
  have hd : idrSize ^ k ∣ t := Nat.dvd_add hs dvd_rfl
  rcases lt_or_ge k l with hlt | hle
  · obtain ⟨hon, he⟩ := reach_onPath idp t
    have hnl : (reach idp t).p.isNull = true := by
      by_contra hc
      have := he (by simpa using hc)
      omega
    have hne : s / idrSize ^ l ≠ t / idrSize ^ l := by
      intro heq
      have := congrArg Cursor.n ((hon.congr heq).end_eq hnl)
      omega
    have hb : s < t / idrSize ^ l * idrSize ^ l := by
      rw [← Nat.div_lt_iff_lt_mul (Nat.pow_pos (by decide))]
      exact lt_of_le_of_ne (Nat.div_le_div_right (by omega)) hne
    have hle : t ≤ t / idrSize ^ l * idrSize ^ l :=
      Nat.le_of_lt_add_of_dvd (Nat.add_lt_add_right hb _) hd
        ((pow_dvd_pow idrSize hlt.le).trans (dvd_mul_left _ _))
    exact (Nat.div_mul_le_self t _).antisymm hle ▸ dvd_mul_left _ _
  · exact (pow_dvd_pow idrSize hle).trans hd

theorem IsNext.skip (h : IsNext m id' r) (hle : id ≤ id')
    (hnone : ∀ j, id ≤ j → j < id' → m j = none) : IsNext m id r := by
  cases r with
  | none => exact fun j hj => (lt_or_ge j id').elim (hnone j hj) (h j)
  | some x =>
    obtain ⟨hx, hitem, hlater⟩ := h
    exact ⟨hle.trans hx, hitem, fun j hj hlt =>
      (lt_or_ge j id').elim (hnone j hj) fun hge => hlater j hge hlt⟩

/-- Ids 5 and 64 are in use. -/
def twoIds : ℕ → Option (Option ℕ) :=
  update (update (fun _ => none) 5 (some (some 7))) 64 (some (some 8))

/-- The layer of the ids 32 to 63 is missing. -/
theorem run_twoIds : ∃ idp : Idr ℕ, Run idp twoIds ∧ (reach idp 32).n = 1 := by
  have hres : ((idrGetNewAbove (idrPreGet (idrInit ℕ) 14).2 (some 7) 5).bind fun r =>
      (idrGetNewAbove r.1 (some 8) 64).map fun r' => (r.2, r'.2, (reach r'.1 32).n)) =
        some (.ok 5, .ok 64, 1) := by
    decide +kernel
  obtain ⟨⟨idp, r⟩, hget, hres⟩ := Option.bind_eq_some_iff.1 hres
  obtain ⟨⟨idp', r'⟩, hget', heq⟩ := Option.map_eq_some_iff.1 hres
  simp only [Prod.mk.injEq] at heq
  obtain ⟨rfl, rfl, hreach⟩ := heq
  have hrun := (Run.init.preGet 14).getNewAbove (some 7) 5 (by decide) (by simp) hget
  have hempty : {j | 64 ≤ j ∧ afterGet (fun _ => none) (some 7) (.ok 5) j ≠ none} = ∅ := by
    refine Set.eq_empty_of_forall_notMem fun j hj => hj.2 ?_
    have hne : j ≠ 5 := by
      rintro rfl
      exact absurd hj.1 (by decide)
    rw [afterGet, update_of_ne hne]
  exact ⟨idp', hrun.getNewAbove (some 8) 64 (by decide) (by simp [hempty]) hget', hreach⟩

variable {σ : Type*} {fn : ℕ → Slot α → σ → ℤ × σ}

/-- The loop of `idr_for_each`, which takes less than `fuel` turns. The callback returns an error
and changes the data. -/
def forEachLoop (fn : ℕ → Slot α → σ → ℤ × σ) (max : ℕ) : ℕ → ℕ → Cursor α → σ → Option (ℤ × σ)
  | 0, _, _, _ => none
  | fuel + 1, id, c, data =>
    if id < max then
      let c := nextDown id c.n c.paa c.p
      let r := if c.p.isNull then (0, data) else fn id c.p data
      if r.1 ≠ 0 then some r
      else
        let id := id + 1 <<< (c.n * 5)
        forEachLoop fn max fuel id (nextUp id c.n c.paa c.p) r.2
    else some (0, data)

def idrForEach (idp : Idr α) (fn : ℕ → Slot α → σ → ℤ × σ) (data : σ) : Option (ℤ × σ) :=
  forEachLoop fn (1 <<< (idp.layers * 5)) (1 <<< (idp.layers * 5) + 1) 0
    ⟨idp.layers, [], idp.top⟩ data

/-- The pointers that `n` ids from `s` on hold. -/
def stored (m : ℕ → Option (Option α)) (s n : ℕ) : List (ℕ × Slot α) :=
  (List.range' s n).filterMap fun id => (m id).join.map fun a => (id, .item a)

/-- A turn of the walk passes over the ids of a missing layer, or over one id. -/
theorem Represents.stored_eq (h : Represents idp m) (hs : s < idrSize ^ idp.layers)
    (hd : idrSize ^ (reach idp s).n ∣ s) : stored m s (idrSize ^ idp.layers - s) =
      (if (reach idp s).p.isNull then [] else [(s, (reach idp s).p)]) ++
        stored m (s + idrSize ^ (reach idp s).n)
          (idrSize ^ idp.layers - (s + idrSize ^ (reach idp s).n)) := by
  have hle := layer_le hs hd
  have hl : idrSize ^ idp.layers - s = idrSize ^ (reach idp s).n +
      (idrSize ^ idp.layers - (s + idrSize ^ (reach idp s).n)) := by omega
  rw [stored, hl, ← List.range'_append_1, List.filterMap_append]
  congr 1
  cases hp : (reach idp s).p.isNull with
  | false =>
    obtain ⟨a, hit, hm⟩ := h.reach_item hs hp
    simp [(reach_onPath idp s).2 hp, hit, hm]
  | true =>
    rw [if_pos rfl, List.filterMap_eq_nil_iff]
    intro j hj
    obtain ⟨hge, hlt⟩ := List.mem_range'_1.1 hj
    rw [h.missing hs hd hp hge hlt]
    rfl

theorem forEachLoop_spec (h : Represents idp m) (hfn : ∀ id p data, (fn id p data).1 = 0)
    (hc : OnPath idp s c) (hs : idrSize ^ (reach idp s).n ∣ s)
    (hfl : idrSize ^ idp.layers - s < fuel) (data : σ) :
    forEachLoop fn (idrSize ^ idp.layers) fuel s c data =
      some (0, (stored m s (idrSize ^ idp.layers - s)).foldl (fun data x => (fn x.1 x.2 data).2)
        data) := by
  induction fuel generalizing s c data with
  | zero => omega
  | succ fuel ih =>
    rw [forEachLoop]
    by_cases hlt : s < idrSize ^ idp.layers
    · have hp : 0 < idrSize ^ (reach idp s).n := Nat.pow_pos (by decide)
      have hnx := (reach_onPath idp s).1.nextUp (Nat.le_add_right s (idrSize ^ (reach idp s).n))
      rw [if_pos hlt, hc.nextDown, h.stored_eq hlt hs]
      dsimp only
      rw [one_shiftLeft_layers, ih hnx (dvd_next hs) (by omega)]
      cases (reach idp s).p.isNull <;> simp [hfn]
    · rw [if_neg hlt, Nat.sub_eq_zero_of_le (by omega)]
      rfl

/-- **`idr_for_each` calls the callback once for each id that holds a pointer**, in increasing
order, if no call fails. -/
theorem idrForEach_calls (h : Run idp m) (hfn : ∀ id p data, (fn id p data).1 = 0) (data : σ) :
    ∃ calls : List (ℕ × Slot α),
      idrForEach idp fn data = some (0, calls.foldl (fun data x => (fn x.1 x.2 data).2) data) ∧
      calls.Pairwise (fun x y => x.1 < y.1) ∧
      ∀ x, x ∈ calls ↔ ∃ a, x.2 = .item a ∧ m x.1 = some (some a) := by
  have hrep := h.represents
  refine ⟨stored m 0 (idrSize ^ idp.layers), ?_, ?_, fun x => ?_⟩
  · rw [idrForEach, one_shiftLeft_layers]
    exact forEachLoop_spec hrep hfn .top (Nat.dvd_zero _) (Nat.lt_succ_self _) data
  · refine List.Pairwise.filterMap _ (fun i j hij x hx y hy => ?_) (List.pairwise_lt_range' ..)
    obtain ⟨a, -, rfl⟩ := Option.map_eq_some_iff.1 hx
    obtain ⟨b, -, rfl⟩ := Option.map_eq_some_iff.1 hy
    exact hij
  rw [stored, List.mem_filterMap]
  constructor
  · rintro ⟨id, -, hx⟩
    obtain ⟨a, hm, rfl⟩ := Option.map_eq_some_iff.1 hx
    exact ⟨a, rfl, Option.join_eq_some_iff.1 hm⟩
  rintro ⟨a, hitem, hm⟩
  have hlt := (hrep.valid (show m x.1 ≠ none by simp [hm])).2.1
  exact ⟨x.1, List.mem_range'_1.2 ⟨Nat.zero_le _, by omega⟩, by simp [hm, ← hitem]⟩

/-- Ids 5 and 64 are in two layers of the tree. -/
theorem idrForEach_calls_two : ∃ idp : Idr ℕ, Run idp twoIds ∧ ∃ calls : List (ℕ × Slot ℕ),
    idrForEach idp (fun id _ n => (0, id + n)) 0 = some (0, calls.foldl (fun n x => x.1 + n) 0) ∧
      calls.Pairwise (fun x y => x.1 < y.1) ∧
      ∀ x, x ∈ calls ↔ ∃ a, x.2 = .item a ∧ twoIds x.1 = some (some a) := by
  obtain ⟨idp, hrun, -⟩ := run_twoIds
  exact ⟨idp, hrun, idrForEach_calls hrun (fun _ _ _ => rfl) 0⟩

end NestLinux.IdAlloc
