import NestLinux.Fs.Jffs2.Fragtree
import NestLinux.Lib.Extents

/-!
# What the JFFS2 fragment tree is for

The tree is a map from the bytes of a file to the data nodes that hold them: adding a
node writes its range, truncating forgets what lies beyond. `Layout` is that map. This
module says how a list of fragments stands for one (`ownerAt`), what the code relies on
about the fragments of its tree (`Laid`) and about its reference counts (`Counted`), and
what each step of the code does to these.
-/

namespace NestLinux.Jffs2

open Lib Function Frag

/-- Which node holds each byte of a file. -/
abbrev Layout := ℕ → Option FullDnode

def Layout.write (fn : FullDnode) (m : Layout) : Layout :=
  fun b => if fn.ofs ≤ b ∧ b < fn.ofs + fn.size then some fn else m b

/-- Forget the bytes from `size` on. -/
def Layout.truncate (size : ℕ) (m : Layout) : Layout := fun b => if b < size then m b else none

/-- A call that changed the file. -/
inductive Event
  | added (fn : FullDnode)
  | truncated (size : ℕ)
  deriving DecidableEq, Repr

/-- The most recently added node that covers a byte and was not cut off by a later
truncation; the history has its latest event first. -/
def latest : List Event → Layout
  | [] => fun _ => none
  | .added fn :: hist => (latest hist).write fn
  | .truncated size :: hist => (latest hist).truncate size

/-- The node a list of fragments gives for a byte. -/
def ownerAt (L : List Frag) : Layout := fun b => (extentAt ofs size b L).bind node

/-- Whether a fragment points at node `i`. -/
def pointsAt (i : ℕ) (f : Frag) : Bool := f.node.any (·.id == i)

/-- How many fragments point at node `i`. -/
def refs (i : ℕ) (L : List Frag) : ℕ := L.countP (pointsAt i)

/-- The tree holds the fragments `L`: non-empty, contiguous from offset 0, inside 32 bits,
each an object of its own that was allocated before. -/
structure Laid (s : Fragtree) (L : List Frag) : Prop where
  walk : inorder s.tree = L
  contig : Contig Frag.ofs Frag.size 0 L
  bound : extent Frag.size 0 L < 2 ^ 32
  nodup : (L.map Frag.id).Nodup
  fresh : ∀ f ∈ L, f.id < s.nextId

/-- The counts and flags of the nodes in `added` fit the fragments `L`, which point at no
other node; the flags of the other nodes are still those of `base`. -/
structure Counted (base : ℕ → RefFlags) (frags : ℕ → ℕ) (flags : ℕ → RefFlags) (added : Set ℕ)
    (L : List Frag) : Prop where
  frags_eq : ∀ i ∈ added, frags i = refs i L
  obsolete_iff : ∀ i ∈ added, flags i = .obsolete ↔ refs i L = 0
  mem_added : ∀ i, refs i L ≠ 0 → i ∈ added
  frame : ∀ i, i ∉ added → flags i = base i

/-! ### Owners of bytes -/

section Owner

variable {p b e : ℕ} {x n : Frag} {A B L : List Frag}

theorem ownerAt_cons :
    ownerAt (x :: L) b = if x.ofs ≤ b ∧ b < x.ofs + x.size then x.node else ownerAt L b := by
  rw [ownerAt, extentAt_cons]
  split_ifs <;> rfl

theorem ownerAt_append (h : Contig ofs size p (A ++ B)) :
    ownerAt (A ++ B) b = if b < extent size p A then ownerAt A b else ownerAt B b := by
  rw [ownerAt, h.extentAt_append]
  split_ifs <;> rfl

theorem ownerAt_of_le (h : Contig ofs size p L) (hb : extent size p L ≤ b) :
    ownerAt L b = none := by
  rw [ownerAt, h.extentAt_eq_none (.inr hb), Option.bind_none]

/-- What is left of the fragments `L` from offset `e` on. -/
def cutBelow (e : ℕ) : List Frag → List Frag
  | [] => []
  | y :: L =>
    if y.ofs + y.size ≤ e then cutBelow e L
    else if e = y.ofs then y :: L
    else { y with ofs := e, size := y.ofs + y.size - e } :: L

theorem contig_cutBelow (h : Contig ofs size p L) (hp : p ≤ e) :
    Contig ofs size e (cutBelow e L) := by
  induction L generalizing p with
  | nil => trivial
  | cons y L ih =>
    obtain ⟨hy, hps, hL⟩ := contig_cons.1 h
    rw [cutBelow]
    split_ifs with hc heq
    · exact ih hL (by omega)
    · exact ⟨heq.symm, hps, by rwa [heq, hy]⟩
    refine ⟨rfl, by dsimp only; omega, ?_⟩
    have he : e + (y.ofs + y.size - e) = p + y.size := by omega
    rwa [he]

theorem extent_cutBelow (h : Contig ofs size p L) (hp : p ≤ e) :
    extent size e (cutBelow e L) = max e (extent size p L) := by
  induction L generalizing p with
  | nil => simp [cutBelow, hp]
  | cons y L ih =>
    obtain ⟨hy, hps, hL⟩ := contig_cons.1 h
    rw [cutBelow, extent_cons]
    split_ifs with hc heq
    · exact ih hL (by omega)
    · have hle := le_extent size (p + y.size) L
      rw [extent_cons, heq, hy, max_eq_right (by omega)]
    have hle := le_extent size (p + y.size) L
    have he : e + (y.ofs + y.size - e) = p + y.size := by omega
    rw [extent_cons]
    rw [he, max_eq_right (by omega)]

theorem ownerAt_cutBelow (h : Contig ofs size p L) (hp : p ≤ e) (hb : e ≤ b) :
    ownerAt (cutBelow e L) b = ownerAt L b := by
  induction L generalizing p with
  | nil => rfl
  | cons y L ih =>
    obtain ⟨hy, hps, hL⟩ := contig_cons.1 h
    rw [cutBelow]
    split_ifs with hc heq
    · have ho : ¬ (y.ofs ≤ b ∧ b < y.ofs + y.size) := by omega
      rw [ih hL (by omega), ownerAt_cons, if_neg ho]
    · rfl
    rw [ownerAt_cons, ownerAt_cons]
    dsimp only
    by_cases hin : b < y.ofs + y.size
    · have hyb : y.ofs ≤ b := by omega
      rw [if_pos ⟨hb, by omega⟩, if_pos ⟨hyb, hin⟩]
    · rw [if_neg (by omega), if_neg (by omega)]

theorem map_id_cutBelow_sublist :
    ((cutBelow e L).map Frag.id).Sublist (L.map Frag.id) := by
  induction L with
  | nil => exact .slnil
  | cons y L ih =>
    rw [cutBelow]
    split_ifs
    · exact .cons _ ih
    · exact .refl _
    · exact .refl _

/-- The fragments `L'` are `L` with the node `fn` written over it. -/
structure Overwrites (fn : FullDnode) (L L' : List Frag) : Prop where
  contig : Contig ofs size 0 L'
  extent_eq : extent size 0 L' = max (fn.ofs + fn.size) (extent size 0 L)
  owner : ownerAt L' = (ownerAt L).write fn

/-- The fragment of a node covers what the node covers. -/
structure IsFragOf (fn : FullDnode) (n : Frag) : Prop where
  ofs_eq : n.ofs = fn.ofs
  size_eq : n.size = fn.size
  node_eq : n.node = some fn
  pos : 0 < fn.size

/-- **Writing in the middle.** The new fragment stands between fragments that agree with
the old ones before it and behind it. -/
theorem overwrites_of {fn : FullDnode} {R pre post : List Frag} (hn : IsFragOf fn n)
    (h : Contig ofs size 0 (A ++ R)) (hA : extent size 0 A ≤ fn.ofs)
    (hp : Contig ofs size (extent size 0 A) pre)
    (hpreEnd : extent size (extent size 0 A) pre = fn.ofs)
    (hpreOwner : ∀ b, extent size 0 A ≤ b → b < fn.ofs → ownerAt pre b = ownerAt R b)
    (hps : Contig ofs size (fn.ofs + fn.size) post)
    (hpostEnd : extent size (fn.ofs + fn.size) post =
      max (fn.ofs + fn.size) (extent size (extent size 0 A) R))
    (hpostOwner : ∀ b, fn.ofs + fn.size ≤ b → ownerAt post b = ownerAt R b) :
    Overwrites fn (A ++ R) (A ++ (pre ++ n :: post)) := by
  have hmid : Contig ofs size (extent size 0 A) (pre ++ n :: post) := by
    rw [contig_append, contig_cons, hpreEnd, hn.ofs_eq, hn.size_eq]
    exact ⟨hp, rfl, hn.pos, hps⟩
  have hnw : Contig ofs size 0 (A ++ (pre ++ n :: post)) := by
    rw [contig_append] at h ⊢
    exact ⟨h.1, hmid⟩
  refine ⟨hnw, ?_, ?_⟩
  · rw [extent_append, extent_append, extent_cons, hpreEnd, hn.size_eq, hpostEnd, extent_append]
  funext b
  rw [Layout.write, ownerAt_append h, ownerAt_append hnw, ownerAt_append hmid, hpreEnd,
    ownerAt_cons, hn.ofs_eq, hn.size_eq, hn.node_eq]
  by_cases hbA : b < extent size 0 A
  · rw [if_pos hbA, if_pos hbA, if_neg (by omega)]
  rw [if_neg hbA, if_neg hbA]
  by_cases hbp : b < fn.ofs
  · rw [if_pos hbp, if_neg (by omega), hpreOwner b (by omega) hbp]
  rw [if_neg hbp]
  by_cases hbfn : fn.ofs ≤ b ∧ b < fn.ofs + fn.size
  · rw [if_pos hbfn, if_pos hbfn]
  · rw [if_neg hbfn, if_neg hbfn, hpostOwner b (by omega)]

/-- The end of a fragment that stays valid. -/
theorem ownerAt_rest {x' : Frag} (hnd : x'.node = x.node)
    (he : x'.ofs + x'.size = x.ofs + x.size) (ho : x.ofs ≤ x'.ofs) (hb : x'.ofs ≤ b) :
    ownerAt (x' :: B) b = ownerAt (x :: B) b := by
  rw [ownerAt_cons, ownerAt_cons, hnd, he]
  by_cases hin : b < x.ofs + x.size
  · rw [if_pos ⟨hb, hin⟩, if_pos ⟨by omega, hin⟩]
  · rw [if_neg (by omega), if_neg (by omega)]

end Owner

/-! ### References to nodes -/

section Refs

variable {i : ℕ} {base : ℕ → RefFlags} {frags : ℕ → ℕ} {flags : ℕ → RefFlags} {added : Set ℕ}
  {x : Frag}
  {A B L L' : List Frag} {fn : FullDnode}

@[simp] theorem refs_nil : refs i [] = 0 := rfl

theorem refs_cons : refs i (x :: L) = refs i L + if pointsAt i x then 1 else 0 :=
  List.countP_cons

@[simp] theorem refs_append : refs i (A ++ B) = refs i A + refs i B := List.countP_append

theorem refs_le_length : refs i L ≤ L.length := List.countP_le_length

theorem pointsAt_of_node_eq (h : x.node = some fn) : pointsAt i x = decide (fn.id = i) := by
  simp [pointsAt, h, beq_eq_decide]

theorem pointsAt_congr {y : Frag} (h : y.node = x.node) : pointsAt i y = pointsAt i x := by
  rw [pointsAt, h, pointsAt]

theorem refs_ne_zero_of_mem (hx : x ∈ L) (h : x.node = some fn) : refs fn.id L ≠ 0 := by
  have hp : 0 < refs fn.id L :=
    List.countP_pos_iff.2 ⟨x, hx, by simp [pointsAt_of_node_eq h]⟩
  omega

section

variable (h : Counted base frags flags added L)

include h

/-- Only how often each node is pointed at matters. -/
theorem Counted.congr (hL : ∀ i, refs i L' = refs i L) : Counted base frags flags added L' where
  frags_eq i hi := by rw [hL, h.frags_eq i hi]
  obsolete_iff i hi := by rw [hL, h.obsolete_iff i hi]
  mem_added i hi := h.mem_added i (hL i ▸ hi)
  frame := h.frame

/-- Any mark but the obsolete one may be put on a node in use. -/
theorem Counted.mark (flag : RefFlags) (hfl : flag ≠ .obsolete) (hi : refs i L ≠ 0) :
    Counted base frags (update flags i flag) added L where
  frags_eq := h.frags_eq
  obsolete_iff j hj := by
    by_cases hji : j = i
    · subst hji
      simp [hfl, hi]
    · rw [update_of_ne hji, h.obsolete_iff j hj]
  mem_added := h.mem_added
  frame j hj := by
    have hji : j ≠ i := fun hji => hj (hji ▸ h.mem_added i hi)
    rw [update_of_ne hji, h.frame j hj]

omit h in
/-- `mark_ref_normal` on the node of a fragment in use. -/
theorem Counted.markNode {s : Fragtree} (h : Counted base s.frags s.flags added L) (hx : x ∈ L) :
    Counted base (markNodeNormal x.node s).frags (markNodeNormal x.node s).flags added L := by
  cases hnd : x.node with
  | none => exact h
  | some fn => exact h.mark .normal (by simp) (refs_ne_zero_of_mem hx hnd)

/-- **Changing one node.** The fragments change only in how many point at node `i`, and
its count and flag follow. -/
theorem Counted.update (i : ℕ) (flag : RefFlags)
    (ho : ∀ j, j ≠ i → refs j L' = refs j L) (hfl : flag = .obsolete ↔ refs i L' = 0) :
    Counted base (Function.update frags i (refs i L')) (Function.update flags i flag)
      (insert i added) L' := by
  refine ⟨?_, ?_, ?_, ?_⟩
  · intro j hj
    by_cases hji : j = i
    · subst hji
      simp
    · rw [update_of_ne hji, h.frags_eq j (hj.resolve_left hji), ho j hji]
  · intro j hj
    by_cases hji : j = i
    · subst hji
      simpa using hfl
    · rw [update_of_ne hji, h.obsolete_iff j (hj.resolve_left hji), ho j hji]
  · intro j hj
    by_cases hji : j = i
    · exact .inl hji
    · exact .inr (h.mem_added j (by rwa [← ho j hji]))
  · intro j hj
    obtain ⟨hji, hj⟩ := not_or.1 hj
    rw [update_of_ne hji, h.frame j hj]

omit h in
theorem refs_cons_of_ne {j : ℕ} (hnd : x.node = some fn) (hj : j ≠ fn.id) :
    refs j (x :: L) = refs j L := by
  simp [refs_cons, pointsAt_of_node_eq hnd, Ne.symm hj]

omit h in
theorem refs_cons_self (hnd : x.node = some fn) : refs fn.id (x :: L) = refs fn.id L + 1 := by
  simp [refs_cons, pointsAt_of_node_eq hnd]

omit h in
theorem refs_cons_hole (hnd : x.node = none) : refs i (x :: L) = refs i L := by
  simp [refs_cons, pointsAt, hnd]

omit h in
/-- **Dropping a fragment.** `jffs2_obsolete_node_frag` leaves the counts of the other
fragments, and marks the node obsolete if this was the last one. -/
theorem Counted.drop {s : Fragtree}
    (h : Counted base s.frags s.flags added (x :: L)) (hl : L.length < 2 ^ 32) :
    Counted base (obsoleteNodeFrag x s).frags (obsoleteNodeFrag x s).flags added L := by
  cases hnd : x.node with
  | none =>
    rw [obsoleteNodeFrag, hnd]
    exact h.congr fun i => (refs_cons_hole hnd).symm
  | some fn =>
    have ho := refs_cons_self (L := L) hnd
    have hm : fn.id ∈ added := h.mem_added fn.id (by omega)
    have hc : sub32 (s.frags fn.id) 1 = refs fn.id L := by
      have hle := refs_le_length (i := fn.id) (L := L)
      rw [h.frags_eq fn.id hm, ho, sub32_of_le (by omega) (by omega), Nat.add_sub_cancel]
    have hn : ∀ flag : RefFlags, (flag = .obsolete ↔ refs fn.id L = 0) →
        Counted base (Function.update s.frags fn.id (refs fn.id L))
          (Function.update s.flags fn.id flag) added L := by
      intro flag hfl
      have hupd := h.update fn.id flag (fun j hj => (refs_cons_of_ne hnd hj).symm) hfl
      rwa [Set.insert_eq_of_mem hm] at hupd
    rw [obsoleteNodeFrag, hnd]
    dsimp only
    rw [hc]
    split_ifs with hz
    · exact hn .obsolete (iff_of_true rfl hz)
    · exact hn .normal (iff_of_false (by simp) hz)

theorem Counted.addNode (hnd : x.node = some fn)
    (hfr : fn.id ∉ added) (hfl : flags fn.id ≠ .obsolete) :
    Counted base (Function.update frags fn.id 1) flags (insert fn.id added) (x :: L) := by
  have hz : refs fn.id L = 0 := by
    by_contra hne
    exact hfr (h.mem_added fn.id hne)
  have ho : refs fn.id (x :: L) = 1 := by rw [refs_cons_self hnd, hz]
  have hupd := h.update fn.id (flags fn.id) (fun j hj => refs_cons_of_ne hnd hj)
    (iff_of_false hfl (by omega))
  rwa [update_eq_self, ho] at hupd

omit h in
/-- A new node that did not make it into the tree is out of sight again. -/
theorem Counted.forget (h : Counted base frags flags (insert fn.id added) (x :: L))
    (hnd : x.node = some fn) (hfr : fn.id ∉ added) (hz : refs fn.id L = 0) :
    Counted flags frags flags added L := by
  have ho : ∀ j, j ≠ fn.id → refs j (x :: L) = refs j L := fun j hj => refs_cons_of_ne hnd hj
  refine ⟨?_, ?_, ?_, fun _ _ => rfl⟩
  · intro j hj
    have hji : j ≠ fn.id := fun hji => hfr (hji ▸ hj)
    rw [h.frags_eq j (.inr hj), ho j hji]
  · intro j hj
    have hji : j ≠ fn.id := fun hji => hfr (hji ▸ hj)
    rw [h.obsolete_iff j (.inr hj), ho j hji]
  intro j hj
  have hji : j ≠ fn.id := fun hji => hj (hji ▸ hz)
  exact (h.mem_added j (by rwa [ho j hji])).resolve_left hji

/-- From now on the flags are compared with the current ones. -/
theorem Counted.rebase : Counted flags frags flags added L :=
  ⟨h.frags_eq, h.obsolete_iff, h.mem_added, fun _ _ => rfl⟩

/-- A second fragment of the node of a fragment in use. -/
theorem Counted.split (hx : x ∈ L) {y : Frag}
    (hy : y.node = x.node) (hl : L.length + 1 < 2 ^ 32) :
    Counted base (x.node.elim frags fun node =>
      Function.update frags node.id (add32 (frags node.id) 1)) flags added (y :: L) := by
  cases hnd : x.node with
  | none => exact h.congr fun i => refs_cons_hole (hy.trans hnd)
  | some fn =>
    have hyn : y.node = some fn := hy.trans hnd
    have hne := refs_ne_zero_of_mem hx hnd
    have hm := h.mem_added fn.id hne
    have hc : add32 (frags fn.id) 1 = refs fn.id (y :: L) := by
      have hle := refs_le_length (i := fn.id) (L := L)
      rw [h.frags_eq fn.id hm, refs_cons_self hyn, add32_of_lt (by omega)]
    have hfl : flags fn.id = .obsolete ↔ refs fn.id (y :: L) = 0 := by
      rw [h.obsolete_iff fn.id hm, refs_cons_self hyn]
      omega
    have hupd := h.update fn.id _ (fun j hj => refs_cons_of_ne hyn hj) hfl
    rwa [update_eq_self, Set.insert_eq_of_mem hm, ← hc] at hupd

end

end Refs

end NestLinux.Jffs2
