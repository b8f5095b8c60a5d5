import NestLinux.RbTree.Model
import Mathlib.Data.List.Nodup

/-!
# Trees on the heap

A tree is on the heap if each node of it holds its colour, its parent and its children. A place
in a tree is the node, or the null pointer, below a path; a change at the place keeps the path.
What one statement of the source does is a change of the tree at some place.
-/

namespace NestLinux.RbTree

open Lib Lib.Tree Function
open List hiding nil

variable {h h' : Heap} {w p q a : ℕ} {c : Color} {d : Side} {t x y m : Lib.Tree ℕ} {f : Frame ℕ}
  {fs gs S : List (Frame ℕ)} {e : Side} {b up old : ℕ} {l : List ℕ}

/-! ### The word -/

theorem testBit_three (i : ℕ) : Nat.testBit 3 i = decide (i < 2) :=
  Nat.testBit_two_pow_sub_one 2 i

theorem testBit_one (i : ℕ) : Nat.testBit 1 i = decide (0 = i) := @Nat.testBit_two_pow 0 i

theorem testBit_of_dvd (hp : 4 ∣ p) {i : ℕ} (hi : i < 2) : p.testBit i = false := by
  obtain ⟨k, rfl⟩ := hp
  have hmul := @Nat.testBit_two_pow_mul 2 k i
  rw [hmul, decide_eq_false (by omega), Bool.false_and]

theorem colorOf_eq : colorOf w = if w.testBit 0 then .black else .red := by
  rw [colorOf]
  by_cases hw : w % 2 = 0
  · simp [hw]
  · simp [show w % 2 = 1 by omega]

@[simp] theorem parentOf_withParent (hp : 4 ∣ p) : parentOf (withParent w p) = p := by
  apply Nat.eq_of_testBit_eq
  intro i
  rw [parentOf, withParent, Nat.testBit_ldiff, Nat.testBit_or, Nat.testBit_and, testBit_three]
  by_cases hi : i < 2
  · simp [testBit_of_dvd hp hi]
  · simp [hi]

@[simp] theorem colorOf_withParent (hp : 4 ∣ p) : colorOf (withParent w p) = colorOf w := by
  rw [colorOf_eq, colorOf_eq, withParent, Nat.testBit_or, Nat.testBit_and,
    testBit_of_dvd hp (by omega)]
  simp

theorem parentOf_congr {w' : ℕ} (hbt : ∀ i, 2 ≤ i → w.testBit i = w'.testBit i) :
    parentOf w = parentOf w' := by
  apply Nat.eq_of_testBit_eq
  intro i
  rw [parentOf, parentOf, Nat.testBit_ldiff, Nat.testBit_ldiff, testBit_three]
  by_cases hi : i < 2
  · simp [hi]
  · simp [hbt i (by omega)]

@[simp] theorem parentOf_withColor : parentOf (withColor w c) = parentOf w := by
  refine parentOf_congr fun i hi => ?_
  rw [withColor, Nat.testBit_or, Nat.testBit_ldiff, testBit_one, decide_eq_false (by omega)]
  cases c <;> simp [colorBit, testBit_one]
  omega

@[simp] theorem colorOf_withColor : colorOf (withColor w c) = c := by
  rw [colorOf_eq, withColor, Nat.testBit_or, Nat.testBit_ldiff]
  cases c <;> simp [colorBit]

@[simp] theorem parentOf_withRed : parentOf (withRed w) = parentOf w := by
  refine parentOf_congr fun i hi => ?_
  rw [withRed, Nat.testBit_ldiff, testBit_one, decide_eq_false (by omega)]
  simp

@[simp] theorem colorOf_withRed : colorOf (withRed w) = .red := by
  rw [colorOf_eq, withRed, Nat.testBit_ldiff]
  simp

@[simp] theorem parentOf_withBlack : parentOf (withBlack w) = parentOf w := by
  refine parentOf_congr fun i hi => ?_
  rw [withBlack, Nat.testBit_or, testBit_one, decide_eq_false (by omega)]
  simp

@[simp] theorem colorOf_withBlack : colorOf (withBlack w) = .black := by
  rw [colorOf_eq, withBlack, Nat.testBit_or]
  simp

theorem parentOf_self (hp : 4 ∣ p) : parentOf p = p := by
  apply Nat.eq_of_testBit_eq
  intro i
  rw [parentOf, Nat.testBit_ldiff, testBit_three]
  by_cases hi : i < 2
  · simp [testBit_of_dvd hp hi]
  · simp [hi]

theorem colorOf_of_dvd (hp : 4 ∣ p) : colorOf p = .red := by
  rw [colorOf_eq, testBit_of_dvd hp (by omega)]
  rfl

/-! ### Access -/

@[simp] theorem deref_of_ne {α : Type} (ha : a ≠ 0) (x : α) : deref a x = some x := if_neg ha

section Access

variable (ha : a ≠ 0)

include ha

theorem rbParent_of_ne : rbParent h a = some (parentOf (h.word a)) := deref_of_ne ha _

theorem rbColor_of_ne : rbColor h a = some (colorOf (h.word a)) := deref_of_ne ha _

theorem rbChild_of_ne : rbChild h d a = some (h.child d a) := deref_of_ne ha _

theorem isRed_of_ne : isRed h a = some (decide (colorOf (h.word a) = .red)) := by
  rw [isRed, if_neg ha, rbColor_of_ne ha]
  rfl

end Access

@[simp] theorem putWord_word : (putWord h a w).word = update h.word a w := rfl

@[simp] theorem putWord_child : (putWord h a w).child = h.child := rfl

@[simp] theorem putWord_root : (putWord h a w).root = h.root := rfl

@[simp] theorem putChild_word : (putChild h d a p).word = h.word := rfl

@[simp] theorem putChild_root : (putChild h d a p).root = h.root := rfl

theorem putChild_self : (putChild h d a p).child d a = p := by simp [putChild]

theorem putChild_of_side (he : e ≠ d) (b : ℕ) :
    (putChild h d a p).child e b = h.child e b := by simp [putChild, he]

theorem putChild_of_ne (hb : b ≠ a) : (putChild h d a p).child e b = h.child e b := by
  by_cases he : e = d
  · subst he
    simp [putChild, hb]
  · exact putChild_of_side he b

@[simp] theorem putRoot_word : (putRoot h p).word = h.word := rfl

@[simp] theorem putRoot_child : (putRoot h p).child = h.child := rfl

@[simp] theorem putRoot_root : (putRoot h p).root = p := rfl

/-! ### Trees and paths -/

def Addr (a : ℕ) : Prop := a ≠ 0 ∧ 4 ∣ a

def ptr : Lib.Tree ℕ → ℕ
  | .nil => 0
  | .node _ a _ _ => a

@[simp] theorem ptr_nil : ptr .nil = 0 := rfl

@[simp] theorem ptr_join : ptr (join d c a x y) = a := by cases d <;> rfl

/-- The tree is on the heap, below the node `up`. -/
def Rep (h : Heap) : ℕ → Lib.Tree ℕ → Prop
  | _, .nil => True
  | up, .node c a l r =>
    Addr a ∧ parentOf (h.word a) = up ∧ colorOf (h.word a) = c ∧
      (h.child .left a = ptr l ∧ Rep h a l) ∧ h.child .right a = ptr r ∧ Rep h a r

theorem rep_join : Rep h up (join d c a x y) ↔
    Addr a ∧ parentOf (h.word a) = up ∧ colorOf (h.word a) = c ∧
      (h.child d a = ptr x ∧ Rep h a x) ∧ h.child d.flip a = ptr y ∧ Rep h a y := by
  cases d with
  | left => rfl
  | right =>
    refine and_congr_right fun _ => and_congr_right fun _ => and_congr_right fun _ => ?_
    exact and_comm

def top : List (Frame ℕ) → ℕ
  | [] => 0
  | f :: _ => f.label

/-- The path is on the heap, with the pointer `p` to the place below it. -/
def RepPath (h : Heap) : List (Frame ℕ) → ℕ → Prop
  | [], p => h.root = p
  | f :: fs, p =>
    Addr f.label ∧ parentOf (h.word f.label) = top fs ∧ colorOf (h.word f.label) = f.color ∧
      (h.child f.side f.label = p ∧ h.child f.side.flip f.label = ptr f.sibling ∧
        Rep h f.label f.sibling) ∧ RepPath h fs f.label

/-- The nodes of a path and of what hangs off it. -/
def pathNodes : List (Frame ℕ) → List ℕ
  | [] => []
  | f :: fs => f.label :: (f.sibling.inorder ++ pathNodes fs)

/-- The heaps agree on some nodes. -/
def Same (h h' : Heap) (l : List ℕ) : Prop :=
  ∀ a ∈ l, h'.word a = h.word a ∧ ∀ d, h'.child d a = h.child d a

theorem Same.mono {l' : List ℕ} (hs : Same h h' l) (hl : l' ⊆ l) : Same h h' l' :=
  fun a ha => hs a (hl ha)

theorem Same.trans {k : Heap} (hs : Same h h' l) (hs' : Same h' k l) : Same h k l :=
  fun a ha => ⟨(hs' a ha).1.trans (hs a ha).1, fun d => ((hs' a ha).2 d).trans ((hs a ha).2 d)⟩

theorem same_putWord (ha : a ∉ l) : Same h (putWord h a w) l :=
  fun _ hb => ⟨update_of_ne (ne_of_mem_of_not_mem hb ha) _ _, fun _ => rfl⟩

theorem same_putChild (ha : a ∉ l) : Same h (putChild h d a p) l :=
  fun _ hb => ⟨rfl, fun _ => putChild_of_ne (ne_of_mem_of_not_mem hb ha)⟩

theorem same_putRoot : Same h (putRoot h p) l := fun _ _ => ⟨rfl, fun _ => rfl⟩

/-- A tree stays on the heap if its nodes stay the same. -/
theorem Rep.frame (hr : Rep h up t) (hs : Same h h' t.inorder) : Rep h' up t := by
  induction t generalizing up with
  | nil => trivial
  | node c a l r ihl ihr =>
    obtain ⟨had, hup, hc, ⟨hl, hrl⟩, hrr, hr⟩ := hr
    have ha := hs a (by simp [Lib.Tree.inorder])
    refine ⟨had, ?_, ?_, ⟨?_, ?_⟩, ?_, ?_⟩
    · rw [ha.1, hup]
    · rw [ha.1, hc]
    · rw [ha.2, hl]
    · exact ihl hrl (hs.mono fun b hb => by simp [Lib.Tree.inorder, hb])
    · rw [ha.2, hrr]
    · exact ihr hr (hs.mono fun b hb => by simp [Lib.Tree.inorder, hb])

theorem ptr_eq_zero_or_mem : ptr t = 0 ∨ ptr t ∈ t.inorder := by
  cases t with
  | nil => exact .inl rfl
  | node c a l r => exact .inr (by simp [ptr, Lib.Tree.inorder])

theorem Rep.ptr_ne_zero (hr : Rep h up t) (ht : t ≠ .nil) : ptr t ≠ 0 := by
  cases t with
  | nil => exact absurd rfl ht
  | node c a l r => exact hr.1.1

/-- A tree is moved below another node: only the word of its root changes. -/
theorem Rep.reparent {up' : ℕ} (hr : Rep h up t) (hup : 4 ∣ up') (hnd : t.inorder.Nodup)
    (hword : t ≠ .nil → h'.word (ptr t) = withParent (h.word (ptr t)) up')
    (hs : Same h h' (t.inorder.erase (ptr t))) (hch : ∀ d, h'.child d (ptr t) = h.child d (ptr t)) :
    Rep h' up' t := by
  cases t with
  | nil => trivial
  | node c a l r =>
    obtain ⟨had, hold, hc, ⟨hl, hrl⟩, hrr, hr⟩ := hr
    have hw := hword (by simp)
    simp only [ptr] at hw hs hch
    rw [Lib.Tree.inorder, nodup_middle, nodup_cons, mem_append, not_or] at hnd
    have hm {b : ℕ} (hb : b ∈ l.inorder ∨ b ∈ r.inorder) :
        b ∈ (node c a l r).inorder.erase a := by
      have hne : b ≠ a := by
        rintro rfl
        exact hb.elim hnd.1.1 hnd.1.2
      rw [mem_erase_of_ne hne, Lib.Tree.inorder]
      simp only [mem_append, mem_cons]
      exact hb.elim .inl fun hb => .inr (.inr hb)
    refine ⟨had, ?_, ?_, ⟨?_, ?_⟩, ?_, ?_⟩
    · rw [hw, parentOf_withParent hup]
    · rw [hw, colorOf_withParent hup, hc]
    · rw [hch, hl]
    · exact hrl.frame (hs.mono fun b hb => hm (.inl hb))
    · rw [hch, hrr]
    · exact hr.frame (hs.mono fun b hb => hm (.inr hb))

/-! ### Places -/

/-- The tree `t` is at the place below the path. -/
structure At (h : Heap) (fs : List (Frame ℕ)) (t : Lib.Tree ℕ) : Prop where
  path : RepPath h fs (ptr t)
  tree : Rep h (top fs) t
  nodup : (t.inorder ++ pathNodes fs).Nodup

/-- The call ends without following a null pointer, with a red-black tree of the nodes `l`. -/
def Yields (res : Option Heap) (l : List ℕ) : Prop :=
  ∃ h T, res = some h ∧ At h [] T ∧ Valid T ∧ T.inorder = l

theorem perm_fill (f : Frame ℕ) (fs : List (Frame ℕ)) (t : Lib.Tree ℕ) :
    ((f.fill t).inorder ++ pathNodes fs).Perm (t.inorder ++ pathNodes (f :: fs)) := by
  have hjn : (f.fill t).inorder.Perm (f.label :: (t.inorder ++ f.sibling.inorder)) :=
    perm_inorder_join
  refine (hjn.append_right _).trans ?_
  rw [cons_append, append_assoc]
  exact perm_middle.symm

theorem perm_plug (fs : List (Frame ℕ)) (t : Lib.Tree ℕ) :
    (plug fs t).inorder.Perm (t.inorder ++ pathNodes fs) := by
  induction fs generalizing t with
  | nil => exact .of_eq (append_nil _).symm
  | cons f fs ih => exact (ih (f.fill t)).trans (perm_fill f fs t)

theorem length_le_pathNodes (fs : List (Frame ℕ)) : fs.length ≤ (pathNodes fs).length := by
  induction fs with
  | nil => exact le_refl 0
  | cons f fs ih =>
    simp only [pathNodes, length_cons, length_append]
    omega

/-- A path is no longer than the tree is large. -/
theorem length_le_plug (fs : List (Frame ℕ)) (t : Lib.Tree ℕ) :
    fs.length ≤ (plug fs t).inorder.length := by
  have := length_le_pathNodes fs
  rw [(perm_plug fs t).length_eq, length_append]
  omega

theorem at_cons : At h (f :: fs) t ↔ At h fs (f.fill t) := by
  have hno := (perm_fill f fs t).nodup_iff
  constructor
  · rintro ⟨⟨had, hup, hc, ⟨hp, hsib, hr⟩, hrs⟩, htr, hnd⟩
    refine ⟨?_, ?_, hno.2 hnd⟩
    · rw [Frame.fill, ptr_join]
      exact hrs
    · exact rep_join.2 ⟨had, hup, hc, ⟨hp, htr⟩, hsib, hr⟩
  · rintro ⟨hph, htr, hnd⟩
    rw [Frame.fill, ptr_join] at hph
    obtain ⟨had, hup, hc, ⟨hp, htr⟩, hsib, hr⟩ := rep_join.1 htr
    exact ⟨⟨had, hup, hc, ⟨hp, hsib, hr⟩, hph⟩, htr, hno.1 hnd⟩

theorem at_plug : At h fs t ↔ At h [] (plug fs t) := by
  induction fs generalizing t with
  | nil => rfl
  | cons f fs ih => exact at_cons.trans ih

/-! ### Pieces of a path -/

/-- The node above a place, if `up` is above the piece. -/
def topOr (up : ℕ) : List (Frame ℕ) → ℕ
  | [] => up
  | f :: _ => f.label

/-- The pointer to the uppermost node of a piece, or to the place below it if it is empty. -/
def lower : List (Frame ℕ) → ℕ → ℕ
  | [], p => p
  | f :: S, _ => lower S f.label

/-- The piece is on the heap below the node `up`, with the pointer `p` to the place below it. -/
def RepSeg (h : Heap) (up : ℕ) : List (Frame ℕ) → ℕ → Prop
  | [], _ => True
  | f :: S, p =>
    Addr f.label ∧ parentOf (h.word f.label) = topOr up S ∧ colorOf (h.word f.label) = f.color ∧
      (h.child f.side f.label = p ∧ h.child f.side.flip f.label = ptr f.sibling ∧
        Rep h f.label f.sibling) ∧ RepSeg h up S f.label

theorem top_append : top (S ++ gs) = topOr (top gs) S := by
  cases S <;> rfl

theorem pathNodes_append :
    pathNodes (S ++ gs) = pathNodes S ++ pathNodes gs := by
  induction S with
  | nil => rfl
  | cons f S ih => simp [pathNodes, ih]

theorem lower_mem (f : Frame ℕ) (S : List (Frame ℕ)) (p : ℕ) :
    lower (f :: S) p ∈ pathNodes (f :: S) := by
  induction S generalizing f with
  | nil => simp [lower, pathNodes]
  | cons g S ih =>
    have hm := ih g
    simp only [pathNodes, mem_cons, mem_append] at hm ⊢
    exact .inr (.inr hm)

theorem repPath_append :
    RepPath h (S ++ gs) p ↔ RepSeg h (top gs) S p ∧ RepPath h gs (lower S p) := by
  induction S generalizing p with
  | nil => simp [RepSeg, lower]
  | cons f S ih =>
    rw [cons_append, RepPath, RepSeg, ih, top_append, lower]
    simp only [and_assoc]

theorem repPath_iff : RepPath h fs p ↔ RepSeg h 0 fs p ∧ h.root = lower fs p := by
  rw [← append_nil fs, repPath_append, append_nil]
  rfl

theorem RepSeg.frame (hr : RepSeg h up S p) (hs : Same h h' (pathNodes S)) : RepSeg h' up S p := by
  induction S generalizing p with
  | nil => trivial
  | cons f S ih =>
    obtain ⟨had, hup, hc, ⟨hp, hsib, hrp⟩, hrs⟩ := hr
    have ha := hs f.label (by simp [pathNodes])
    refine ⟨had, ?_, ?_, ⟨?_, ?_, ?_⟩, ?_⟩
    · rw [ha.1, hup]
    · rw [ha.1, hc]
    · rw [ha.2, hp]
    · rw [ha.2, hsib]
    · exact hrp.frame (hs.mono fun b hb => by simp [pathNodes, hb])
    · exact ih hrs (hs.mono fun b hb => by simp [pathNodes, hb])

/-- A path stays on the heap if its nodes and the root stay the same. -/
theorem RepPath.frame (hr : RepPath h fs p) (hs : Same h h' (pathNodes fs))
    (hro : h'.root = h.root) : RepPath h' fs p := by
  rw [repPath_iff] at hr ⊢
  exact ⟨hr.1.frame hs, hro.trans hr.2⟩

/-- The piece gets another pointer to the place below it. -/
theorem RepSeg.relink (hr : RepSeg h up (f :: S) p) (hnd : (pathNodes (f :: S)).Nodup)
    (new : ℕ) : RepSeg (putChild h f.side f.label new) up (f :: S) new := by
  obtain ⟨had, hup, hc, ⟨-, hsib, hrp⟩, hrs⟩ := hr
  have hlab : f.label ∉ f.sibling.inorder ++ pathNodes S := (nodup_cons.1 hnd).1
  rw [mem_append, not_or] at hlab
  refine ⟨had, hup, hc, ⟨putChild_self, ?_, ?_⟩, ?_⟩
  · rw [putChild_of_side (Side.flip_ne _), hsib]
  · exact hrp.frame (same_putChild hlab.1)
  · exact hrs.frame (same_putChild hlab.2)

/-! ### The link from above -/

/-- The heap with another pointer to the place. -/
def relink (h : Heap) : List (Frame ℕ) → ℕ → Heap
  | [], new => putRoot h new
  | f :: _, new => putChild h f.side f.label new

theorem relink_word (fs : List (Frame ℕ)) (new : ℕ) : (relink h fs new).word = h.word := by
  cases fs <;> rfl

theorem same_relink (hl : ∀ a ∈ l, a ∉ pathNodes fs) (new : ℕ) : Same h (relink h fs new) l := by
  cases fs with
  | nil => exact same_putRoot
  | cons f fs => exact same_putChild fun hm => hl f.label hm (by simp [pathNodes])

theorem RepPath.relink (hr : RepPath h fs old) (hnd : (pathNodes fs).Nodup) (new : ℕ) :
    RepPath (relink h fs new) fs new := by
  cases fs with
  | nil => rfl
  | cons f fs =>
    rw [repPath_iff] at hr ⊢
    exact ⟨hr.1.relink hnd new, hr.2⟩

theorem replaceChild_eq (d : Side) (hr : RepPath h fs old) (hold : old ≠ 0)
    (hn : old ∉ pathNodes fs) (new : ℕ) :
    replaceChild h d (top fs) old new = some (relink h fs new) := by
  cases fs with
  | nil => rfl
  | cons f fs =>
    obtain ⟨had, hup, hc, ⟨hp, hsib, hrp⟩, hrs⟩ := hr
    have hne : ptr f.sibling ≠ old := by
      intro heq
      rcases ptr_eq_zero_or_mem with hz | hm
      · exact hold (heq.symm.trans hz)
      · exact hn (by rw [← heq]; simp [pathNodes, hm])
    rw [replaceChild, top, if_pos had.1, rbChild_of_ne had.1]
    simp only [Option.bind_eq_bind, Option.bind_some, RbTree.relink]
    rcases Side.eq_or_eq_flip d f.side with hd | hd
    · rw [if_pos (by rw [← hd, hp]), rbSetChild, deref_of_ne had.1, hd]
    have hfl : f.side.flip = d := by rw [hd, Side.flip_flip]
    rw [if_neg (by rw [← hfl, hsib]; exact hne), rbSetChild, deref_of_ne had.1, hd]

theorem RepPath.top_dvd (hr : RepPath h fs p) : 4 ∣ top fs := by
  cases fs with
  | nil => exact Nat.dvd_zero 4
  | cons f fs => exact hr.1.2

/-! ### The parent of a tree -/

/-- The heap after `if (p) rb_set_parent(p, up)`. -/
def putParentIf (h : Heap) (p up : ℕ) : Heap :=
  if p = 0 then h else putWord h p (withParent (h.word p) up)

theorem rbSetParentIf_eq :
    rbSetParentIf h p up = some (putParentIf h p up) := by
  rw [rbSetParentIf, putParentIf]
  by_cases hp : p = 0
  · rw [if_neg (not_not.2 hp), if_pos hp]
  · rw [if_pos hp, if_neg hp, rbSetParent, deref_of_ne hp]

theorem rbSetParent_eq (hp : p ≠ 0) : rbSetParent h p up = some (putParentIf h p up) := by
  rw [rbSetParent, deref_of_ne hp, putParentIf, if_neg hp]

@[simp] theorem putParentIf_child : (putParentIf h p up).child = h.child := by
  rw [putParentIf]
  split <;> rfl

@[simp] theorem putParentIf_root : (putParentIf h p up).root = h.root := by
  rw [putParentIf]
  split <;> rfl

theorem putParentIf_self (hp : p ≠ 0) : (putParentIf h p up).word p = withParent (h.word p) up := by
  rw [putParentIf, if_neg hp]
  exact update_self ..

theorem putParentIf_of_ne (ha : a ≠ p) : (putParentIf h p up).word a = h.word a := by
  rw [putParentIf]
  split
  · rfl
  · exact update_of_ne ha _ _

theorem same_putParentIf (hp : p ∉ l) : Same h (putParentIf h p up) l := by
  rw [putParentIf]
  split
  · exact fun _ _ => ⟨rfl, fun _ => rfl⟩
  · exact same_putWord hp

/-- The root of a tree is not one of some other nodes. -/
theorem ptr_not_mem (hdj : t.inorder.Disjoint l) (hz : 0 ∉ l) : ptr t ∉ l := by
  rcases ptr_eq_zero_or_mem with hptr | hm
  · rw [hptr]
    exact hz
  · exact hdj hm

theorem Rep.zero_not_mem (hr : Rep h up t) : 0 ∉ t.inorder := by
  induction t generalizing up with
  | nil => simp
  | node c a l r ihl ihr =>
    obtain ⟨had, -, -, ⟨-, hl⟩, -, hr⟩ := hr
    simp only [Lib.Tree.inorder, mem_append, mem_cons, not_or]
    exact ⟨ihl hl, had.1.symm, ihr hr⟩

theorem RepSeg.zero_not_mem (hr : RepSeg h up S p) : 0 ∉ pathNodes S := by
  induction S generalizing p with
  | nil => simp [pathNodes]
  | cons f S ih =>
    obtain ⟨had, -, -, ⟨-, -, hrp⟩, hrs⟩ := hr
    simp only [pathNodes, mem_append, mem_cons, not_or]
    exact ⟨had.1.symm, hrp.zero_not_mem, ih hrs⟩

theorem RepPath.zero_not_mem (hr : RepPath h fs p) : 0 ∉ pathNodes fs :=
  (repPath_iff.1 hr).1.zero_not_mem

/-! ### Rotations -/

theorem perm_inorder_turn {c' : Color} : (join d c a x (join d c' b m y)).inorder.Perm
    (a :: b :: (x.inorder ++ (m.inorder ++ y.inorder))) :=
  perm_inorder_join.trans (((perm_inorder_join.append_left _).trans perm_middle).cons a)

/-- **A rotation** turns two nodes. -/
theorem rotate_at {c' : Color} (hat : At h fs (join d c a x (join d c' b m y))) :
    ∃ h', rotate h d a = some h' ∧ At h' fs (join d c' b (join d c a x m) y) := by
  obtain ⟨hph, htr, hno⟩ := hat
  have hnd' := hno
  obtain ⟨ha, haup, hac, ⟨hax, hx⟩, hab, hrs⟩ := rep_join.1 htr
  obtain ⟨hb, hbup, hbc, ⟨hbm, hm⟩, hby, hy⟩ := rep_join.1 hrs
  rw [ptr_join] at hph hab
  rw [(perm_inorder_turn.append_right _).nodup_iff, cons_append, cons_append, nodup_cons,
    nodup_cons, append_assoc, append_assoc] at hno
  obtain ⟨hao, hbt, hnd⟩ := hno
  simp only [mem_cons, mem_append, not_or] at hao hbt
  obtain ⟨hne, hax', ham, hay, hafs⟩ := hao
  obtain ⟨hbx, hbm', hby', hbfs⟩ := hbt
  rw [nodup_append', nodup_append', nodup_append'] at hnd
  obtain ⟨-, ⟨hmnd, ⟨-, hfs, hyfs⟩, hmd⟩, hxd⟩ := hnd
  have hmx : ptr m ∉ x.inorder :=
    ptr_not_mem (fun n hn hnx => hxd hnx (by simp [hn])) hx.zero_not_mem
  have hmd' := disjoint_append_right.1 hmd
  have hmy : ptr m ∉ y.inorder := ptr_not_mem hmd'.1 hy.zero_not_mem
  have hmfs : ptr m ∉ pathNodes fs := ptr_not_mem hmd'.2 hph.zero_not_mem
  have hmab : ptr m ∉ [a, b] :=
    ptr_not_mem (by simp [ham, hbm']) (by simp [ha.1.symm, hb.1.symm])
  rw [mem_pair, not_or] at hmab
  obtain ⟨hma, hmb⟩ := hmab
  let k := putParentIf
    (putChild (putParentIf (putChild h d.flip a (ptr m)) (ptr m) a) d b a) b (top fs)
  have hkr : k.root = h.root := by simp [k]
  have hk {l : List ℕ} (hla : a ∉ l) (hlm : ptr m ∉ l) (hlb : b ∉ l) : Same h k l :=
    (((same_putChild hla).trans (same_putParentIf hlm)).trans (same_putChild hlb)).trans
      (same_putParentIf hlb)
  have hkb : k.word b = withParent (h.word b) (top fs) := by
    rw [putParentIf_self hb.1, putChild_word, putParentIf_of_ne (Ne.symm hmb), putChild_word]
  have hka : k.word a = h.word a := by
    rw [putParentIf_of_ne hne, putChild_word, putParentIf_of_ne (Ne.symm hma), putChild_word]
  have hkm (hm : ptr m ≠ 0) : k.word (ptr m) = withParent (h.word (ptr m)) a := by
    rw [putParentIf_of_ne hmb, putChild_word, putParentIf_self hm, putChild_word]
  have hkc (e : Side) (n : ℕ) : k.child e n =
      (putChild (putChild h d.flip a (ptr m)) d b a).child e n := by
    simp only [k, putParentIf_child, putChild]
  have hkp := hph.frame (hk hafs hmfs hbfs) hkr
  have hk' := replaceChild_eq d hkp ha.1 hafs b
  have hph' := hkp.relink hfs b
  have hword' := relink_word (h := k) fs b
  have hsm' (l : List ℕ) (hl : ∀ n ∈ l, n ∉ pathNodes fs) := same_relink (h := k) hl b
  generalize relink k fs b = k' at hk' hph' hword' hsm'
  have ho {n : ℕ} (hn : n ∉ pathNodes fs) (e : Side) : k'.child e n = k.child e n :=
    (hsm' [n] (fun i hi => mem_singleton.1 hi ▸ hn) n (mem_singleton_self n)).2 e
  refine ⟨putParentIf k' a b, ?_, ?_, ?_, ?_⟩
  · simp only [rotate, Option.bind_eq_bind, rbChild_of_ne ha.1, rbParent_of_ne ha.1,
      Option.bind_some, hab, haup, rbChild_of_ne hb.1, hbm, rbSetChild, deref_of_ne ha.1,
      deref_of_ne hb.1, rbSetParentIf_eq, rbSetParent_eq hb.1]
    rw [hk', Option.bind_some, rbSetParent_eq ha.1]
  · rw [ptr_join]
    exact hph'.frame (same_putParentIf hafs) putParentIf_root
  · have hfin {l : List ℕ} (hla : a ∉ l) (hlm : ptr m ∉ l) (hlb : b ∉ l)
        (hlfs : ∀ n ∈ l, n ∉ pathNodes fs) : Same h (putParentIf k' a b) l :=
      ((hk hla hlm hlb).trans (hsm' l hlfs)).trans (same_putParentIf hla)
    have hb4 : 4 ∣ b := hb.2
    refine rep_join.2 ⟨hb, ?_, ?_, ⟨?_, ?_⟩, ?_, ?_⟩
    · rw [putParentIf_of_ne (Ne.symm hne), hword', hkb, parentOf_withParent hph.top_dvd]
    · rw [putParentIf_of_ne (Ne.symm hne), hword', hkb, colorOf_withParent hph.top_dvd, hbc]
    · rw [putParentIf_child, ho hbfs, hkc, putChild_self, ptr_join]
    · refine rep_join.2 ⟨ha, ?_, ?_, ⟨?_, ?_⟩, ?_, ?_⟩
      · rw [putParentIf_self ha.1, parentOf_withParent hb4]
      · rw [putParentIf_self ha.1, colorOf_withParent hb4, hword', hka, hac]
      · rw [putParentIf_child, ho hafs, hkc, putChild_of_ne hne,
          putChild_of_side (Side.ne_flip d), hax]
      · exact hx.frame (hfin hax' hmx hbx fun n hn hnf => hxd hn (by simp [hnf]))
      · rw [putParentIf_child, ho hafs, hkc, putChild_of_ne hne, putChild_self]
      refine hm.reparent ha.2 hmnd (fun hnl => ?_) (hfin ?_ ?_ ?_ ?_) fun e => ?_
      · rw [putParentIf_of_ne hma, hword', hkm (hm.ptr_ne_zero hnl)]
      · exact fun hmm => ham (mem_of_mem_erase hmm)
      · exact hmnd.not_mem_erase
      · exact fun hmm => hbm' (mem_of_mem_erase hmm)
      · exact fun n hn => hmd'.2 (mem_of_mem_erase hn)
      rw [putParentIf_child, ho hmfs, hkc, putChild_of_ne hmb, putChild_of_ne hma]
    · rw [putParentIf_child, ho hbfs, hkc, putChild_of_side (Side.flip_ne d),
        putChild_of_ne (Ne.symm hne), hby]
    · exact hy.frame (hfin hay hmy hby' fun n hn hnf => hyfs hn hnf)
  · rw [inorder_rotate]
    exact hnd'

/-! ### Looking around at a place -/

/-- The place moves to the other child of the node above. -/
theorem at_sibling : At h (f :: fs) t ↔
    At h (⟨f.side.flip, f.color, f.label, t⟩ :: fs) f.sibling := by
  rw [at_cons, at_cons, Frame.fill, Frame.fill, join_flip]

section

variable (hat : At h fs (join d c a x y))

include hat

theorem At.ne_zero : a ≠ 0 := (rep_join.1 hat.tree).1.1

theorem At.rbParent : rbParent h a = some (top fs) := by
  rw [rbParent_of_ne hat.ne_zero, (rep_join.1 hat.tree).2.1]

theorem At.rbColor : rbColor h a = some c := by
  rw [rbColor_of_ne hat.ne_zero, (rep_join.1 hat.tree).2.2.1]

theorem At.rbChild : rbChild h d a = some (ptr x) := by
  rw [rbChild_of_ne hat.ne_zero, (rep_join.1 hat.tree).2.2.2.1.1]

theorem At.rbChild_flip : RbTree.rbChild h d.flip a = some (ptr y) := by
  rw [rbChild_of_ne hat.ne_zero, (rep_join.1 hat.tree).2.2.2.2.1]

end

theorem At.isRed (hat : At h fs t) : isRed h (ptr t) = some (decide (t.color = .red)) := by
  cases t with
  | nil => rfl
  | node c a l r =>
    have hnd : At h fs (join .left c a l r) := hat
    rw [ptr, isRed_of_ne hnd.ne_zero, hnd.tree.2.2.1]
    rfl

/-- The two children of a node differ, unless both are null pointers. -/
theorem At.ptr_ne_sibling (hat : At h (f :: fs) t) (hso : ptr t ≠ 0 ∨ ptr f.sibling ≠ 0) :
    ptr f.sibling ≠ ptr t := by
  intro heq
  have hbt : ptr t ≠ 0 ∧ ptr f.sibling ≠ 0 := by
    rcases hso with ht | hs
    · exact ⟨ht, heq ▸ ht⟩
    · exact ⟨heq ▸ hs, hs⟩
  have hm := (ptr_eq_zero_or_mem).resolve_left hbt.1
  have hm' := (ptr_eq_zero_or_mem).resolve_left hbt.2
  have hdj := (nodup_append'.1 hat.nodup).2.2
  refine hdj hm ?_
  rw [← heq]
  simp [pathNodes, hm']

theorem At.side_eq (hat : At h (f :: fs) t) (hso : ptr t ≠ 0 ∨ ptr f.sibling ≠ 0) :
    ∃ v, RbTree.rbChild h .left f.label = some v ∧
      (if v = ptr t then Side.left else Side.right) = f.side := by
  have hne := hat.ptr_ne_sibling hso
  have hup : At h fs (f.fill t) := at_cons.1 hat
  obtain ⟨side, c, a, s⟩ := f
  cases side with
  | left => exact ⟨ptr t, hup.rbChild, if_pos rfl⟩
  | right => exact ⟨ptr s, hup.rbChild_flip, if_neg hne⟩

/-! ### Colours -/

section

variable (hat : At h fs (join d c a x y))

include hat

/-- A word that keeps the parent of a node changes its colour. -/
theorem At.recolor (hw : parentOf w = parentOf (h.word a)) :
    At (putWord h a w) fs (join d (colorOf w) a x y) := by
  obtain ⟨hph, htr, hnd⟩ := hat
  have ho := hnd
  rw [(perm_inorder_join.append_right (pathNodes fs)).nodup_iff, cons_append, nodup_cons]
    at ho
  simp only [mem_append, not_or] at ho
  obtain ⟨⟨⟨hx, hy⟩, hfs⟩, -⟩ := ho
  obtain ⟨ha, hup, hc, ⟨hax, hrx⟩, hay, hry⟩ := rep_join.1 htr
  refine ⟨?_, rep_join.2 ⟨ha, ?_, ?_, ⟨hax, ?_⟩, hay, ?_⟩, ?_⟩
  · rw [ptr_join] at hph ⊢
    exact hph.frame (same_putWord hfs) rfl
  · rw [putWord_word, update_self, hw, hup]
  · rw [putWord_word, update_self]
  · exact hrx.frame (same_putWord hx)
  · exact hry.frame (same_putWord hy)
  rw [inorder_recolor]
  exact hnd

theorem At.setBlack : ∃ h', rbSetBlack h a = some h' ∧ At h' fs (join d .black a x y) := by
  have hn := hat.recolor parentOf_withBlack
  rw [colorOf_withBlack] at hn
  exact ⟨_, deref_of_ne hat.ne_zero _, hn⟩

theorem At.setRed : ∃ h', rbSetRed h a = some h' ∧ At h' fs (join d .red a x y) := by
  have hn := hat.recolor parentOf_withRed
  rw [colorOf_withRed] at hn
  exact ⟨_, deref_of_ne hat.ne_zero _, hn⟩

theorem At.setColor (c' : Color) :
    ∃ h', rbSetColor h a c' = some h' ∧ At h' fs (join d c' a x y) := by
  have hn := hat.recolor (parentOf_withColor (c := c'))
  rw [colorOf_withColor] at hn
  exact ⟨_, deref_of_ne hat.ne_zero _, hn⟩

end

end NestLinux.RbTree
