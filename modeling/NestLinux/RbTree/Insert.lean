import NestLinux.RbTree.Rep

/-!
# Insertion into a red-black tree

The new node is red. While its parent is red too, the loop of `rb_insert_color` recolours and
goes on two nodes above, or it rotates once or twice and is done.
-/

namespace NestLinux.RbTree

open Lib Lib.Tree Option

variable {h : Heap} {c : Color} {d : Side} {t s u : Lib.Tree ℕ} {a p g : ℕ} {f : Frame ℕ}
  {fs gs : List (Frame ℕ)} {k : ℕ} {l r : Lib.Tree ℕ} {e : Side} {n : ℕ}

/-! ### One pass of the loop -/

/-- The uncle is red: three nodes change their colours. -/
theorem insertStep_red (hat : At h (f :: ⟨d, c, g, .node .red a l r⟩ :: gs) t) :
    ∃ h', insertStep h (ptr t) f.label g = some (h', g) ∧
      At h' gs (join d .red g (join f.side .black f.label t f.sibling) (.node .black a l r)) := by
  have hp : At h (⟨d, c, g, .node .red a l r⟩ :: gs) (f.fill t) := at_cons.1 hat
  have hne : ptr (f.fill t) ≠ 0 := by
    rw [Frame.fill, ptr_join]
    exact hp.ne_zero
  obtain ⟨v, hv, hsd⟩ := hp.side_eq (.inl hne)
  have hch := (at_cons.1 hp).rbChild_flip
  have hun := at_sibling.1 hp
  have hred := hun.isRed
  obtain ⟨h1, hs1, hat1⟩ := At.setBlack (d := .left) hun
  have hat1 := at_sibling.1 hat1
  obtain ⟨h2, hs2, hat2⟩ := At.setBlack (d := f.side) hat1
  have hat2 := at_cons.1 hat2
  obtain ⟨h3, hs3, hat3⟩ := At.setRed (d := d.flip.flip) hat2
  refine ⟨h3, ?_, ?_⟩
  · rw [Frame.fill, ptr_join] at hsd
    simp only [insertStep, bind_eq_bind]
    rw [hv, bind_some, hsd, hch, bind_some, hred, bind_some]
    rw [ptr, hs1, bind_some, hs2, bind_some, hs3]
    rfl
  · rw [Side.flip_flip] at hat3
    exact hat3

/-- The last rotation: the parent takes the place of its parent. -/
theorem insertRotate_outer (hat : At h (⟨d, .red, p, s⟩ :: ⟨d, c, g, u⟩ :: gs) t) :
    ∃ h1 h2 h3, rbSetBlack h p = some h1 ∧ rbSetRed h1 g = some h2 ∧
      rotate h2 d.flip g = some h3 ∧ At h3 (⟨d, .black, p, join d .red g s u⟩ :: gs) t := by
  obtain ⟨h1, hs1, hat1⟩ := At.setBlack (d := d) (at_cons.1 hat)
  obtain ⟨h2, hs2, hat2⟩ := At.setRed (d := d) (at_cons.1 hat1)
  have htr : At h2 gs (join d.flip .red g u (join d.flip .black p s t)) := by
    rw [join_flip, join_flip]
    exact hat2
  obtain ⟨h3, hrot, hat3⟩ := rotate_at htr
  refine ⟨h1, h2, h3, hs1, hs2, hrot, at_cons.2 ?_⟩
  rw [join_flip, join_flip] at hat3
  exact hat3

/-- The first rotation, if the node is on the inner side. -/
theorem insertRotate_eq (hat : At h (⟨e, .red, p, s⟩ :: ⟨d, c, g, u⟩ :: gs) (.node .red a l r))
    (hs : RB s k) (hsc : s.color = .black) (ht : RB (.node .red a l r) k) :
    ∃ h' t' p' s', insertRotate h d a p g = some (h', ptr t') ∧
      At h' (⟨d, .black, p', join d .red g s' u⟩ :: gs) t' ∧ RB t' k ∧ t'.color = .red ∧
      RB s' k ∧ s'.color = .black ∧ (join d .black p' t' (join d .red g s' u)).inorder =
        (join d c g (join e .red p (.node .red a l r) s) u).inorder := by
  have hp : At h (⟨d, c, g, u⟩ :: gs) (join e .red p (.node .red a l r) s) := at_cons.1 hat
  have ha : a ≠ 0 := At.ne_zero (d := .left) hat
  rcases Side.eq_or_eq_flip d e with rfl | rfl
  · have hne : ptr s ≠ a := hat.ptr_ne_sibling (.inl ha)
    obtain ⟨h1, h2, h3, hs1, hs2, hrot, hat3⟩ := insertRotate_outer hat
    refine ⟨h3, .node .red a l r, p, s, ?_, hat3, ht, rfl, hs, hsc, inorder_rotate.symm⟩
    simp only [insertRotate, bind_eq_bind, hp.rbChild_flip, bind_some]
    rw [if_neg hne, hs1, bind_some, hs2, bind_some, hrot]
    rfl
  obtain ⟨x, y, hxy⟩ := exists_join d .red a l r
  rw [hxy, rb_red] at ht
  have htr : At h (⟨d, c, g, u⟩ :: gs) (join d .red p s (join d .red a x y)) := by
    rw [← hxy, ← join_flip]
    exact hp
  obtain ⟨h0, hrot0, hat0⟩ := rotate_at htr
  have hat0 : At h0 (⟨d, .red, a, y⟩ :: ⟨d, c, g, u⟩ :: gs) (join d .red p s x) := at_cons.2 hat0
  obtain ⟨h1, h2, h3, hs1, hs2, hrot, hat3⟩ := insertRotate_outer hat0
  refine ⟨h3, join d .red p s x, a, y, ?_, hat3, rb_red.2 ⟨⟨hs, hsc⟩, ht.1⟩, color_join, ht.2.1,
    ht.2.2, ?_⟩
  · simp only [insertRotate, bind_eq_bind, hp.rbChild, bind_some, ptr_join]
    rw [if_pos (show ptr (.node .red a l r) = a from rfl), hrot0, map_some, bind_some, hs1,
      bind_some, hs2, bind_some, hrot]
    rfl
  · rw [hxy]
    cases d <;> simp [Lib.Tree.inorder_join, Side.flip]

/-- The uncle is not red: the tree is turned, and a black node is above the red one. -/
theorem insertStep_black (hat : At h (⟨e, .red, p, s⟩ :: ⟨d, c, g, u⟩ :: gs) (.node .red a l r))
    (hbk : u.color = .black) (hs : RB s k) (hsc : s.color = .black)
    (ht : RB (.node .red a l r) k) : ∃ h' t' p' s', insertStep h a p g = some (h', ptr t') ∧
      At h' (⟨d, .black, p', join d .red g s' u⟩ :: gs) t' ∧ RB t' k ∧ t'.color = .red ∧
      RB s' k ∧ s'.color = .black ∧ (join d .black p' t' (join d .red g s' u)).inorder =
        (join d c g (join e .red p (.node .red a l r) s) u).inorder := by
  have hp : At h (⟨d, c, g, u⟩ :: gs) (join e .red p (.node .red a l r) s) := at_cons.1 hat
  have hne : ptr (join e .red p (.node .red a l r) s) ≠ 0 := by
    rw [ptr_join]
    exact hp.ne_zero
  obtain ⟨v, hv, hsd⟩ := hp.side_eq (.inl hne)
  have hch := (at_cons.1 hp).rbChild_flip
  have hred := (at_sibling.1 hp).isRed
  obtain ⟨h', t', p', s', hrot, hrs⟩ := insertRotate_eq hat hs hsc ht
  refine ⟨h', t', p', s', ?_, hrs⟩
  rw [ptr_join] at hsd
  simp only [insertStep, bind_eq_bind]
  rw [hv, bind_some, hsd, hch, bind_some, hred, bind_some, decide_eq_false (by simp [hbk]),
    if_neg (by simp), hrot]

/-! ### The loop -/

/-- The tree becomes a red-black tree when its root turns black. -/
def AlmostValid (t : Lib.Tree ℕ) : Prop :=
  ∃ c a l r, t = .node c a l r ∧ Valid (.node .black a l r)

theorem Valid.almostValid (hv : Valid t) (ht : t ≠ .nil) : AlmostValid t := by
  cases t with
  | nil => exact absurd rfl ht
  | node c a l r =>
    have hc : c = .black := hv.1
    subst hc
    exact ⟨.black, a, l, r, rfl, hv⟩

theorem plug_ne_nil (ht : t ≠ .nil) : plug fs t ≠ .nil := by
  intro heq
  have hl := congrArg (fun t => t.inorder.length) heq
  rw [inorder_plug] at hl
  cases t with
  | nil => exact ht rfl
  | node c a l r =>
    simp only [List.length_append, Lib.Tree.inorder, List.length_cons, List.length_nil] at hl
    omega

/-- **The loop of `rb_insert_color`**, from a red node. -/
theorem insertLoop_spec (fuel : ℕ) (hat : At h fs (.node .red a l r))
    (hft : Fits fs k) (ht : RB (.node .red a l r) k) (hfl : fs.length < fuel) :
    ∃ h' T, insertLoop fuel h a = some h' ∧ At h' [] T ∧ AlmostValid T ∧
      T.inorder = (plug fs (.node .red a l r)).inorder := by
  induction fuel generalizing h fs a l r k with
  | zero => omega
  | succ fuel ih =>
    have hp : rbParent h a = some (top fs) := At.rbParent (d := .left) hat
    have hex (hbk : isRed h (top fs) = some false)
        (hal : AlmostValid (plug fs (.node .red a l r))) :
        ∃ h' T, insertLoop (fuel + 1) h a = some h' ∧ At h' [] T ∧ AlmostValid T ∧
          T.inorder = (plug fs (.node .red a l r)).inorder := by
      refine ⟨h, plug fs (.node .red a l r), ?_, at_plug.1 hat, hal, rfl⟩
      simp only [insertLoop, bind_eq_bind]
      rw [hp, bind_some, hbk]
      rfl
    cases fs with
    | nil => exact hex rfl ⟨.red, a, l, r, rfl, rfl, k + 1, ht.1.1, ht.2.1⟩
    | cons f fs =>
      obtain ⟨e, fc, p, s⟩ := f
      have hup : At h fs (join e fc p (.node .red a l r) s) := at_cons.1 hat
      have hred := hup.isRed
      rw [ptr_join, color_join] at hred
      cases fc with
      | black =>
        refine hex hred (Valid.almostValid (hft.valid ht ?_) (plug_ne_nil (by simp)))
        exact fun hc => absurd hc (by simp [topColor])
      | red =>
        obtain ⟨⟨hs, hsc⟩, htp, hft⟩ := hft
        cases fs with
        | nil => exact absurd htp (by simp [topColor])
        | cons g gs =>
          obtain ⟨d, gc, g, u⟩ := g
          have hgc : gc = .black := htp
          subst hgc
          obtain ⟨hu, hft⟩ := hft
          have hsp {h' : Heap} {n : ℕ} (his : insertStep h a p g = some (h', n)) :
              insertLoop (fuel + 1) h a = insertLoop fuel h' n := by
            simp only [insertLoop, bind_eq_bind]
            rw [hp, bind_some, top, hred, hup.rbParent]
            simp only [decide_true, if_true, bind_some]
            rw [show top (⟨d, .black, g, u⟩ :: gs) = g from rfl, his, bind_some]
          simp only [List.length_cons] at hfl
          cases huc : u.color with
          | red =>
            obtain ⟨b, ul, ur, rfl⟩ := eq_node_of_color huc
            obtain ⟨h', his, hat'⟩ := insertStep_red hat
            obtain ⟨l', r', hnd⟩ := join_eq_node d .red g
              (join e .black p (.node .red a l r) s) (.node .black b ul ur)
            have hrb : RB (join d .red g (join e .black p (.node .red a l r) s)
                (.node .black b ul ur)) (k + 1) :=
              rb_red.2 ⟨⟨rb_black.2 ⟨ht, hs⟩, color_join⟩, ⟨hu.1.1, hu.2.1⟩, rfl⟩
            have hrb' := hrb
            rw [hnd] at hat' hrb'
            obtain ⟨h'', T, hlp, hT, hv, hin⟩ := ih hat' hft hrb' (by omega)
            refine ⟨h'', T, (hsp his).trans hlp, hT, hv, hin.trans ?_⟩
            rw [← hnd]
            refine inorder_plug_congr ?_
            cases d <;> cases e <;> simp [Frame.fill, Lib.Tree.inorder_join, Lib.Tree.inorder]
          | black =>
            obtain ⟨h', t', p', s', his, hat', ht', htc, hs', hsc', hin'⟩ :=
              insertStep_black hat huc hs hsc ht
            obtain ⟨b, l', r', rfl⟩ := eq_node_of_color htc
            have hft' : Fits (⟨d, .black, p', join d .red g s' u⟩ :: gs) k :=
              ⟨rb_red.2 ⟨⟨hs', hsc'⟩, hu, huc⟩, hft⟩
            obtain ⟨h'', T, hlp, hT, hv, hin⟩ :=
              ih hat' hft' ht' (by simp only [List.length_cons]; omega)
            refine ⟨h'', T, (hsp his).trans hlp, hT, hv, hin.trans ?_⟩
            exact inorder_plug_congr hin'

/-! ### Linking -/

/-- The side of an empty place; there is none at the root. -/
def slotSide : List (Frame ℕ) → Side
  | [] => .left
  | f :: _ => f.side

/-- **`rb_link_node`** puts a red node in an empty place. -/
theorem rbLinkNode_at (hat : At h fs .nil) (hn : Addr n) (hnw : n ∉ pathNodes fs) :
    ∃ h', rbLinkNode h n (top fs) (slotSide fs) = some h' ∧ At h' fs (.node .red n .nil .nil) := by
  obtain ⟨hph, -, hnd⟩ := hat
  let m := putChild (putChild (putWord h n (top fs)) .left n 0) .right n 0
  have hm : RepPath m fs 0 := by
    refine hph.frame ?_ rfl
    exact ((same_putWord hnw).trans (same_putChild hnw)).trans (same_putChild hnw)
  have hword : (relink m fs n).word n = top fs := by
    rw [relink_word]
    exact Function.update_self ..
  have hch (d : Side) : (relink m fs n).child d n = 0 := by
    rw [(same_relink (l := [n]) (fun a ha => List.mem_singleton.1 ha ▸ hnw) n n
      (List.mem_singleton_self n)).2 d]
    cases d with
    | left => exact (putChild_of_side (by decide) n).trans putChild_self
    | right => exact putChild_self
  have hd := hph.top_dvd
  refine ⟨relink m fs n, ?_, hm.relink hnd n, ⟨hn, ?_, ?_, ⟨hch _, trivial⟩, hch _, trivial⟩, ?_⟩
  · simp only [rbLinkNode, bind_eq_bind, deref_of_ne hn.1, bind_some]
    cases fs with
    | nil => rfl
    | cons f fs =>
      rw [top, if_pos hph.1.1, rbSetChild, deref_of_ne hph.1.1]
      rfl
  · rw [hword, parentOf_self hd]
  · rw [hword, colorOf_of_dvd hd]
  · exact List.nodup_cons.2 ⟨hnw, hnd⟩

/-- **Insertion.** Linking a new node at an empty place of a red-black tree and repairing the tree
follows no null pointer and ends; it gives a red-black tree with the nodes of the old one in their
order and the new one at its place. -/
theorem rbInsert_spec {fuel : ℕ} (hat : At h [] (plug fs .nil)) (hv : Valid (plug fs .nil))
    (hn : Addr n) (hnw : n ∉ (plug fs .nil).inorder) (hfl : (plug fs .nil).inorder.length < fuel) :
    Yields ((rbLinkNode h n (top fs) (slotSide fs)).bind fun h => rbInsertColor h fuel n)
      (before fs ++ n :: behind fs) := by
  obtain ⟨hro, j, hj⟩ := hv
  obtain ⟨k, hft, hk, -⟩ := fits_of_plug hj hro
  have hk0 : k = 0 := hk
  subst hk0
  have hn' : n ∉ pathNodes fs := fun hm => hnw ((perm_plug fs .nil).mem_iff.2 (by simpa using hm))
  obtain ⟨h1, hlk, hat1⟩ := rbLinkNode_at (at_plug.2 hat) hn hn'
  have hlf : RB (.node .red n .nil .nil) 0 := ⟨⟨rfl, rfl⟩, rfl, rfl⟩
  have hl := length_le_plug fs .nil
  obtain ⟨h2, T, hlp, hT, ⟨c, a, l, r, rfl, hv⟩, hin⟩ :=
    insertLoop_spec fuel hat1 hft hlf (by omega)
  obtain ⟨h3, hst, hat3⟩ := At.setBlack (d := .left) hT
  refine ⟨h3, .node .black a l r, ?_, hat3, hv, ?_⟩
  · have hro2 : h2.root = a := hT.path
    rw [hlk, bind_some, rbInsertColor, hlp]
    simp only [bind_eq_bind, bind_some]
    rw [hro2, hst]
  · rw [show (Lib.Tree.node .black a l r).inorder = (Lib.Tree.node c a l r).inorder from rfl, hin,
      inorder_plug]
    simp [Lib.Tree.inorder]

end NestLinux.RbTree
