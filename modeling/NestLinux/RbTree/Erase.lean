import NestLinux.RbTree.Rep

/-!
# Repairing a red-black tree after a removal

At the place where a black node was taken out, the paths lack one black node. The loop of
`__rb_erase_color` moves this lack up, after a rotation if the sibling is red, until it meets a
red node or the root, or until a red child of the sibling lets it rotate it away.
-/

namespace NestLinux.RbTree

open Lib Lib.Tree Option

variable {h : Heap} {c : Color} {d : Side} {t s x y : Lib.Tree ℕ} {a p o : ℕ} {f : Frame ℕ}
  {fs : List (Frame ℕ)} {k : ℕ} {e : Side} {q fuel : ℕ} {y1 y2 : Lib.Tree ℕ}

/-! ### The sibling -/

/-- **The sibling is made black**: if it is red, a rotation puts it above the parent. -/
theorem eraseSibling_spec (hat : At h (⟨d, c, p, s⟩ :: fs) t)
    (hft : Fits (⟨d, c, p, s⟩ :: fs) (k + 1)) :
    ∃ h' c' fs' o x y, eraseSibling h d p = some (h', o) ∧
      At h' (⟨d, c', p, join d .black o x y⟩ :: fs') t ∧
      Fits (⟨d, c', p, join d .black o x y⟩ :: fs') (k + 1) ∧
      (plug (⟨d, c', p, join d .black o x y⟩ :: fs') t).inorder =
        (plug (⟨d, c, p, s⟩ :: fs) t).inorder ∧ (c' = .red ∨ fs' = fs) := by
  have hs : RB s (k + 1) := hft.sibling
  obtain ⟨sc, o, x, y, rfl⟩ := hs.exists_join d
  have hup := at_cons.1 hat
  have hch := hup.rbChild_flip
  have hc := (at_sibling.1 hat).rbColor
  cases sc with
  | black =>
    refine ⟨h, c, fs, o, x, y, ?_, hat, hft, rfl, .inr rfl⟩
    simp only [eraseSibling, bind_eq_bind]
    rw [hch, bind_some, ptr_join, hc, bind_some]
    rfl
  | red =>
    cases c with
    | red => exact absurd hft.1.2 (by simp)
    | black =>
      rw [rb_red] at hs
      obtain ⟨xc, b, x1, x2, rfl⟩ := hs.1.1.exists_join d
      have hxc : xc = .black := by simpa using hs.1.2
      subst hxc
      obtain ⟨h1, hs1, hat1⟩ := (at_sibling.1 hat).setBlack
      have hat1 := at_sibling.1 hat1
      rw [Side.flip_flip] at hat1
      obtain ⟨h2, hs2, hat2⟩ := At.setRed (d := d) (at_cons.1 hat1)
      obtain ⟨h3, hrot, hat3⟩ := rotate_at hat2
      have hat3 : At h3 (⟨d, .red, p, join d .black b x1 x2⟩ :: ⟨d, .black, o, y⟩ :: fs) t :=
        at_cons.2 (at_cons.2 hat3)
      refine ⟨h3, .red, ⟨d, .black, o, y⟩ :: fs, b, x1, x2, ?_, hat3, ?_, ?_, .inl rfl⟩
      · simp only [eraseSibling, bind_eq_bind]
        rw [hch, bind_some, ptr_join, hc, bind_some, hs1, bind_some, hs2, bind_some, hrot,
          bind_some,
          (at_cons.1 hat3).rbChild_flip, ptr_join]
        rfl
      · exact ⟨⟨hs.1.1, hs.1.2⟩, rfl, hs.2.1, hft.2⟩
      · exact inorder_plug_congr inorder_rotate

/-! ### The rotations at the end -/

/-- The last rotation: the sibling takes the place and the colour of the parent. -/
theorem eraseRotate_outer {sc qc : Color}
    (hat : At h (⟨d, c, p, join d sc o x (join e qc q y1 y2)⟩ :: fs) t) :
    ∃ h1 h2 h3 h4, rbSetColor h o c = some h1 ∧ rbSetBlack h1 p = some h2 ∧
      rbChild h2 d.flip o = some q ∧ rbSetBlack h2 q = some h3 ∧ rotate h3 d p = some h4 ∧
      At h4 fs (join d c o (join d .black p t x) (join e .black q y1 y2)) := by
  obtain ⟨h1, hs1, hat1⟩ := At.setColor (at_sibling.1 hat) c
  have hat1 := at_sibling.1 hat1
  rw [Side.flip_flip] at hat1
  obtain ⟨h2, hs2, hat2⟩ := At.setBlack (d := d) (at_cons.1 hat1)
  have hsib : At h2 (⟨d.flip, .black, p, t⟩ :: fs) (join d c o x (join e qc q y1 y2)) := by
    refine at_cons.2 ?_
    rw [Frame.fill, join_flip]
    exact hat2
  have hch := hsib.rbChild_flip
  rw [ptr_join] at hch
  have hfar : At h2 (⟨d.flip, c, o, x⟩ :: ⟨d.flip, .black, p, t⟩ :: fs) (join e qc q y1 y2) := by
    refine at_cons.2 ?_
    rw [Frame.fill, join_flip]
    exact hsib
  obtain ⟨h3, hs3, hat3⟩ := hfar.setBlack
  have hat3 : At h3 fs (join d .black p t (join d c o x (join e .black q y1 y2))) := by
    have hbk := at_cons.1 (at_cons.1 hat3)
    rw [Frame.fill, Frame.fill, join_flip, join_flip] at hbk
    exact hbk
  obtain ⟨h4, hrot, hat4⟩ := rotate_at hat3
  exact ⟨h1, h2, h3, h4, hs1, hs2, hch, hs3, hrot, hat4⟩

/-- The rotation before it: the red child of the sibling takes the place of the sibling. -/
theorem eraseRotate_inner {b : ℕ} {x1 x2 : Lib.Tree ℕ}
    (hat : At h (⟨d, c, p, join d .black o (join d .red b x1 x2) y⟩ :: fs) t) :
    ∃ h1 h2 h3, rbChild h d o = some b ∧ rbSetBlack h b = some h1 ∧ rbSetRed h1 o = some h2 ∧
      rotate h2 d.flip o = some h3 ∧ rbChild h3 d.flip p = some b ∧
      At h3 (⟨d, c, p, join d .black b x1 (join d .red o x2 y)⟩ :: fs) t := by
  have hsib : At h (⟨d.flip, c, p, t⟩ :: fs) (join d .black o (join d .red b x1 x2) y) :=
    at_sibling.1 hat
  have hch := hsib.rbChild
  rw [ptr_join] at hch
  have hnr : At h (⟨d, .black, o, y⟩ :: ⟨d.flip, c, p, t⟩ :: fs) (join d .red b x1 x2) :=
    at_cons.2 hsib
  obtain ⟨h1, hs1, hat1⟩ := hnr.setBlack
  obtain ⟨h2, hs2, hat2⟩ := At.setRed (d := d) (at_cons.1 hat1)
  rw [← join_flip, ← join_flip (x := x1)] at hat2
  obtain ⟨h3, hrot, hat3⟩ := rotate_at hat2
  rw [join_flip, join_flip] at hat3
  have hat3 := at_sibling.1 hat3
  rw [Side.flip_flip] at hat3
  have hch3 := (at_cons.1 hat3).rbChild_flip
  rw [ptr_join] at hch3
  exact ⟨h1, h2, h3, hch, hs1, hs2, hrot, hch3, hat3⟩

theorem valid_eraseRotate {o' : ℕ} (hft : Fits (⟨d, c, p, s⟩ :: fs) (k + 1)) (ht : RB t k)
    (hx : RB x k) (hy1 : RB y1 k) (hy2 : RB y2 k) :
    Valid (plug fs (join d c o' (join d .black p t x) (join e .black q y1 y2))) := by
  have hnr : RB (join d .black p t x) (k + 1) := rb_black.2 ⟨ht, hx⟩
  have hfar : RB (join e .black q y1 y2) (k + 1) := rb_black.2 ⟨hy1, hy2⟩
  cases c with
  | red =>
    refine hft.2.2.valid (rb_red.2 ⟨⟨hnr, color_join⟩, hfar, color_join⟩) fun htp => ?_
    rw [hft.2.1] at htp
    cases htp
  | black => exact hft.2.valid (rb_black.2 ⟨hnr, hfar⟩) fun _ => color_join

/-- **The rotations that end the loop**: a child of the sibling is red. -/
theorem eraseRotate_spec (hat : At h (⟨d, c, p, join d .black o x y⟩ :: fs) t)
    (hft : Fits (⟨d, c, p, join d .black o x y⟩ :: fs) (k + 1)) (ht : RB t k)
    (hred : x.color = .red ∨ y.color = .red) :
    ∃ h' a u v, eraseRotate h d p o = some h' ∧ At h' fs (join d c a u v) ∧
      Valid (plug fs (join d c a u v)) ∧
      (join d c a u v).inorder = (join d c p t (join d .black o x y)).inorder := by
  have hxy := rb_black.1 hft.sibling
  have hfr : At h (⟨d.flip, .black, o, x⟩ :: ⟨d.flip, c, p, t⟩ :: fs) y := by
    refine at_cons.2 ?_
    rw [Frame.fill, join_flip]
    exact at_sibling.1 hat
  have hfa : rbChild h d.flip o = some (ptr y) := (at_sibling.1 hat).rbChild_flip
  have hfd := hfr.isRed
  have hc {h' : Heap} {s : Lib.Tree ℕ} (hat' : At h' (⟨d, c, p, s⟩ :: fs) t) :
      rbColor h' p = some c := (at_cons.1 hat').rbColor
  cases hyc : y.color with
  | red =>
    obtain ⟨q, y1, y2, rfl⟩ := eq_node_of_color hyc
    obtain ⟨h1, h2, h3, h4, hs1, hs2, hch, hs3, hrot, hat4⟩ :=
      eraseRotate_outer (e := .left) hat
    refine ⟨h4, o, _, _, ?_, hat4, valid_eraseRotate hft ht hxy.1 hxy.2.1.1 hxy.2.2.1, ?_⟩
    · simp only [eraseRotate, bind_eq_bind]
      rw [hfa, bind_some, hfd, hyc]
      simp only [decide_true, Bool.not_true, Bool.false_eq_true, if_false, pure_def, bind_some]
      rw [hc hat, bind_some, hs1, bind_some, hs2, bind_some, hch, bind_some, hs3, bind_some,
        hrot]
    · cases d <;> simp [Lib.Tree.inorder_join, Lib.Tree.inorder]
  | black =>
    have hxc : x.color = .red := hred.resolve_right (by simp [hyc])
    obtain ⟨b, l, r, rfl⟩ := eq_node_of_color hxc
    obtain ⟨x1, x2, hjn⟩ := exists_join d .red b l r
    rw [hjn] at hat hft hxy ⊢
    have hx := rb_red.1 hxy.1
    obtain ⟨h1, h2, h3, hch, hs1, hs2, hrot, hch3, hat3⟩ := eraseRotate_inner hat
    obtain ⟨h4, h5, h6, h7, hs4, hs5, hch5, hs6, hrot7, hat7⟩ := eraseRotate_outer hat3
    refine ⟨h7, b, _, _, ?_, hat7, valid_eraseRotate hft ht hx.1.1 hx.2.1 hxy.2, ?_⟩
    · simp only [eraseRotate, bind_eq_bind]
      rw [hfa, bind_some, hfd, bind_some, hyc]
      simp only [reduceCtorEq, decide_false, Bool.not_false, if_true, pure_def]
      rw [hch, bind_some, hs1, bind_some, hs2, bind_some, hrot, bind_some, hch3, bind_some,
        bind_some, hc hat3,
        bind_some, hs4, bind_some, hs5, bind_some, hch5,
        bind_some, hs6, bind_some, hrot7]
    · cases d <;> simp [Lib.Tree.inorder_join]

/-! ### The loop -/

/-- The root is on the path to a place below it. -/
theorem RepPath.root_mem (hr : RepPath h (f :: fs) p) : h.root ∈ pathNodes (f :: fs) := by
  induction fs generalizing f p with
  | nil =>
    have hro : h.root = f.label := hr.2.2.2.2
    simp [pathNodes, hro]
  | cons g fs ih =>
    have hm := ih hr.2.2.2.2
    simp only [pathNodes, List.mem_cons, List.mem_append] at hm ⊢
    exact .inr (.inr hm)

/-- A place below the root is not the root. -/
theorem At.ptr_ne_root (hat : At h (f :: fs) t) : ptr t ≠ h.root := by
  intro heq
  have hm := hat.path.root_mem
  rw [← heq] at hm
  rcases ptr_eq_zero_or_mem with hz | ht
  · rw [hz] at hm
    exact hat.path.zero_not_mem hm
  · exact (List.nodup_append'.1 hat.nodup).2.2 ht hm

/-- The children of the sibling, as the loop looks at them. -/
theorem nephews_black (hat : At h (⟨d, c, p, join d .black o x y⟩ :: fs) t) :
    ∃ l r u v, rbChild h .left o = some l ∧ rbChild h .right o = some r ∧
      isRed h l = some u ∧ isRed h r = some v ∧
      ((!u && !v) = true ↔ x.color = .black ∧ y.color = .black) := by
  have hsib : At h (⟨d.flip, c, p, t⟩ :: fs) (join d .black o x y) := at_sibling.1 hat
  have hx : At h (⟨d, .black, o, y⟩ :: ⟨d.flip, c, p, t⟩ :: fs) x := at_cons.2 hsib
  have hy : At h (⟨d.flip, .black, o, x⟩ :: ⟨d.flip, c, p, t⟩ :: fs) y := at_sibling.1 hx
  cases d with
  | left =>
    refine ⟨_, _, _, _, hsib.rbChild, hsib.rbChild_flip, hx.isRed, hy.isRed, ?_⟩
    simp [Color.ne_red]
  | right =>
    refine ⟨_, _, _, _, hsib.rbChild_flip, hsib.rbChild, hy.isRed, hx.isRed, ?_⟩
    simp [Color.ne_red, and_comm]

/-- With the root of the tree at the place black, the whole is a red-black tree. -/
def BlackenValid (fs : List (Frame ℕ)) (t : Lib.Tree ℕ) : Prop :=
  match t with
  | .nil => Valid (plug fs .nil)
  | .node _ a l r => Valid (plug fs (.node .black a l r))

theorem BlackenValid.of_black (hv : Valid (plug fs t)) (ht : t.color = .black) :
    BlackenValid fs t := by
  cases t with
  | nil => exact hv
  | node c a l r =>
    have hc : c = .black := ht
    rw [hc] at hv
    exact hv

/-- Both children of the sibling are black: the lack moves up to the parent. -/
theorem short_recolor (hft : Fits (⟨d, c, p, join d .black o x y⟩ :: fs) (k + 1)) (ht : RB t k)
    (hx : x.color = .black) (hy : y.color = .black) :
    ∃ k', Fits fs (k' + 1) ∧ Short (join d c p t (join d .red o x y)) k' := by
  have hxy := rb_black.1 hft.sibling
  have hs : RB (join d .red o x y) k := rb_red.2 ⟨⟨hxy.1, hx⟩, hxy.2, hy⟩
  cases c with
  | red =>
    refine ⟨k, hft.2.2, .inr ?_⟩
    cases d with
    | left => exact ⟨p, _, _, rfl, ht, hs⟩
    | right => exact ⟨p, _, _, rfl, hs, ht⟩
  | black => exact ⟨k + 1, hft.2, .inl ⟨color_join, rb_black.2 ⟨ht, hs⟩⟩⟩

/-- **The loop of the removal** ends at a node which only has to be made black. -/
theorem eraseLoop_spec (hat : At h fs t) (hft : Fits fs (k + 1)) (ht : Short t k)
    (hfl : fs.length + 1 < fuel ∨ (t.color = .red ∧ 0 < fuel)) :
    ∃ h' fs' t', eraseLoop fuel h (ptr t) (top fs) = some (h', ptr t') ∧ At h' fs' t' ∧
      BlackenValid fs' t' ∧ (plug fs' t').inorder = (plug fs t).inorder := by
  induction fuel generalizing h fs t k with
  | zero => omega
  | succ fuel ih =>
    have hred := hat.isRed
    rcases ht with ⟨hbk, ht⟩ | ⟨a, l, r, rfl, hl, hr⟩
    · rw [decide_eq_false (by simp [hbk])] at hred
      cases fs with
      | nil =>
        have hro : h.root = ptr t := hat.path
        refine ⟨h, [], t, ?_, hat, .of_black ⟨hbk, k, ht⟩ hbk, rfl⟩
        simp only [eraseLoop, bind_eq_bind]
        rw [hred, bind_some, if_neg (by simp [hro])]
        rfl
      | cons f fs =>
        obtain ⟨d, c, p, s⟩ := f
        have hs : ptr s ≠ 0 := by
          obtain ⟨sc, b, l, r, rfl⟩ := hft.sibling.exists_join .left
          have hsib : At h (⟨d.flip, c, p, t⟩ :: fs) (join .left sc b l r) := at_sibling.1 hat
          rw [ptr_join]
          exact hsib.ne_zero
        obtain ⟨v, hsd, hd⟩ := hat.side_eq (.inr hs)
        obtain ⟨h1, c1, fs1, o, x, y, hsib, hat1, hft1, hord1, hln⟩ :=
          eraseSibling_spec hat hft
        obtain ⟨l, r, u, w, hlf, hrt, hrd, hre, hbt⟩ := nephews_black hat1
        have hbd : eraseLoop (fuel + 1) h (ptr t) p =
            if (!u && !w) = true then (rbSetRed h1 o).bind fun h2 =>
              (rbParent h2 p).bind fun q => eraseLoop fuel h2 p q
            else (eraseRotate h1 d p o).bind fun h2 => some (h2, h2.root) := by
          simp only [eraseLoop, bind_eq_bind]
          rw [hred, bind_some, if_pos (by simp [hat.ptr_ne_root]), hsd, bind_some, hd, hsib,
            bind_some, hlf, bind_some, hrt,
            bind_some, hrd, bind_some, hre, bind_some]
          rfl
        by_cases hxy : (!u && !w) = true
        · obtain ⟨hx, hy⟩ := hbt.1 hxy
          obtain ⟨h2, hst, hat2⟩ := (at_sibling.1 hat1).setRed
          have hat2 := at_sibling.1 hat2
          rw [Side.flip_flip] at hat2
          have hup : At h2 fs1 (join d c1 p t (join d .red o x y)) := at_cons.1 hat2
          obtain ⟨k', hft', hsh⟩ := short_recolor hft1 ht hx hy
          have hnx : fs1.length + 1 < fuel ∨
              ((join d c1 p t (join d .red o x y)).color = .red ∧ 0 < fuel) := by
            have hlo : fs.length + 2 < fuel + 1 :=
              hfl.resolve_right fun hr => absurd (hbk.symm.trans hr.1) (by simp)
            rcases hln with hc | rfl
            · exact .inr ⟨by rw [color_join, hc], by omega⟩
            · exact .inl (by omega)
          obtain ⟨h', fs', t', hlp, hrs⟩ := ih hup hft' hsh hnx
          refine ⟨h', fs', t', ?_, hrs.1, hrs.2.1, ?_⟩
          · rw [top, hbd, if_pos hxy, hst, bind_some, hup.rbParent, bind_some]
            rw [ptr_join] at hlp
            exact hlp
          rw [hrs.2.2, ← hord1]
          refine inorder_plug_congr ?_
          cases d <;> simp [Frame.fill, Lib.Tree.inorder_join]
        · have hred1 : x.color = .red ∨ y.color = .red := by
            rw [← Color.ne_black, ← Color.ne_black]
            exact not_and_or.1 (hbt.not.1 hxy)
          obtain ⟨h2, a, q, r, hrot, hat2, hv, hord⟩ :=
            eraseRotate_spec hat1 hft1 ht hred1
          have hro := at_plug.1 hat2
          have hptr : h2.root = ptr (plug fs1 (join d c1 a q r)) := hro.path
          refine ⟨h2, [], plug fs1 (join d c1 a q r), ?_, hro, .of_black hv hv.1, ?_⟩
          · rw [top, hbd, if_neg hxy, hrot, bind_some, hptr]
          rw [← hord1, plug, plug]
          exact inorder_plug_congr hord
    · refine ⟨h, fs, _, ?_, hat, ?_, rfl⟩
      · simp only [eraseLoop, bind_eq_bind]
        rw [hred]
        rfl
      · exact hft.valid (rb_black (d := .left).2 ⟨hl, hr⟩) fun _ => rfl

/-- **`__rb_erase_color`** repairs a tree that lacks a black node at a place. -/
theorem rbEraseColor_spec (hat : At h fs t) (hft : Fits fs (k + 1)) (ht : Short t k)
    (hfl : fs.length + 1 < fuel) :
    Yields (rbEraseColor h fuel (ptr t) (top fs)) (plug fs t).inorder := by
  obtain ⟨h1, fs1, t1, hlp, hat1, hv, hord⟩ := eraseLoop_spec hat hft ht (.inl hfl)
  simp only [rbEraseColor, bind_eq_bind]
  rw [hlp, bind_some]
  cases t1 with
  | nil => exact ⟨h1, _, rfl, at_plug.1 hat1, hv, hord⟩
  | node c a l r =>
    obtain ⟨h2, hst, hat2⟩ := At.setBlack (d := .left) hat1
    refine ⟨h2, _, ?_, at_plug.1 hat2, hv, ?_⟩
    · rw [ptr, if_pos (At.ne_zero (d := .left) hat1), hst]
    rw [← hord]
    exact inorder_plug_congr (inorder_recolor (d := .left))

end NestLinux.RbTree
