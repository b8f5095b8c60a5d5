import NestLinux.RbTree.Erase
import NestLinux.RbTree.Insert
import Mathlib.Data.List.Induction

/-!
# Removal from a red-black tree

A node with one child at most is replaced by the child. Otherwise the leftmost node of its right
subtree is taken out of its place and put in the place of the node. In both cases the colour of
the node that left its place decides whether the tree has to be repaired there.
-/

namespace NestLinux.RbTree

open Lib Lib.Tree Option
open List hiding nil

variable {h h' : Heap} {c : Color} {d : Side} {t x y l r : Lib.Tree ℕ} {a p s up : ℕ} {f : Frame ℕ}
  {fs gs S : List (Frame ℕ)} {k : ℕ} {e : Color} {fuel : ℕ}

/-! ### Pieces of a path -/

theorem RepSeg.reparent {up' : ℕ} (hr : RepSeg h up (f :: S) p)
    (hno : (pathNodes (f :: S)).Nodup) (hup' : 4 ∣ up') :
    RepSeg (putParentIf h (lower (f :: S) p) up') up' (f :: S) p := by
  induction S generalizing f p with
  | nil =>
    obtain ⟨had, -, hc, ⟨hp, hsi, hrp⟩, -⟩ := hr
    have hlab := (nodup_cons.1 hno).1
    rw [mem_append, not_or] at hlab
    have hword : (putParentIf h f.label up').word f.label = withParent (h.word f.label) up' :=
      putParentIf_self had.1
    refine ⟨had, ?_, ?_, ⟨?_, ?_, ?_⟩, trivial⟩
    · rw [lower, lower, hword, parentOf_withParent hup', topOr]
    · rw [lower, lower, hword, colorOf_withParent hup', hc]
    · rw [putParentIf_child, hp]
    · rw [putParentIf_child, hsi]
    · exact hrp.frame (same_putParentIf hlab.1)
  | cons g S ih =>
    obtain ⟨had, hup, hc, ⟨hp, hsi, hrp⟩, hrs⟩ := hr
    have hnd := nodup_cons.1 hno
    rw [mem_append, not_or, nodup_append'] at hnd
    have hm := lower_mem g S f.label
    have hword : (putParentIf h (lower (g :: S) f.label) up').word f.label = h.word f.label := by
      refine putParentIf_of_ne fun heq => hnd.1.2 ?_
      rw [heq]
      exact hm
    refine ⟨had, ?_, ?_, ⟨?_, ?_, ?_⟩, ih hrs hnd.2.2.1⟩
    · rw [lower, hword, hup]
      rfl
    · rw [lower, hword, hc]
    · rw [putParentIf_child, hp]
    · rw [putParentIf_child, hsi]
    · exact hrp.frame (same_putParentIf fun hsib => hnd.2.2.2 hsib hm)

/-! ### A node with one child at most -/

/-- A node with one child at most is replaced by the child. -/
theorem unlinkNode_spec (hat : At h fs (join d c a .nil y)) :
    ∃ h', unlinkNode h a (ptr y) = some (h', ptr y, top fs, c) ∧ At h' fs y := by
  have hp := hat.rbParent
  have hc := hat.rbColor
  obtain ⟨hph, htr, hno⟩ := hat
  rw [ptr_join] at hph
  rw [(perm_inorder_join.append_right (pathNodes fs)).nodup_iff] at hno
  simp only [cons_append, nodup_cons, mem_append, not_or] at hno
  obtain ⟨⟨hay, hafs⟩, hnd⟩ := hno
  obtain ⟨hynd, hfs, hdj⟩ := nodup_append'.1 hnd
  obtain ⟨ha, -, -, -, -, hy⟩ := rep_join.1 htr
  have hyfs : ptr y ∉ pathNodes fs := ptr_not_mem hdj hph.zero_not_mem
  have hph1 : RepPath (putParentIf h (ptr y) (top fs)) fs a :=
    hph.frame (same_putParentIf hyfs) putParentIf_root
  have hlk := replaceChild_eq .left hph1 ha.1 hafs (ptr y)
  have ho {m : List ℕ} (hm : ∀ n ∈ m, n ∉ pathNodes fs) :=
    same_relink (h := putParentIf h (ptr y) (top fs)) hm (ptr y)
  refine ⟨_, ?_, hph1.relink hfs (ptr y), ?_, hnd⟩
  · simp only [unlinkNode, bind_eq_bind]
    rw [hp, bind_some, hc, bind_some, rbSetParentIf_eq, bind_some, hlk]
    rfl
  refine hy.reparent hph.top_dvd hynd (fun hnl => ?_) ?_ fun e => ?_
  · rw [relink_word, putParentIf_self (hy.ptr_ne_zero hnl)]
  · refine (same_putParentIf hynd.not_mem_erase).trans (ho fun n hn hnf => ?_)
    exact hdj (mem_of_mem_erase hn) hnf
  rw [(ho (m := [ptr y]) (fun n hn => mem_singleton.1 hn ▸ hyfs) _
    (mem_singleton_self _)).2, putParentIf_child]

/-! ### A node with two children -/

/-- The successor is taken out of its place. -/
theorem spliceSuccessor_spec (hseg : RepSeg h a S s) (hlf : ∀ f ∈ S, f.side = .left)
    (hs : Addr s) (ha : a ≠ 0) (hr : Rep h s r) (hrt : h.child .right s = ptr r)
    (hat : h.child .right a = lower S s) (hnd : (s :: a :: (r.inorder ++ pathNodes S)).Nodup) :
    ∃ h', spliceSuccessor h a s (ptr r) (topOr a S) = some (h', topOr s S) ∧
      RepSeg h' s S (ptr r) ∧ Rep h' (topOr s S) r ∧ h'.child .right s = lower S (ptr r) ∧
      h'.root = h.root ∧
      ∀ m : List ℕ, (∀ n ∈ m, n ≠ 0 ∧ n ≠ s ∧ n ∉ r.inorder ∧ n ∉ pathNodes S) → Same h h' m := by
  cases S with
  | nil => exact ⟨h, if_pos rfl, trivial, hr, hrt, rfl, fun m _ n _ => ⟨rfl, fun _ => rfl⟩⟩
  | cons f S =>
    rw [nodup_cons, nodup_cons, nodup_append'] at hnd
    simp only [mem_cons, mem_append, not_or] at hnd
    obtain ⟨⟨hsa, hsr, hsS⟩, ⟨har, haS⟩, hrnd, hSnd, hdj⟩ := hnd
    have hsd : f.side = .left := hlf f (by simp)
    have hfm : f.label ∈ pathNodes (f :: S) := by simp [pathNodes]
    have hfa : f.label ≠ a := fun heq => haS (heq ▸ hfm)
    have hbm := lower_mem f S s
    have hz := hseg.zero_not_mem
    have hb0 : lower (f :: S) s ≠ 0 := fun heq => hz (heq ▸ hbm)
    have hrS : ptr r ∉ pathNodes (f :: S) := ptr_not_mem hdj hz
    have hseg1 : RepSeg (putParentIf h (ptr r) f.label) a (f :: S) s :=
      hseg.frame (same_putParentIf hrS)
    have hseg2 := hseg1.relink hSnd (ptr r)
    rw [hsd] at hseg2
    have hr1 : Rep (putParentIf h (ptr r) f.label) f.label r := by
      refine hr.reparent hseg.1.2 hrnd (fun hnl => putParentIf_self (hr.ptr_ne_zero hnl))
        (same_putParentIf hrnd.not_mem_erase) fun e => ?_
      rw [putParentIf_child]
    have hr2 := hr1.frame (same_putChild (d := .left) (p := ptr r) fun hmm => hdj hmm hfm)
    have har2 : (putChild (putParentIf h (ptr r) f.label) .left f.label (ptr r)).child .right a
        = lower (f :: S) s := by
      rw [putChild_of_side (by decide), putParentIf_child, hat]
    have hsm2 {m : List ℕ} (hm : ∀ n ∈ m, n ≠ 0 ∧ n ≠ s ∧ n ∉ r.inorder ∧ n ∉ pathNodes (f :: S)) :
        Same h (putChild (putParentIf h (ptr r) f.label) .left f.label (ptr r)) m := by
      refine (same_putParentIf ?_).trans (same_putChild fun hmm => (hm _ hmm).2.2.2 hfm)
      exact ptr_not_mem (fun n hn hnm => (hm n hnm).2.2.1 hn) fun hmm => (hm 0 hmm).1 rfl
    have hro2 : (putChild (putParentIf h (ptr r) f.label) .left f.label (ptr r)).root = h.root :=
      putParentIf_root
    have hco : spliceSuccessor h a s (ptr r) f.label =
        some (putParentIf (putChild (putChild (putParentIf h (ptr r) f.label) .left f.label (ptr r))
          .right s (lower (f :: S) s)) (lower (f :: S) s) s, f.label) := by
      rw [spliceSuccessor, if_neg hfa, rbSetParentIf_eq]
      simp only [bind_eq_bind, bind_some]
      rw [rbSetChild, deref_of_ne hseg.1.1, bind_some, rbChild_of_ne ha, bind_some, har2,
        rbSetChild, deref_of_ne hs.1, bind_some, rbSetParent_eq hb0]
      rfl
    refine ⟨_, hco, ?_, ?_, ?_, ?_, ?_⟩
    · exact (hseg2.frame (same_putChild hsS)).reparent hSnd hs.2
    · refine (hr2.frame (same_putChild hsr)).frame (same_putParentIf fun hmm => ?_)
      exact hdj hmm hbm
    · rw [putParentIf_child, putChild_self]
      rfl
    · rw [putParentIf_root]
      exact hro2
    intro m hm
    have hs2 := hsm2 hm
    generalize putChild (putParentIf h (ptr r) f.label) .left f.label (ptr r) = h2 at hs2 ⊢
    have hs3 : Same h2 (putChild h2 .right s (lower (f :: S) s)) m :=
      same_putChild fun hmm => (hm s hmm).2.1 rfl
    refine (hs2.trans hs3).trans (same_putParentIf fun hmm => ?_)
    exact (hm _ hmm).2.2.2 hbm

theorem perm_around : (r.inorder ++ pathNodes (S ++ ⟨d, c, s, l⟩ :: fs)).Perm
    (s :: ((r.inorder ++ pathNodes S) ++ (l.inorder ++ pathNodes fs))) := by
  rw [pathNodes_append, pathNodes, ← append_assoc]
  exact perm_middle

/-- The successor gets the word and the left child of the node `a`. -/
theorem takePlace_spec (hs : Addr s) (hseg : RepSeg h s S p) (hr : Rep h (topOr s S) r)
    (hrt : h.child .right s = lower S p) (hl : Rep h a l) (hl0 : ptr l ≠ 0) (hfs : RepPath h fs s)
    (haup : parentOf (h.word a) = top fs) (hac : colorOf (h.word a) = c)
    (hnd : (s :: ((r.inorder ++ pathNodes S) ++ (l.inorder ++ pathNodes fs))).Nodup)
    (hh' : putParentIf (putChild (putWord h s (h.word a)) .left s (ptr l)) (ptr l) s = h') :
    RepPath h' (S ++ ⟨.right, c, s, l⟩ :: fs) p ∧ Rep h' (topOr s S) r := by
  subst hh'
  simp only [nodup_cons, nodup_append', mem_append, not_or] at hnd
  obtain ⟨⟨⟨hsr, hsS⟩, hsl, hsfs⟩, -, ⟨hlnd, -, hld⟩, hdj⟩ := hnd
  have hlme : ptr l ∈ l.inorder := ptr_eq_zero_or_mem.resolve_left hl0
  have hls : ptr l ≠ s := fun heq => hsl (heq ▸ hlme)
  have hlS : ptr l ∉ r.inorder ++ pathNodes S := fun hmm => hdj hmm (mem_append_left _ hlme)
  rw [mem_append, not_or] at hlS
  have hkp {m : List ℕ} (hsm : s ∉ m) (hlm : ptr l ∉ m) :
      Same h (putParentIf (putChild (putWord h s (h.word a)) .left s (ptr l)) (ptr l) s) m :=
    ((same_putWord hsm).trans (same_putChild hsm)).trans (same_putParentIf hlm)
  have hword : (putParentIf (putChild (putWord h s (h.word a)) .left s (ptr l)) (ptr l) s).word s =
      h.word a := by
    rw [putParentIf_of_ne (Ne.symm hls)]
    exact Function.update_self ..
  refine ⟨repPath_append.2 ⟨hseg.frame (hkp hsS hlS.2), hs, ?_, ?_, ⟨?_, ?_, ?_⟩, ?_⟩,
    hr.frame (hkp hsr hlS.1)⟩
  · rw [hword, haup]
  · rw [hword, hac]
  · rw [putParentIf_child]
    exact (putChild_of_side (d := .left) (e := .right) (by decide) s).trans hrt
  · rw [putParentIf_child]
    exact putChild_self
  · refine hl.reparent hs.2 hlnd (fun _ => ?_) (hkp ?_ hlnd.not_mem_erase) fun e => ?_
    · rw [putParentIf_self hl0]
      exact congrArg (withParent · s) (Function.update_of_ne hls _ _)
    · exact fun hmm => hsl (mem_of_mem_erase hmm)
    rw [putParentIf_child, putChild_of_ne hls]
    rfl
  · exact hfs.frame (hkp hsfs fun hmm => hld hlme hmm) putParentIf_root

/-- **The successor takes the place of a node with two children.** -/
theorem replaceBySuccessor_spec (hat : At h (S ++ ⟨.right, c, a, l⟩ :: fs) (.node e s .nil r))
    (hlf : ∀ f ∈ S, f.side = .left) (hl : l ≠ .nil) : ∃ h', replaceBySuccessor h a s =
        some (h', ptr r, top (S ++ ⟨.right, c, s, l⟩ :: fs), e) ∧
      At h' (S ++ ⟨.right, c, s, l⟩ :: fs) r := by
  obtain ⟨hph, ⟨hs, hsup, hsc, -, hsr, hr⟩, hno⟩ := hat
  obtain ⟨hseg, ha, haup, hac, ⟨har, hal, hrl⟩, hfs⟩ := repPath_append.1 hph
  rw [top_append] at hsup
  rw [Lib.Tree.inorder, Lib.Tree.inorder_nil, nil_append, cons_append,
    (perm_around.cons s).nodup_iff, (Perm.swap a s _).nodup_iff, nodup_cons] at hno
  obtain ⟨hao, hnd⟩ := hno
  have hnd' := hnd
  simp only [nodup_cons, nodup_append', mem_cons, mem_append, not_or] at hao hnd'
  obtain ⟨hne, ⟨har', haS⟩, -, hafs⟩ := hao
  obtain ⟨⟨⟨hsr', hsS⟩, hsl, hsfs⟩, hrS, ⟨-, hfd, hld⟩, hdj⟩ := hnd'
  have hlk := replaceChild_eq .left hfs ha.1 hafs s
  have hfs1 := hfs.relink hfd s
  have hsm1 {m : List ℕ} (hm : ∀ n ∈ m, n ∉ pathNodes fs) := same_relink (h := h) hm s
  have hwd1 := relink_word (h := h) fs s
  generalize relink h fs s = h1 at hlk hfs1 hsm1 hwd1
  have ho1 {n : ℕ} (hn : n ∉ pathNodes fs) (e : Side) : h1.child e n = h.child e n :=
    (hsm1 (m := [n]) (fun i hi => mem_singleton.1 hi ▸ hn) n (mem_singleton_self n)).2 e
  have hsm1' : Same h h1 (r.inorder ++ pathNodes S) :=
    hsm1 fun n hn hnf => hdj hn (mem_append_right _ hnf)
  have hnd1 : (s :: a :: (r.inorder ++ pathNodes S)).Nodup := by
    simp only [nodup_cons, nodup_append', mem_cons, mem_append, not_or]
    exact ⟨⟨Ne.symm hne, hsr', hsS⟩, ⟨har', haS⟩, hrS⟩
  have hseg1 : RepSeg h1 a S s := hseg.frame (hsm1'.mono (subset_append_right _ _))
  obtain ⟨h2, hsp, hseg2, hr2, hrt2, hro2, hsm2⟩ :=
    spliceSuccessor_spec hseg1 hlf hs ha.1
      (hr.frame (hsm1'.mono (subset_append_left _ _))) (by rw [ho1 hsfs, hsr])
      (by rw [ho1 hafs]; exact har) hnd1
  have hsy : Same h1 h2 (a :: (l.inorder ++ pathNodes fs)) := by
    refine hsm2 _ (forall_mem_cons.2 ⟨⟨ha.1, hne, har', haS⟩, fun n hn => ?_⟩)
    refine ⟨?_, ?_, fun hmm => hdj (mem_append_left _ hmm) hn,
      fun hmm => hdj (mem_append_right _ hmm) hn⟩ <;> rintro rfl <;> rw [mem_append] at hn
    · exact hn.elim hrl.zero_not_mem hfs.zero_not_mem
    · exact hn.elim hsl hsfs
  have ha2 := hsy a (by simp)
  have hl0 : ptr l ≠ 0 := hrl.ptr_ne_zero hl
  obtain ⟨hpath, htree⟩ := takePlace_spec hs hseg2 hr2 hrt2
    ((hrl.frame (hsm1 fun n hn => hld hn)).frame (hsy.mono fun n hn => by simp [hn])) hl0
    (hfs1.frame (hsy.mono fun n hn => by simp [hn]) hro2) (by rw [ha2.1, hwd1, haup])
    (by rw [ha2.1, hwd1, hac]) hnd rfl
  refine ⟨_, ?_, hpath, by rw [top_append]; exact htree, perm_around.nodup_iff.2 hnd⟩
  have hal3 : (putWord h2 s (h2.word a)).child .left a = ptr l := by
    rw [putWord_child, ha2.2, ho1 hafs]
    exact hal
  simp only [replaceBySuccessor, bind_eq_bind]
  rw [rbParent_of_ne ha.1, haup, bind_some, hlk, bind_some, rbChild_of_ne hs.1, ho1 hsfs, hsr,
    bind_some, rbParent_of_ne hs.1, hwd1, hsup, bind_some,
    rbColor_of_ne hs.1, hwd1, hsc, bind_some, top, hsp, bind_some,
    deref_of_ne hs.1, bind_some, rbChild_of_ne ha.1, hal3, bind_some, rbSetChild,
    deref_of_ne hs.1, bind_some, rbSetParent_eq hl0, bind_some, top_append]
  rfl

/-- The loop that looks for the successor follows the left edge. -/
theorem leftmost_spec (hr : Rep h up (plug S (.node e s .nil r)))
    (hlf : ∀ f ∈ S, f.side = .left) (hfl : S.length < fuel) :
    leftmost h fuel (ptr (plug S (.node e s .nil r))) = some s := by
  induction fuel generalizing S up with
  | zero => omega
  | succ fuel ih =>
    induction S using reverseRecOn with
    | nil =>
      have hch : rbChild h .left s = some 0 := by
        rw [rbChild_of_ne hr.1.1, hr.2.2.2.1.1, ptr]
      simp only [leftmost, plug, ptr]
      rw [hch]
      rfl
    | append_singleton S f _ =>
      obtain ⟨d, c, b, x⟩ := f
      have hd : d = .left := hlf ⟨d, c, b, x⟩ (by simp)
      subst hd
      rw [plug_append] at hr ⊢
      obtain ⟨hb, -, -, ⟨hch, hbl⟩, -⟩ := hr
      have hne : ptr (plug S (.node e s .nil r)) ≠ 0 :=
        hbl.ptr_ne_zero (plug_ne_nil (by simp))
      have hsp := ih hbl (fun f hf => hlf f (by simp [hf])) (by simp at hfl; omega)
      simp only [leftmost, bind_eq_bind, plug, Frame.fill, ptr_join]
      rw [rbChild_of_ne hb.1, hch, bind_some, if_pos hne, hsp]

/-! ### The whole removal -/

/-- The tree at the place of a node that was taken out. -/
theorem fits_of_unlink (hv : Valid (plug fs (join d e a .nil y))) :
    (e = .black → ∃ k, Fits fs (k + 1) ∧ Short y k) ∧
      (e = .red → ∃ k, Fits fs k ∧ RB y k ∧ y.color = .black) := by
  obtain ⟨hro, j, hj⟩ := hv
  obtain ⟨k, hft, hk, -⟩ := fits_of_plug hj hro
  constructor
  · rintro rfl
    cases k with
    | zero => exact absurd hk not_rb_black_zero
    | succ k => exact ⟨k, hft, (rb_black.1 hk).2.short⟩
  · rintro rfl
    exact ⟨k, hft, (rb_red.1 hk).2⟩

theorem erase_middle {l1 l2 : List ℕ} (hnd : (l1 ++ a :: l2).Nodup) :
    (l1 ++ a :: l2).erase a = l1 ++ l2 := by
  have hn : a ∉ l1 := fun hm =>
    (nodup_append'.1 hnd).2.2 hm mem_cons_self
  rw [erase_append_right _ hn, erase_cons_head]

/-- The end of `rb_erase`: the tree is repaired if the node that left its place was black. -/
theorem eraseEnd_spec (hat : At h fs t) (hbk : e = .black → ∃ k, Fits fs (k + 1) ∧ Short t k)
    (hred : e = .red → ∃ k, Fits fs k ∧ RB t k ∧ t.color = .black) (hfl : fs.length + 1 < fuel) :
    Yields (if e = .black then rbEraseColor h fuel (ptr t) (top fs) else some h)
      (plug fs t).inorder := by
  cases e with
  | black =>
    obtain ⟨k, hft, ht⟩ := hbk rfl
    exact rbEraseColor_spec hat hft ht hfl
  | red =>
    obtain ⟨k, hft, ht, hc⟩ := hred rfl
    exact ⟨h, _, rfl, at_plug.1 hat, hft.valid ht fun _ => hc, rfl⟩

/-- Removal of a node with one child at most. -/
theorem rbErase_unlink (hat : At h fs (join d e a .nil y))
    (hv : Valid (plug fs (join d e a .nil y))) (hfl : fs.length + 1 < fuel) :
    Yields (rbErase h fuel a) (plug fs y).inorder := by
  obtain ⟨h1, hun, hat1⟩ := unlinkNode_spec hat
  obtain ⟨hbk, hred⟩ := fits_of_unlink hv
  have hco : rbErase h fuel a = (unlinkNode h a (ptr y)).bind fun r =>
      if r.2.2.2 = .black then rbEraseColor r.1 fuel r.2.1 r.2.2.1 else some r.1 := by
    simp only [rbErase, bind_eq_bind]
    cases d with
    | left =>
      have hch : rbChild h .right a = some (ptr y) := hat.rbChild_flip
      rw [hat.rbChild, bind_some, hch, bind_some]
      rfl
    | right =>
      have hch : rbChild h .left a = some (ptr y) := hat.rbChild_flip
      rw [hch, bind_some, hat.rbChild, bind_some]
      by_cases hy : ptr y = 0
      · rw [hy]
        rfl
      rw [if_neg hy]
      rfl
  rw [hco, hun]
  exact eraseEnd_spec hat1 hbk hred hfl

theorem rbErase_replace (hat : At h fs (.node c a l (plug S (.node e s .nil r)))) (hl : l ≠ .nil)
    (hlf : ∀ f ∈ S, f.side = .left)
    (hv : Valid (plug fs (.node c a l (plug S (.node e s .nil r)))))
    (hfl : S.length + fs.length + 2 < fuel) :
    Yields (rbErase h fuel a) (plug fs (.node c s l (plug S r))).inorder := by
  have hnd : At h fs (join .left c a l (plug S (.node e s .nil r))) := hat
  have hplc : At h (S ++ ⟨.right, c, a, l⟩ :: fs) (.node e s .nil r) := by
    rw [at_plug, plug_append, ← at_plug]
    exact at_cons.2 hat
  have hv' : Valid (plug (S ++ ⟨.right, c, a, l⟩ :: fs) (join .left e s .nil r)) := by
    rw [plug_append]
    exact hv
  obtain ⟨h1, hrp, hat1⟩ := replaceBySuccessor_spec hplc hlf hl
  obtain ⟨hbk, hred⟩ := fits_of_unlink hv'
  have hbk' (he : e = .black) : ∃ k, Fits (S ++ ⟨.right, c, s, l⟩ :: fs) (k + 1) ∧ Short r k := by
    obtain ⟨k, hft, hsh⟩ := hbk he
    exact ⟨k, hft.relabel s, hsh⟩
  have hred' (he : e = .red) :
      ∃ k, Fits (S ++ ⟨.right, c, s, l⟩ :: fs) k ∧ RB r k ∧ r.color = .black := by
    obtain ⟨k, hft, hrb⟩ := hred he
    exact ⟨k, hft.relabel s, hrb⟩
  have hln : (S ++ ⟨.right, c, s, l⟩ :: fs).length + 1 < fuel := by
    rw [length_append]
    omega
  have hed := eraseEnd_spec hat1 hbk' hred' hln
  rw [plug_append] at hed
  have hl0 : ptr l ≠ 0 := hnd.tree.2.2.2.1.2.ptr_ne_zero hl
  have hr := hnd.tree.2.2.2.2.2
  have hr0 := hr.ptr_ne_zero (plug_ne_nil (by simp))
  simp only [rbErase, bind_eq_bind]
  have hch : rbChild h .right a = some (ptr (plug S (.node e s .nil r))) := hnd.rbChild_flip
  rw [hnd.rbChild, bind_some, hch, bind_some, if_neg hl0, if_neg hr0,
    leftmost_spec hr hlf (by omega), bind_some, hrp]
  exact hed

/-- **Removal.** Taking a node out of a red-black tree follows no null pointer and ends; it gives a
red-black tree with the other nodes in their order. -/
theorem rbErase_spec (hat : At h [] t) (hv : Valid t) (ha : a ∈ t.inorder)
    (hfl : t.inorder.length + 1 < fuel) : Yields (rbErase h fuel a) (t.inorder.erase a) := by
  have hnd : t.inorder.Nodup := (nodup_append'.1 hat.nodup).1
  obtain ⟨fs, c, l, r, rfl⟩ := exists_plug ha
  have hplc := at_plug.2 hat
  have hln : fs.length + 1 < fuel := by
    have hph := length_le_plug fs (.node c a l r)
    omega
  have her : (plug fs (.node c a l r)).inorder.erase a =
      (before fs ++ l.inorder) ++ (r.inorder ++ behind fs) := by
    have hin : (plug fs (.node c a l r)).inorder =
        (before fs ++ l.inorder) ++ a :: (r.inorder ++ behind fs) := by
      rw [inorder_plug, Lib.Tree.inorder]
      simp
    rw [hin] at hnd ⊢
    exact erase_middle hnd
  rw [her]
  by_cases hl : l = .nil
  · subst hl
    simpa [inorder_plug] using rbErase_unlink (d := .left) hplc hv hln
  by_cases hr : r = .nil
  · subst hr
    simpa [inorder_plug] using rbErase_unlink (d := .right) hplc hv hln
  obtain ⟨S, e, s, x, rfl, hlf⟩ := exists_plug_left hr
  have hlo : S.length + fs.length + 2 < fuel := by
    have hph := length_le_plug (S ++ ⟨.right, c, a, l⟩ :: fs) (.node e s .nil x)
    rw [plug_append, length_append] at hph
    have hsm : S.length + (fs.length + 1) ≤
        (plug fs (.node c a l (plug S (.node e s .nil x)))).inorder.length := hph
    omega
  simpa [inorder_plug, Lib.Tree.inorder, before_of_left hlf] using
    rbErase_replace hplc hl hlf hv hlo

/-- **Insertion and removal keep a red-black tree.** Both end without following a null pointer, for
every tree on the heap, every empty place of it and every node of it; the nodes are those of the
old tree in their order, with the new node at its place, or without the removed one. -/
theorem rbInsert_rbErase (hat : At h [] t) (hvalid : Valid t) :
    (∀ fs n fuel, t = plug fs .nil → Addr n → n ∉ t.inorder → t.inorder.length + 1 < fuel →
      ∃ h' T, ((rbLinkNode h n (top fs) (slotSide fs)).bind fun h => rbInsertColor h fuel n)
          = some h' ∧
        At h' [] T ∧ Valid T ∧ t.inorder = before fs ++ behind fs ∧
        T.inorder = before fs ++ n :: behind fs) ∧
    (∀ a fuel, a ∈ t.inorder → t.inorder.length + 1 < fuel →
      ∃ h' T, rbErase h fuel a = some h' ∧ At h' [] T ∧ Valid T ∧
        T.inorder = t.inorder.erase a) := by
  constructor
  · intro fs n fuel hplace hn hnew hfuel
    subst hplace
    have hfuel' : (plug fs .nil).inorder.length < fuel := by omega
    obtain ⟨h', T, hres, hT, hvalidT, hord⟩ := rbInsert_spec hat hvalid hn hnew hfuel'
    refine ⟨h', T, hres, hT, hvalidT, ?_, hord⟩
    rw [inorder_plug, Lib.Tree.inorder_nil, append_nil]
  · intro a fuel ha hfuel
    exact rbErase_spec hat hvalid ha hfuel

/-- The nodes 4, 8 and 12 are black, and 16 is red and below 12. -/
def fourNodes : Heap where
  word a := if a = 8 then withBlack 0 else if a = 16 then 12 else withBlack 8
  child d a := match d, a with
    | .left, 8 => 4
    | .right, 8 => 12
    | .right, 12 => 16
    | _, _ => 0
  root := 8

/-- A node goes in below the red one, and one is removed that has a black sibling: both
rotate. -/
theorem rbInsert_rbErase_fourNodes :
    (∃ h' T, ((rbLinkNode fourNodes 20 16 .right).bind fun h => rbInsertColor h 6 20) = some h' ∧
      At h' [] T ∧ Valid T ∧ T.inorder = [4, 8, 12, 16, 20]) ∧
    ∃ h' T, rbErase fourNodes 6 4 = some h' ∧ At h' [] T ∧ Valid T ∧ T.inorder = [8, 12, 16] := by
  let leaf (c : Color) (a : ℕ) : Lib.Tree ℕ := .node c a .nil .nil
  have hat : At fourNodes []
      (.node .black 8 (leaf .black 4) (.node .black 12 .nil (leaf .red 16))) := by
    refine ⟨rfl, ?_, by decide⟩
    simp [Rep, fourNodes, Addr, parentOf_withBlack, parentOf_self, ptr, leaf, top, colorOf]
    decide
  obtain ⟨hins, hdel⟩ :=
    rbInsert_rbErase hat ⟨rfl, 2, ⟨rfl, rfl⟩, rfl, ⟨rfl, rfl⟩, rfl, rfl⟩
  constructor
  · obtain ⟨h', T, hres, hT, hvalidT, -, hord⟩ :=
      hins [⟨.right, .red, 16, .nil⟩, ⟨.right, .black, 12, .nil⟩,
        ⟨.right, .black, 8, leaf .black 4⟩]
        20 6 rfl ⟨by decide, by decide⟩ (by decide) (by decide)
    exact ⟨h', T, hres, hT, hvalidT, hord⟩
  · exact hdel 4 6 (by decide) (by decide)

end NestLinux.RbTree
