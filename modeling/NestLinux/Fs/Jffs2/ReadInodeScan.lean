import NestLinux.Fs.Jffs2.ReadInode
import Mathlib.Data.List.Pairwise
import Mathlib.Data.List.Nodup
import Mathlib.Order.Nat

/-!
# The tree of nodes kept while a JFFS2 inode is read

After any number of nodes the tree is sorted, every node that one before it reaches into
is marked as overlapped, and no good node was dropped that is not hidden, byte by byte,
by a good node of the tree that is at least as new. The nodes of the tree are those
still worth adding; the marks tell the build which of them may be added on their own.

One step of the code loses a mark: where a node is replaced by its copy of the same
version, the copy is not marked. The step keeps the marks right if no node before reaches
into the one replaced (`SafeStep`).
-/

namespace NestLinux.Jffs2

open BinaryTree Lib Function Option
open List hiding nil

variable (rot : Rotations TmpDnode) {rii : ReadinodeInfo} {tn x : TmpDnode}
  {A B C T fed : List TmpDnode} {base flags : ℕ → RefFlags} {t : BinaryTree TmpDnode}
  {R : TmpDnode → TmpDnode → Prop} {flags' : ℕ → RefFlags} {S P Q : List TmpDnode} {fuel : ℕ}

/-- Whether a node holds the byte `b`. -/
def tnCovers (t : TmpDnode) (b : ℕ) : Prop := t.fn.ofs ≤ b ∧ b < t.fn.ofs + t.fn.size

instance (t : TmpDnode) (b : ℕ) : Decidable (tnCovers t b) :=
  inferInstanceAs (Decidable (_ ∧ _))

/-- Every byte of a good node is in a good node of `S` that is at least as new. -/
def Covered (fed S : List TmpDnode) : Prop :=
  ∀ f ∈ fed, f.good = true → ∀ b, tnCovers f b →
    ∃ t ∈ S, t.good = true ∧ tnCovers t b ∧ f.version ≤ t.version

def Before (x z : TmpDnode) : Prop :=
  x.fn.ofs < z.fn.ofs ∨ x.fn.ofs = z.fn.ofs ∧ x.fn.size ≤ z.fn.size

/-- If `x` reaches into `z`, then `z` is marked. -/
def Noted (overlapped : ℕ → Bool) (x z : TmpDnode) : Prop :=
  z.fn.ofs < x.fn.ofs + x.fn.size → overlapped z.fn.id = true

/-- The flags of a node say what is known about its CRC: a bad one was not checked. -/
def Sound (flags : ℕ → RefFlags) (t : TmpDnode) : Prop :=
  flags t.fn.id ≠ .obsolete ∧ (t.good = false → flags t.fn.id = .unchecked)

instance (flags : ℕ → RefFlags) (t : TmpDnode) : Decidable (Sound flags t) :=
  inferInstanceAs (Decidable (_ ∧ _))

/-- What holds of the tree of nodes. -/
structure Scanned (rii : ReadinodeInfo) (T : List TmpDnode) : Prop where
  walk : inorder rii.tnRoot = T
  nodup : (T.map fun t => t.fn.id).Nodup
  sorted : T.Pairwise Before
  noted : T.Pairwise (Noted rii.overlapped)
  sound : ∀ t ∈ T, Sound rii.flags t

/-- No node before `x` reaches into it, if it is a bad copy of `tn`. -/
def Unreached (tn y x : TmpDnode) : Prop :=
  x.version = tn.version → x.good = false → y.fn.ofs + y.fn.size ≤ x.fn.ofs

instance (tn : TmpDnode) : DecidableRel (Unreached tn) :=
  fun _ _ => inferInstanceAs (Decidable (_ → _ → _))

/-- Where the tree has a bad copy of the new node, no node before reaches into it. -/
def SafeStep (rii : ReadinodeInfo) (tn : TmpDnode) : Prop :=
  (inorder rii.tnRoot).Pairwise (Unreached tn)

instance (rii : ReadinodeInfo) (tn : TmpDnode) : Decidable (SafeStep rii tn) :=
  inferInstanceAs (Decidable (List.Pairwise _ _))

/-- The data nodes of one inode: not empty, inside 32 bits, each an object of its own, and
of one range wherever two have the same version. -/
structure DataNodes (fed : List TmpDnode) : Prop where
  pos : ∀ t ∈ fed, 0 < t.fn.size
  bound : ∀ t ∈ fed, t.fn.ofs + t.fn.size < 2 ^ 32
  nodup : (fed.map fun t => t.fn.id).Nodup
  range : ∀ t ∈ fed, ∀ u ∈ fed, t.version = u.version → t.fn.ofs = u.fn.ofs ∧ t.fn.size = u.fn.size

/-! ### Checks and pointers -/

theorem tnEnd_eq (h : x.fn.ofs + x.fn.size < 2 ^ 32) : tnEnd x = x.fn.ofs + x.fn.size :=
  add32_of_lt h

/-- The check finds out whether the node is good, and changes no other flag. -/
theorem checkTnNode_spec (h : Sound flags x) :
    ∃ flags', checkTnNode x flags = some (x.good, flags') ∧
      (∀ i, i ≠ x.fn.id → flags' i = flags i) ∧ (x.good = true → Sound flags' x) := by
  rw [checkTnNode, if_neg h.1]
  by_cases hun : flags x.fn.id = .unchecked
  · rw [if_neg (not_not.2 hun)]
    cases hgood : x.good with
    | true =>
      refine ⟨_, if_pos rfl, fun i hi => update_of_ne hi _ _, fun _ => ?_⟩
      exact ⟨by simp, by simp [hgood]⟩
    | false =>
      exact ⟨_, if_neg (by simp), fun i hi => update_of_ne hi _ _, by simp⟩
  · rw [if_pos hun]
    cases hgood : x.good with
    | true => exact ⟨flags, rfl, fun _ _ => rfl, fun _ => h⟩
    | false => exact absurd (h.2 hgood) hun

theorem tnNext_walk (hw : inorder t = A ++ x :: B)
    (hnd : ((A ++ x :: B).map fun t => t.fn.id).Nodup) : tnNext x t = B.head? := by
  rw [tnNext, hw]
  exact nextAfter_sameKey hnd

theorem tnPrev_walk (hw : inorder t = A ++ x :: B)
    (hnd : ((A ++ x :: B).map fun t => t.fn.id).Nodup) : tnPrev x t = A.getLast? := by
  rw [tnPrev, hw]
  exact prevBefore_sameKey hnd

theorem tnErase_walk (hw : inorder rii.tnRoot = A ++ x :: B)
    (hnd : ((A ++ x :: B).map fun t => t.fn.id).Nodup) :
    inorder (tnErase rot x rii).tnRoot = A ++ B := by
  rw [tnErase, Rotations.inorder_rotate, inorder_unlink, hw]
  exact filter_sameKey hnd

theorem replaceTn_walk (hw : inorder rii.tnRoot = A ++ x :: B)
    (hnd : ((A ++ x :: B).map fun t => t.fn.id).Nodup) (y : TmpDnode) :
    inorder (replaceTn x y rii).tnRoot = A ++ y :: B := by
  rw [replaceTn, inorder_map, hw]
  exact map_sameKey hnd y

/-- Every other node of the tree is another object. -/
theorem Scanned.id_ne (h : Scanned rii (A ++ x :: C)) : ∀ t ∈ A ++ C, t.fn.id ≠ x.fn.id := by
  obtain ⟨hA, hC⟩ := sameKey_of_nodup h.nodup
  intro t ht
  rcases mem_append.1 ht with ht | ht
  · exact of_decide_eq_false (hA t ht)
  · exact of_decide_eq_false (hC t ht)

theorem pairwise_insert (h : (A ++ C).Pairwise R)
    (hA : ∀ z ∈ A, R z x) (hC : ∀ z ∈ C, R x z) : (A ++ x :: C).Pairwise R := by
  rw [pairwise_append] at h ⊢
  exact ⟨h.1, pairwise_cons.2 ⟨hC, h.2.1⟩, fun a ha => forall_mem_cons.2 ⟨hA a ha, h.2.2 a ha⟩⟩

/-- A relation along a list survives the replacement of one element by a similar one. -/
theorem pairwise_replace {y : TmpDnode} (h : (A ++ x :: C).Pairwise R)
    (hA : ∀ z ∈ A, R z x → R z y) (hC : ∀ z ∈ C, R x z → R y z) : (A ++ y :: C).Pairwise R := by
  have hold := h.sublist ((sublist_cons_self x C).append_left A)
  rw [pairwise_append, pairwise_cons] at h
  exact pairwise_insert hold (fun z hz => hA z hz (h.2.2 z hz x mem_cons_self))
    fun z hz => hC z hz (h.2.1.1 z hz)

/-- The mark of the first node does not matter. -/
theorem Noted.clear_head {overlapped : ℕ → Bool} (h : (x :: C).Pairwise (Noted overlapped))
    (hnd : ((x :: C).map fun t => t.fn.id).Nodup) (v : Bool) :
    (x :: C).Pairwise (Noted (update overlapped x.fn.id v)) := by
  rw [map_cons, nodup_cons] at hnd
  have hne : ∀ z ∈ C, z.fn.id ≠ x.fn.id := fun z hz hid => hnd.1 (hid ▸ mem_map_of_mem hz)
  rw [pairwise_cons] at h ⊢
  constructor
  · intro z hz hr
    rw [update_of_ne (hne z hz)]
    exact h.1 z hz hr
  refine h.2.imp_of_mem ?_
  intro y z _ hz hyz hr
  rw [update_of_ne (hne z hz)]
  exact hyz hr

/-! ### Taking in a node -/

/-- The invariant of the scan, after the nodes `fed`; the flags of other nodes are those
of `base`. -/
structure ScanInv (base : ℕ → RefFlags) (rii : ReadinodeInfo) (fed : List TmpDnode) : Prop where
  scanned : Scanned rii (inorder rii.tnRoot)
  sub : ∀ t ∈ inorder rii.tnRoot, t ∈ fed
  covered : Covered fed (inorder rii.tnRoot)
  frame : ∀ i, i ∉ fed.map (fun t => t.fn.id) → rii.flags i = base i

/-- The invariant while a new node is compared with those of the tree: it takes part in
covering what was dropped. -/
structure Pondering (base : ℕ → RefFlags) (tn : TmpDnode) (fed : List TmpDnode)
    (rii : ReadinodeInfo) (T : List TmpDnode) : Prop where
  scanned : Scanned rii T
  sub : ∀ t ∈ T, t ∈ fed
  covered : Covered fed (tn :: T)
  tnSound : Sound rii.flags tn
  safe : T.Pairwise (Unreached tn)
  frame : ∀ i, i ∉ (tn :: fed).map (fun t => t.fn.id) → rii.flags i = base i

theorem Sound.congr (h : Sound flags x)
    (hflg : flags' x.fn.id = flags x.fn.id) : Sound flags' x := by
  rwa [Sound, hflg]

/-- A node that is not needed may leave what covers the others. -/
theorem Covered.drop {S' : List TmpDnode} (h : Covered fed (x :: S)) (hS : ∀ t ∈ S, t ∈ S')
    (hx : x.good = true → ∃ u ∈ S', u.good = true ∧ (∀ b, tnCovers x b → tnCovers u b) ∧
      x.version ≤ u.version) : Covered fed S' := by
  intro f hf hgood b hb
  obtain ⟨t, ht, htg, htb, hver⟩ := h f hf hgood b hb
  rcases mem_cons.1 ht with rfl | ht
  · obtain ⟨u, hu, hug, hub, huv⟩ := hx htg
    exact ⟨u, hu, hug, hub b htb, Nat.le_trans hver huv⟩
  · exact ⟨t, hS t ht, htg, htb, hver⟩

/-- A new node that is covered, or bad, is covered with the others. -/
theorem Covered.cons (h : Covered fed S)
    (hx : x.good = true → ∃ u ∈ S, u.good = true ∧ (∀ b, tnCovers x b → tnCovers u b) ∧
      x.version ≤ u.version) : Covered (x :: fed) S := by
  intro f hf hgood b hb
  rcases mem_cons.1 hf with rfl | hf
  · obtain ⟨u, hu, hug, hub, huv⟩ := hx hgood
    exact ⟨u, hu, hug, hub b hb, huv⟩
  · exact h f hf hgood b hb

section Ponder

variable (hda : DataNodes (tn :: fed))

include hda

theorem DataNodes.id_ne (hx : x ∈ fed) : x.fn.id ≠ tn.fn.id := by
  have hnd := hda.nodup
  rw [map_cons, nodup_cons] at hnd
  intro hid
  exact hnd.1 (hid ▸ mem_map_of_mem hx)

theorem DataNodes.tnEnd_eq (hx : x ∈ tn :: fed) : tnEnd x = x.fn.ofs + x.fn.size :=
  Jffs2.tnEnd_eq (hda.bound x hx)

/-- **Erasing a node** that is bad, or hidden by the new one. -/
theorem Pondering.erase (h : Pondering base tn fed rii (A ++ x :: C)) (flags' : ℕ → RefFlags)
    (hflg : ∀ i, i ≠ x.fn.id → flags' i = rii.flags i)
    (hx : x.good = true → tn.good = true ∧ (∀ b, tnCovers x b → tnCovers tn b) ∧
      x.version ≤ tn.version) :
    Pondering base tn fed { tnErase rot x rii with flags := flags' } (A ++ C) := by
  have hxf : x ∈ fed := h.sub x (by simp)
  have hsub : (A ++ C).Sublist (A ++ x :: C) := (sublist_cons_self x C).append_left A
  have hne := h.scanned.id_ne
  refine ⟨⟨tnErase_walk rot h.scanned.walk h.scanned.nodup, ?_, h.scanned.sorted.sublist hsub,
    h.scanned.noted.sublist hsub, ?_⟩, fun t ht => h.sub t (hsub.subset ht), ?_, ?_,
    h.safe.sublist hsub, ?_⟩
  · exact h.scanned.nodup.sublist (hsub.map _)
  · intro t ht
    exact (h.scanned.sound t (hsub.subset ht)).congr (hflg _ (hne t ht))
  · have hpr : Covered fed (x :: tn :: (A ++ C)) := by
      intro f hf hgood b hb
      obtain ⟨t, ht, hrs⟩ := h.covered f hf hgood b hb
      refine ⟨t, ?_, hrs⟩
      simp only [mem_cons, mem_append] at ht ⊢
      tauto
    exact hpr.drop (fun t ht => ht) fun hgood => ⟨tn, mem_cons_self, hx hgood⟩
  · exact h.tnSound.congr (hflg _ (hda.id_ne hxf).symm)
  intro i hi
  have hix : i ≠ x.fn.id := by
    rintro rfl
    exact hi (mem_map_of_mem (mem_cons_of_mem tn hxf))
  exact (hflg i hix).trans (h.frame i hi)

/-- A check of a good node changes flags only, and so does one of a bad node that is then killed. -/
theorem Pondering.check (h : Pondering base tn fed rii T) (hx : x ∈ tn :: T) :
    ∃ flags', checkTnNode x rii.flags = some (x.good, flags') ∧
      (∀ i, i ≠ x.fn.id → killTn x flags' i = rii.flags i) ∧
      (x.good = true → Pondering base tn fed { rii with flags := flags' } T) := by
  obtain ⟨flags', hchk, hflg, hsd⟩ :=
    checkTnNode_spec (forall_mem_cons.2 ⟨h.tnSound, h.scanned.sound⟩ x hx)
  refine ⟨flags', hchk, fun i hi => (update_of_ne hi _ _).trans (hflg i hi), fun hgood => ?_⟩
  have hfed : ∀ t ∈ tn :: T, t ∈ tn :: fed :=
    forall_mem_cons.2 ⟨mem_cons_self, fun t ht => mem_cons_of_mem tn (h.sub t ht)⟩
  have hkp : ∀ t ∈ tn :: T, Sound rii.flags t → Sound flags' t := by
    intro t ht hs'
    by_cases hid : t.fn.id = x.fn.id
    · have heq := inj_on_of_nodup_map hda.nodup (hfed t ht) (hfed x hx) hid
      exact heq ▸ hsd hgood
    · exact hs'.congr (hflg _ hid)
  have hs := h.scanned
  refine ⟨⟨hs.walk, hs.nodup, hs.sorted, hs.noted, ?_⟩, h.sub, h.covered, ?_, h.safe, ?_⟩
  · exact fun t ht => hkp t (mem_cons_of_mem tn ht) (hs.sound t ht)
  · exact hkp tn mem_cons_self h.tnSound
  intro i hi
  have hix : i ≠ x.fn.id := fun hix => hi (hix ▸ mem_map_of_mem (hfed x hx))
  exact (hflg i hix).trans (h.frame i hi)

/-- **Dropping the new node**, which is bad or hidden by a node of the tree. -/
theorem Pondering.dropNew (h : Pondering base tn fed rii T)
    (hflg : ∀ i, i ≠ tn.fn.id → flags' i = rii.flags i)
    (htn : tn.good = true → ∃ u ∈ T, u.good = true ∧ (∀ b, tnCovers tn b → tnCovers u b) ∧
      tn.version ≤ u.version) : ScanInv base { rii with flags := flags' } (tn :: fed) := by
  have hs := h.scanned
  have hwk : inorder ({ rii with flags := flags' } : ReadinodeInfo).tnRoot = T := hs.walk
  have hc : Covered (tn :: fed) T := (h.covered.drop (fun t ht => ht) htn).cons htn
  refine ⟨⟨rfl, ?_, ?_, ?_, ?_⟩, ?_, ?_, ?_⟩
  · rw [hwk]
    exact hs.nodup
  · rw [hwk]
    exact hs.sorted
  · rw [hwk]
    exact hs.noted
  · rw [hwk]
    exact fun t ht => (hs.sound t ht).congr (hflg _ (hda.id_ne (h.sub t ht)))
  · rw [hwk]
    exact fun t ht => mem_cons_of_mem tn (h.sub t ht)
  · rwa [hwk]
  intro i hi
  have hitn : i ≠ tn.fn.id := by
    rintro rfl
    exact hi (mem_map_of_mem mem_cons_self)
  exact (hflg i hitn).trans (h.frame i hi)

/-- The new node is in the tree now. -/
theorem Pondering.joined {rii' : ReadinodeInfo} (h : Pondering base tn fed rii (A ++ C))
    (hw : inorder rii'.tnRoot = A ++ tn :: C) (hflg : rii'.flags = rii.flags)
    (hst : (A ++ tn :: C).Pairwise Before)
    (hntd : (A ++ tn :: C).Pairwise (Noted rii'.overlapped)) : ScanInv base rii' (tn :: fed) := by
  have hpr : (A ++ tn :: C).Perm (tn :: (A ++ C)) := perm_middle
  have hm : ∀ t ∈ A ++ tn :: C, t = tn ∨ t ∈ A ++ C := fun t ht => mem_cons.1 (hpr.mem_iff.1 ht)
  refine ⟨⟨rfl, ?_, ?_, ?_, ?_⟩, ?_, ?_, ?_⟩
  all_goals try rw [hw]
  · rw [(hpr.map _).nodup_iff, map_cons, nodup_cons]
    refine ⟨fun hmm => ?_, h.scanned.nodup⟩
    obtain ⟨z, hz, hid⟩ := mem_map.1 hmm
    exact hda.id_ne (h.sub z hz) hid
  · exact hst
  · exact hntd
  · intro t ht
    rw [hflg]
    rcases hm t ht with rfl | ht
    · exact h.tnSound
    · exact h.scanned.sound t ht
  · intro t ht
    rcases hm t ht with rfl | ht
    · exact mem_cons_self
    · exact mem_cons_of_mem tn (h.sub t ht)
  · have hc : Covered fed (A ++ tn :: C) := by
      intro f hf hgood b hb
      obtain ⟨t, ht, hrs⟩ := h.covered f hf hgood b hb
      exact ⟨t, hpr.mem_iff.2 ht, hrs⟩
    exact hc.cons fun hgood => ⟨tn, by simp, hgood, fun _ hb => hb, le_rfl⟩
  · intro i hi
    rw [hflg]
    exact h.frame i hi

include rot in
/-- **Replacing a bad copy** by the new node. The new node's mark is not set, which is
right only if no node before reaches into it. -/
theorem Pondering.replace (h : Pondering base tn fed rii (A ++ x :: C))
    (hflg : ∀ i, i ≠ x.fn.id → flags' i = rii.flags i) (hver : x.version = tn.version)
    (hbd : x.good = false) :
    ScanInv base { replaceTn x tn rii with flags := flags' } (tn :: fed) := by
  have hs := h.scanned
  have hxf : x ∈ fed := h.sub x (by simp)
  obtain ⟨ho, hsz⟩ := hda.range x (mem_cons_of_mem tn hxf) tn mem_cons_self hver
  have hwk : inorder ({ replaceTn x tn rii with flags := flags' } : ReadinodeInfo).tnRoot
      = A ++ tn :: C := replaceTn_walk hs.walk hs.nodup tn
  have hsf : ∀ y ∈ A, y.fn.ofs + y.fn.size ≤ x.fn.ofs := fun y hy =>
    (pairwise_append.1 h.safe).2.2 y hy x mem_cons_self hver hbd
  refine (h.erase rot hda flags' hflg fun hgood => ?_).joined hda hwk rfl ?_ ?_
  · rw [hbd] at hgood
    cases hgood
  · apply pairwise_replace hs.sorted
    · intro y _ hy
      rwa [Before, ← ho, ← hsz]
    intro z _ hz
    rwa [Before, ← ho, ← hsz]
  · apply pairwise_replace hs.noted
    · intro y hy _ hr
      have hyx := hsf y hy
      omega
    · intro z _ hz
      rwa [Noted, ← ho, ← hsz]

/-- The loop kills hidden nodes, and leaves a shorter way to go. -/
theorem killOverlapped_spec (hfl : C.length < fuel) (h : Pondering base tn fed rii (A ++ C))
    (hgood : tn.good = true) (hC : ∀ t ∈ C, tn.fn.ofs ≤ t.fn.ofs) :
    ∃ A' C' rii', killOverlapped rot tn fuel C.head? rii = some (C'.head?, rii') ∧
      Pondering base tn fed rii' (A' ++ C') ∧ C'.length ≤ C.length ∧
      ∀ t ∈ C.head?, tnEnd t ≤ tnEnd tn → C'.length < C.length := by
  induction C generalizing A rii fuel with
  | nil =>
    cases fuel with
    | zero => simp at hfl
    | succ fuel => exact ⟨A, [], rii, rfl, h, le_rfl, by simp⟩
  | cons x C ih =>
    cases fuel with
    | zero => simp at hfl
    | succ fuel =>
      have hxf : x ∈ fed := h.sub x (by simp)
      have hnx := tnNext_walk h.scanned.walk h.scanned.nodup
      have hps : Pondering base tn fed rii ((A ++ [x]) ++ C) := by simpa using h
      rw [forall_mem_cons] at hC
      have hfl' : C.length < fuel := by simpa using hfl
      rw [head?_cons, killOverlapped]
      by_cases he : tnEnd x ≤ tnEnd tn
      · rw [if_pos he, hnx]
        by_cases hver : x.version < tn.version
        · rw [if_pos hver]
          have hhid : ∀ b, tnCovers x b → tnCovers tn b := by
            rw [hda.tnEnd_eq (mem_cons_of_mem tn hxf), hda.tnEnd_eq mem_cons_self] at he
            rintro b ⟨hb, hb'⟩
            exact ⟨hC.1.trans hb, by omega⟩
          have her := h.erase rot hda (killTn x rii.flags)
            (fun i hi => update_of_ne hi _ _) fun _ => ⟨hgood, hhid, hver.le⟩
          obtain ⟨A', C', rii', hr, hpn, hl, -⟩ := ih hfl' her hC.2
          refine ⟨A', C', rii', hr, hpn, ?_, ?_⟩
          · rw [length_cons]
            omega
          rw [length_cons]
          omega
        · rw [if_neg hver]
          obtain ⟨A', C', rii', hr, hpn, hl, -⟩ := ih hfl' hps hC.2
          refine ⟨A', C', rii', hr, hpn, ?_, ?_⟩
          · rw [length_cons]
            omega
          rw [length_cons]
          omega
      · rw [if_neg he]
        refine ⟨A, x :: C, rii, rfl, h, le_rfl, ?_⟩
        rintro t ⟨⟩ ht
        exact absurd ht he

omit hda in
/-- The nodes from `x` on start no earlier than `x`. -/
theorem Scanned.ofs_le (h : Scanned rii (A ++ x :: C)) : ∀ t ∈ x :: C, x.fn.ofs ≤ t.fn.ofs := by
  refine forall_mem_cons.2 ⟨le_rfl, fun t ht => ?_⟩
  have hb := rel_of_pairwise_cons (pairwise_append.1 h.sorted).2.1 ht
  rcases hb with hlt | ⟨heq, -⟩
  · exact hlt.le
  · exact heq.le

/-- **The loop over the tree** either settles the new node, or leaves it to be inserted. -/
theorem ponder_spec (hfl : C.length < fuel) (h : Pondering base tn fed rii (A ++ C)) :
    ∃ go rii', ponder rot tn fuel C.head? rii = some (go, rii') ∧
      (go = false ∧ ScanInv base rii' (tn :: fed) ∨
        go = true ∧ ∃ T, Pondering base tn fed rii' T) := by
  induction fuel generalizing A C rii with
  | zero => simp at hfl
  | succ fuel ih =>
    cases C with
    | nil => exact ⟨true, rii, rfl, .inr ⟨rfl, _, h⟩⟩
    | cons x C =>
      have hxf : x ∈ fed := h.sub x (by simp)
      have hxm : x ∈ tn :: fed := mem_cons_of_mem tn hxf
      have hxT : x ∈ tn :: (A ++ x :: C) := by simp
      have htn : tn ∈ tn :: fed := mem_cons_self
      have hfl' : C.length < fuel := by simpa using hfl
      rw [head?_cons, ponder]
      by_cases hfar : tnEnd tn < x.fn.ofs
      · rw [if_pos hfar]
        exact ⟨true, rii, rfl, .inr ⟨rfl, _, h⟩⟩
      rw [if_neg hfar]
      by_cases hver : x.version = tn.version
      · obtain ⟨flags', hchk, ho, hpn⟩ := h.check hda hxT
        rw [if_pos hver, hchk]
        cases hgood : x.good with
        | true =>
          refine ⟨false, _, rfl, .inl ⟨rfl, ?_⟩⟩
          apply (hpn hgood).dropNew hda (fun i hi => update_of_ne hi _ _)
          intro _
          obtain ⟨hos, hsz⟩ := hda.range x hxm tn htn hver
          refine ⟨x, by simp, hgood, ?_, hver.ge⟩
          intro b hb
          rwa [tnCovers, hos, hsz]
        | false =>
          refine ⟨false, _, rfl, .inl ⟨rfl, ?_⟩⟩
          apply h.replace rot hda ho hver hgood
      rw [if_neg hver]
      by_cases hhid : x.version < tn.version ∧ tn.fn.ofs ≤ x.fn.ofs ∧ tnEnd x ≤ tnEnd tn
      · obtain ⟨flags', hchk, ho, hpn⟩ := h.check hda mem_cons_self
        rw [if_pos hhid, hchk]
        cases hgood : tn.good with
        | true =>
          have hl : (x :: C).length < rii.tnRoot.numNodes + 1 := by
            rw [numNodes_eq_length, h.scanned.walk, length_append]
            omega
          have hC : ∀ t ∈ x :: C, tn.fn.ofs ≤ t.fn.ofs := fun t ht =>
            hhid.2.1.trans (h.scanned.ofs_le t ht)
          obtain ⟨A', C', rii', hkl, hpn', -, hls⟩ :=
            killOverlapped_spec rot hda hl (hpn hgood) hgood hC
          have hl' := hls x rfl hhid.2.2
          obtain ⟨go, rii'', hr, hrs⟩ := ih (by omega) hpn'
          refine ⟨go, rii'', ?_, hrs⟩
          simp only [bind_eq_bind, bind_some]
          rw [head?_cons] at hkl
          rw [hkl]
          exact hr
        | false =>
          refine ⟨false, _, rfl, .inl ⟨rfl, ?_⟩⟩
          apply h.dropNew hda ho (by simp [hgood])
      rw [if_neg hhid]
      by_cases hhd : tn.version < x.version ∧ x.fn.ofs ≤ tn.fn.ofs ∧ tnEnd tn ≤ tnEnd x
      · obtain ⟨flags', hchk, ho, hpn⟩ := h.check hda hxT
        rw [if_pos hhd, hchk]
        cases hgood : x.good with
        | true =>
          refine ⟨false, _, rfl, .inl ⟨rfl, ?_⟩⟩
          apply (hpn hgood).dropNew hda (fun i hi => update_of_ne hi _ _)
          intro _
          refine ⟨x, by simp, hgood, ?_, hhd.1.le⟩
          rw [hda.tnEnd_eq hxm, hda.tnEnd_eq htn] at hhd
          rintro b ⟨hb, hb'⟩
          exact ⟨hhd.2.1.trans hb, by omega⟩
        | false =>
          exact ⟨true, _, rfl, .inr ⟨rfl, _, h.erase rot hda _ ho (by simp [hgood])⟩⟩
      rw [if_neg hhd, tnNext_walk h.scanned.walk h.scanned.nodup]
      have hps : Pondering base tn fed rii ((A ++ [x]) ++ C) := by simpa using h
      exact ih hfl' hps

omit hda in
theorem lookupTnLoop_mem {o : ℕ} {prev : Option TmpDnode}
    (h : lookupTnLoop o t prev = some x) : x ∈ inorder t ∨ prev = some x := by
  induction t generalizing prev with
  | nil => exact .inr h
  | node y l r ihl ihr =>
    rw [lookupTnLoop] at h
    rw [inorder_node, mem_append, mem_cons]
    split_ifs at h
    · rcases ihr h with hx | hx
      · exact .inl (.inr (.inr hx))
      · exact .inl (.inr (.inl (some.inj hx).symm))
    rcases ihl h with hx | hx
    · exact .inl (.inl hx)
    · exact .inl (.inr (.inl (some.inj hx).symm))

omit hda in
theorem lookupTnLoop_isSome (o : ℕ) (prev : Option TmpDnode)
    (h : prev.isSome = true ∨ t ≠ nil) : (lookupTnLoop o t prev).isSome = true := by
  induction t generalizing prev with
  | nil => simpa [lookupTnLoop] using h
  | node y l r ihl ihr =>
    rw [lookupTnLoop]
    split_ifs
    · exact ihr _ (.inl rfl)
    · exact ihl _ (.inl rfl)

omit hda in
theorem backUp_spec (hfl : A.length < fuel) (h : Pondering base tn fed rii (A ++ x :: C)) :
    ∃ A' x' C' rii', backUp fuel x rii = some (x', rii') ∧
      rii'.tnRoot = rii.tnRoot ∧ Pondering base tn fed rii' (A' ++ x' :: C') := by
  induction fuel generalizing A x C with
  | zero => simp at hfl
  | succ fuel ih =>
    rw [backUp]
    by_cases hov : rii.overlapped x.fn.id = true
    · rw [if_pos hov, tnPrev_walk h.scanned.walk h.scanned.nodup]
      rcases eq_nil_or_concat A with rfl | ⟨A, y, rfl⟩
      · refine ⟨[], x, C, setOverlapped x false rii, rfl, rfl, ?_⟩
        have hs := h.scanned
        exact ⟨⟨hs.walk, hs.nodup, hs.sorted, Noted.clear_head hs.noted hs.nodup false,
          hs.sound⟩, h.sub, h.covered, h.tnSound, h.safe, h.frame⟩
      rw [concat_eq_append] at h hfl ⊢
      rw [getLast?_concat]
      rw [append_assoc, singleton_append] at h
      refine ih ?_ h
      rw [length_append, length_singleton] at hfl
      omega
    · rw [if_neg hov]
      exact ⟨A, x, C, rii, rfl, rfl, h⟩

omit hda in
/-- The loop over the tree starts somewhere in it. -/
theorem startTn_spec (h : Pondering base tn fed rii (inorder rii.tnRoot)) :
    ∃ A C rii', startTn tn rii = some (C.head?, rii') ∧ rii'.tnRoot = rii.tnRoot ∧
      Pondering base tn fed rii' (A ++ C) := by
  rw [startTn]
  cases hlk : lookupTn rii.tnRoot tn.fn.ofs with
  | none =>
    have hn : rii.tnRoot = nil := by
      by_contra hne
      have hso := lookupTnLoop_isSome tn.fn.ofs none (.inr hne)
      rw [lookupTn] at hlk
      simp [hlk] at hso
    refine ⟨[], [], rii, rfl, rfl, ?_⟩
    simpa [hn] using h
  | some x =>
    have hm : x ∈ inorder rii.tnRoot := by
      rcases lookupTnLoop_mem hlk with hm | hm
      · exact hm
      · simp at hm
    obtain ⟨A, C, hsl⟩ := append_of_mem hm
    have hpn : Pondering base tn fed rii (A ++ x :: C) := hsl ▸ h
    have hfl : A.length < rii.tnRoot.numNodes + 1 := by
      rw [numNodes_eq_length, hsl, length_append]
      omega
    obtain ⟨A', x', C', rii', hbk, hro, hpn'⟩ := backUp_spec hfl hpn
    refine ⟨A', x' :: C', rii', ?_, hro, hpn'⟩
    simp [hbk]

omit hda in
/-- The comparisons of the insertion cut the sorted nodes in two. -/
theorem exists_tnDir_cut (tn : TmpDnode) (h : T.Pairwise Before) :
    ∃ P Q, T = P ++ Q ∧ (∀ z ∈ P, tnDir tn z = some true ∧ Before z tn) ∧
      ∀ z ∈ Q, tnDir tn z = some false ∧ Before tn z := by
  obtain ⟨P, Q, hcut, hP, hQ⟩ := exists_cut (q := (Before · tn)) (h.imp fun hyz hz => by
    rw [Before] at *
    omega)
  refine ⟨P, Q, hcut, fun z hz => ⟨?_, hP z hz⟩, fun z hz => ?_⟩
  · have hbef := hP z hz
    rw [Before] at hbef
    rw [tnDir]
    split_ifs with h1 h2
    · rfl
    · omega
    · rfl
  · have hbef := hQ z hz
    rw [Before] at hbef ⊢
    refine ⟨?_, by omega⟩
    rw [tnDir, if_neg (by omega), if_pos (by omega)]

/-- Looking back, the new node is marked if a node before it reaches into it. -/
theorem noteBehind_spec {P2 : List TmpDnode} (hfl : P.length < fuel)
    (hw : inorder rii.tnRoot = (P ++ x :: P2) ++ tn :: Q)
    (hnd : (((P ++ x :: P2) ++ tn :: Q).map fun t => t.fn.id).Nodup)
    (hfed : ∀ t ∈ P ++ x :: P2, t ∈ fed) (hst : ∀ t ∈ P ++ x :: P2, t.fn.ofs ≤ tn.fn.ofs)
    (hntd : ((P ++ x :: P2) ++ Q).Pairwise (Noted rii.overlapped))
    (hP2 : ∀ t ∈ P2, t.fn.ofs + t.fn.size ≤ tn.fn.ofs) :
    ∃ ov, noteBehind tn fuel x rii = some { rii with overlapped := ov } ∧
      ((P ++ x :: P2) ++ Q).Pairwise (Noted ov) ∧ ∀ t ∈ P ++ x :: P2, Noted ov t tn := by
  induction fuel generalizing P x P2 with
  | zero => simp at hfl
  | succ fuel ih =>
    have hxn := hda.tnEnd_eq (mem_cons_of_mem tn (hfed x (by simp)))
    rw [noteBehind, hxn]
    by_cases hrh : tn.fn.ofs < x.fn.ofs + x.fn.size
    · rw [if_pos hrh]
      refine ⟨_, rfl, ?_, fun t _ _ => update_self _ _ _⟩
      refine hntd.imp ?_
      intro y z hyz hr
      by_cases hid : z.fn.id = tn.fn.id
      · rw [hid, update_self]
      rw [update_of_ne hid]
      exact hyz hr
    rw [if_neg hrh]
    have hbeh : ∀ t ∈ x :: P2, t.fn.ofs + t.fn.size ≤ tn.fn.ofs := by
      rw [forall_mem_cons]
      exact ⟨Nat.not_lt.1 hrh, hP2⟩
    by_cases hov : rii.overlapped x.fn.id = true
    · rw [hov]
      have hasc : (P ++ x :: P2) ++ tn :: Q = P ++ x :: (P2 ++ tn :: Q) := by simp
      rw [tnPrev_walk (hw.trans hasc) (hasc ▸ hnd)]
      rcases eq_nil_or_concat P with rfl | ⟨P, y, rfl⟩
      · refine ⟨_, rfl, ?_, ?_⟩
        · have hnd' : ((x :: (P2 ++ Q)).map fun t => t.fn.id).Nodup := by
            have hsub : (x :: (P2 ++ Q)).Sublist (x :: (P2 ++ tn :: Q)) :=
              ((sublist_cons_self tn Q).append_left P2).cons_cons x
            exact List.Nodup.sublist (hsub.map _) (by simpa using hnd)
          exact Noted.clear_head hntd hnd' false
        · intro t ht hr
          have htn := hbeh t ht
          omega
      · rw [concat_eq_append] at hw hnd hfed hst hntd hfl ⊢
        rw [getLast?_concat]
        have hsp : P ++ [y] ++ x :: P2 = P ++ y :: (x :: P2) := by simp
        rw [hsp] at hw hnd hfed hst hntd ⊢
        refine ih ?_ hw hnd hfed hst hntd hbeh
        rw [length_append, length_singleton] at hfl
        omega
    · rw [Bool.not_eq_true] at hov
      rw [hov, Bool.not_false]
      refine ⟨rii.overlapped, rfl, hntd, ?_⟩
      intro t ht hr
      rcases mem_append.1 ht with htP | ht
      · -- a node that reaches into the new one also reaches into `x`
        rw [append_assoc, pairwise_append] at hntd
        have hx := hntd.2.2 t htP x (by simp) (by
          omega)
        rw [hov] at hx
        cases hx
      · have htn := hbeh t ht
        omega

/-- Looking ahead, the nodes the new one reaches into are marked. -/
theorem noteAhead_spec (hfl : Q.length < fuel) (hw : inorder rii.tnRoot = P ++ Q)
    (hnd : ((P ++ Q).map fun t => t.fn.id).Nodup) (hst : Q.Pairwise Before) :
    ∃ ov, noteAhead tn fuel Q.head? rii = some { rii with overlapped := ov } ∧
      (∀ i, rii.overlapped i = true → ov i = true) ∧ ∀ t ∈ Q, Noted ov tn t := by
  induction Q generalizing P rii fuel with
  | nil =>
    cases fuel with
    | zero => simp at hfl
    | succ fuel => exact ⟨rii.overlapped, rfl, fun _ h => h, by simp⟩
  | cons x Q ih =>
    cases fuel with
    | zero => simp at hfl
    | succ fuel =>
      have htn := hda.tnEnd_eq mem_cons_self
      rw [pairwise_cons] at hst
      rw [head?_cons, noteAhead, htn]
      by_cases hx : x.fn.ofs < tn.fn.ofs + tn.fn.size
      · rw [if_pos hx, tnNext_walk hw hnd]
        have hasc : P ++ x :: Q = (P ++ [x]) ++ Q := by simp
        have hw' : inorder (setOverlapped x true rii).tnRoot = (P ++ [x]) ++ Q :=
          hw.trans hasc
        obtain ⟨ov, hrun, hmn, hQ⟩ := ih (by simpa using hfl) hw' (hasc ▸ hnd) hst.2
        have hse : ∀ i, rii.overlapped i = true ∨ i = x.fn.id → ov i = true := by
          rintro i (hi | rfl)
          · apply hmn
            by_cases hid : i = x.fn.id
            · simp [setOverlapped, hid]
            · simp [setOverlapped, update_of_ne hid, hi]
          · exact hmn _ (update_self _ _ _)
        refine ⟨ov, hrun, fun i hi => hse i (.inl hi), ?_⟩
        rw [forall_mem_cons]
        exact ⟨fun _ => hse _ (.inr rfl), hQ⟩
      · rw [if_neg hx]
        refine ⟨rii.overlapped, rfl, fun _ h => h, ?_⟩
        intro t ht hr
        have hxt : x.fn.ofs ≤ t.fn.ofs := by
          rcases mem_cons.1 ht with rfl | ht
          · exact le_rfl
          have hb := hst.1 t ht
          rw [Before] at hb
          omega
        omega

/-- **Inserting the new node** keeps the tree sorted and its marks right. -/
theorem insertTn_spec (h : Pondering base tn fed rii T) :
    ∃ rii', insertTn rot tn rii = some rii' ∧ ScanInv base rii' (tn :: fed) := by
  obtain ⟨P, Q, rfl, hP, hQ⟩ := exists_tnDir_cut tn h.scanned.sorted
  obtain ⟨t, hlk, hwk⟩ := linkAt_inorder tn h.scanned.walk (fun z hz => (hP z hz).1)
    (fun z hz => (hQ z hz).1)
  generalize hrii1 : ({ rii with
    tnRoot := rot.rotate rii.rotations t, rotations := rii.rotations + 1 } : ReadinodeInfo) = rii1
  have hwk1 : inorder rii1.tnRoot = P ++ tn :: Q := by
    rw [← hrii1]
    exact (rot.inorder_rotate _ _).trans hwk
  have hnd : ((P ++ tn :: Q).map fun t => t.fn.id).Nodup := by
    rw [map_append, map_cons, nodup_middle, ← map_append, nodup_cons]
    refine ⟨?_, h.scanned.nodup⟩
    intro hm
    obtain ⟨z, hz, hid⟩ := mem_map.1 hm
    exact hda.id_ne (h.sub z hz) hid
  have hfl : P.length + Q.length + 1 < rii1.tnRoot.numNodes + 1 := by
    rw [numNodes_eq_length, hwk1, length_append, length_cons]
    omega
  have hov1 : rii1.overlapped = rii.overlapped := by rw [← hrii1]
  have hntd1 : (P ++ Q).Pairwise (Noted rii1.overlapped) := hov1 ▸ h.scanned.noted
  have hbk : ∃ ov, (tnPrev tn rii1.tnRoot).elim (some rii1)
        (fun this => noteBehind tn (rii1.tnRoot.numNodes + 1) this rii1)
        = some { rii1 with overlapped := ov } ∧
      (P ++ Q).Pairwise (Noted ov) ∧ ∀ z ∈ P, Noted ov z tn := by
    rw [tnPrev_walk hwk1 hnd]
    rcases eq_nil_or_concat P with rfl | ⟨P, y, rfl⟩
    · exact ⟨rii1.overlapped, rfl, hntd1, by simp⟩
    rw [concat_eq_append] at hwk1 hnd hntd1 hP hfl h ⊢
    rw [getLast?_concat]
    refine noteBehind_spec hda ?_ hwk1 hnd
      (fun z hz => h.sub z (mem_append_left Q hz)) ?_ hntd1 (by simp)
    · rw [length_append] at hfl
      omega
    intro z hz
    have hz := (hP z hz).2
    rw [Before] at hz
    omega
  obtain ⟨ov, hbeh, hntd2, hPtn⟩ := hbk
  have hasc : P ++ tn :: Q = (P ++ [tn]) ++ Q := by simp
  have hwk2 : inorder ({ rii1 with overlapped := ov } : ReadinodeInfo).tnRoot
      = (P ++ [tn]) ++ Q := hwk1.trans hasc
  have hfl2 : Q.length < rii1.tnRoot.numNodes + 1 := by omega
  obtain ⟨ov', hahd, hmn, hQtn⟩ := noteAhead_spec hda hfl2 hwk2 (hasc ▸ hnd)
    (pairwise_append.1 h.scanned.sorted).2.1
  have hup : ∀ y z, Noted ov y z → Noted ov' y z := fun y z hyz hr => hmn _ (hyz hr)
  refine ⟨{ rii1 with overlapped := ov' }, ?_, ?_⟩
  · rw [insertTn, hlk]
    simp only [bind_eq_bind, bind_some, hrii1]
    rw [noteOverlaps]
    simp only [bind_eq_bind]
    rw [hbeh, bind_some, tnNext_walk hwk1 hnd]
    exact hahd
  refine h.joined hda hwk1 (by rw [← hrii1]) ?_ ?_
  · exact pairwise_insert h.scanned.sorted (fun z hz => (hP z hz).2) (fun z hz => (hQ z hz).2)
  · exact pairwise_insert (hntd2.imp fun hyz => hup _ _ hyz) (fun z hz => hup z tn (hPtn z hz))
      hQtn

/-- **One step of the scan** keeps the invariant, if it loses no mark. -/
theorem ScanInv.step (h : ScanInv base rii fed) (hsd : Sound base tn) (hsf : SafeStep rii tn) :
    ∃ rii', addTnToTree rot tn rii = some rii' ∧ ScanInv base rii' (tn :: fed) := by
  have hnotMem : tn.fn.id ∉ fed.map fun t => t.fn.id := by
    have hnd := hda.nodup
    rw [map_cons, nodup_cons] at hnd
    exact hnd.1
  have hpn : Pondering base tn fed rii (inorder rii.tnRoot) := by
    refine ⟨h.scanned, h.sub, ?_, hsd.congr (h.frame _ hnotMem), hsf, ?_⟩
    · intro f hf hgood b hb
      obtain ⟨t, ht, hrs⟩ := h.covered f hf hgood b hb
      exact ⟨t, mem_cons_of_mem tn ht, hrs⟩
    intro i hi
    rw [map_cons, mem_cons, not_or] at hi
    exact h.frame i hi.2
  obtain ⟨A, C, rii1, hst, hro, hpn1⟩ := startTn_spec hpn
  have hfl : C.length < rii1.tnRoot.numNodes + 1 := by
    rw [numNodes_eq_length, hpn1.scanned.walk, length_append]
    omega
  obtain ⟨go, rii2, hpo, hr⟩ := ponder_spec rot hda hfl hpn1
  have hp := hda.pos tn mem_cons_self
  rw [addTnToTree, if_neg hp.ne']
  simp only [bind_eq_bind]
  rw [hst, bind_some]
  rw [hpo]
  rcases hr with ⟨rfl, hiv⟩ | ⟨rfl, T, hpn2⟩
  · exact ⟨rii2, rfl, hiv⟩
  obtain ⟨rii3, his, hiv⟩ := insertTn_spec rot hda hpn2
  exact ⟨rii3, his, hiv⟩

end Ponder

end NestLinux.Jffs2
