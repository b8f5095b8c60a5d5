import NestLinux.Fs.Jffs2.ReadInodeScan
import NestLinux.Fs.Jffs2.FragtreeRun
import Mathlib.Data.List.Perm.Subperm

/-!
# The fragment tree built from a scanned JFFS2 inode

The build eats the tree of nodes from its end. A node that is not marked as overlapped
ends a run: no node before it reaches into the run, so what is added later never hides a
newer node of the run, and within the run the nodes are added oldest first. With the
marks right, every byte of the file ends up with the newest good node that holds it, in
whatever order the nodes were found.
-/

namespace NestLinux.Jffs2

open BinaryTree Lib
open List hiding nil

variable (rotTn : Rotations TmpDnode) (rot : Rotations Frag) {rii : ReadinodeInfo} {st : BuildState}
  {x : TmpDnode} {H V R S T fed : List TmpDnode} {W W' fed' : List TmpDnode} {fuel b : ℕ}
  {r : Option FullDnode} {base : ℕ → RefFlags}

/-- What the file should hold at the byte `b`: data of the highest version among the good
nodes that cover it. -/
def Newest (fed : List TmpDnode) (b : ℕ) : Option FullDnode → Prop
  | none => ∀ t ∈ fed, t.good = true → ¬ tnCovers t b
  | some fn => ∃ t ∈ fed, t.fn = fn ∧ t.good = true ∧ tnCovers t b ∧
      ∀ u ∈ fed, u.good = true → tnCovers u b → u.version ≤ t.version

/-- Nodes are added before the newer ones they overlap with; the latest is first. -/
def AddedBefore (x y : TmpDnode) : Prop :=
  ∀ b, tnCovers x b → tnCovers y b → y.version ≤ x.version

/-- The nodes `H` were added, the latest first, and no older one after a newer one. -/
structure Replayed (st : BuildState) (H : List TmpDnode) : Prop where
  inv : Inv st.fragtree (H.map fun t => .added t.fn)
  ordered : H.Pairwise AddedBefore
  good : ∀ t ∈ H, t.good = true

/-! ### Trees of nodes -/

theorem inorder_eatLast (t : BinaryTree TmpDnode) : inorder (eatLast t) = (inorder t).dropLast := by
  induction t with
  | nil => rfl
  | node x l r _ ihr =>
    cases r with
    | nil => simp [eatLast]
    | node y l' r' =>
      have hne : inorder (node y l' r') ≠ [] := by simp
      rw [eatLast, inorder_node, inorder_node x, ihr, dropLast_append_cons,
        dropLast_cons_of_ne_nil hne]
      simp

/-- Inserting into the version tree keeps its order. -/
theorem verInsert_spec (x : TmpDnode)
    (h : (inorder st.verRoot).Pairwise fun y z => z.version ≤ y.version) :
    ∃ st', verInsert rotTn x st = some st' ∧ st'.fragtree = st.fragtree ∧
      (inorder st'.verRoot).Pairwise (fun y z => z.version ≤ y.version) ∧
      (inorder st'.verRoot).Perm (x :: inorder st.verRoot) := by
  obtain ⟨P, Q, hc, hP, hQ⟩ := exists_cut (q := fun z => x.version ≤ z.version)
    (h.imp fun hle hz => hz.trans hle)
  have hlf : ∀ z ∈ P, verDir x z = some true := by
    intro z hz
    rw [verDir, if_neg (Nat.not_lt.2 (hP z hz))]
  have hrt : ∀ z ∈ Q, verDir x z = some false := by
    intro z hz
    rw [verDir, if_pos (not_le.1 (hQ z hz))]
  obtain ⟨t, hlk, hwk⟩ := linkAt_inorder x hc hlf hrt
  refine ⟨{ st with verRoot := rotTn.rotate st.rotations t, rotations := st.rotations + 1 },
    by rw [verInsert, hlk, Option.map_some], rfl, ?_, ?_⟩
  · rw [rotTn.inorder_rotate, hwk]
    exact pairwise_insert (hc ▸ h) hP fun z hz => (not_le.1 (hQ z hz)).le
  rw [rotTn.inorder_rotate, hwk, hc]
  exact perm_middle

/-! ### Adding nodes to the fragment tree -/

/-- Flags of nodes outside the tree may change. -/
theorem Inv.setFlags {s : Fragtree} {hist : List Event} (h : Inv s hist) (flags : ℕ → RefFlags)
    (hflg : ∀ i ∈ addedIds hist, flags i = s.flags i) : Inv { s with flags := flags } hist := by
  refine ⟨h.laid.congr rfl rfl, ⟨h.counted.frags_eq, ?_, h.counted.mem_added, fun _ _ => rfl⟩,
    h.owner⟩
  intro i hi
  dsimp only
  rw [hflg i hi]
  exact h.counted.obsolete_iff i hi

theorem mem_addedIds {i : ℕ} :
    i ∈ addedIds (H.map fun t => .added t.fn) ↔ i ∈ H.map fun t => t.fn.id := by
  simp only [addedIds, mem_map]
  constructor
  · rintro ⟨fn, ⟨t, ht, heq⟩, rfl⟩
    cases heq
    exact ⟨t, ht, rfl⟩
  · rintro ⟨t, ht, rfl⟩
    exact ⟨t.fn, ⟨t, ht, rfl⟩, rfl⟩

/-- **Adding a checked node** that is no older than the nodes it overlaps with. -/
theorem Replayed.add {flags : ℕ → RefFlags} (h : Replayed st H)
    (hflg : ∀ i, i ≠ x.fn.id → flags i = st.fragtree.flags i) (hsd : Sound flags x)
    (hgood : x.good = true) (hid : x.fn.id ∉ H.map fun t => t.fn.id) (hp : 0 < x.fn.size)
    (hbd : x.fn.ofs + x.fn.size < 2 ^ 32) (hn : ∀ y ∈ H, AddedBefore x y) :
    ∃ fragtree, addFullDnodeToInode rot true true x.fn { st.fragtree with flags := flags }
        = some (0, fragtree) ∧
      (∀ i, i ≠ x.fn.id → i ∉ H.map (fun t => t.fn.id) →
        fragtree.flags i = st.fragtree.flags i) ∧
      ∀ st' : BuildState, st'.fragtree = fragtree → Replayed st' (x :: H) := by
  have hiv := h.inv.setFlags flags fun i hi => hflg i fun heq =>
    hid (heq ▸ mem_addedIds.1 hi)
  have ha : Addable { st.fragtree with flags := flags } (H.map fun t => .added t.fn) x.fn :=
    ⟨hp, hbd, fun hm => hid (mem_addedIds.1 hm), hsd.1⟩
  obtain ⟨ret, s', hr, hfrm, hrs⟩ := hiv.add rot ha true true
  rcases hrs with ⟨rfl, hi'⟩ | ⟨hfl, -⟩
  · refine ⟨s', hr, ?_, ?_⟩
    · intro i hix hiH
      rw [hfrm i (by
        rw [Set.mem_insert_iff, mem_addedIds, not_or]
        exact ⟨hix, hiH⟩)]
      exact hflg i hix
    · rintro st' rfl
      exact ⟨hi', pairwise_cons.2 ⟨hn, h.ordered⟩, forall_mem_cons.2 ⟨hgood, h.good⟩⟩
  · simp at hfl

/-- The nodes still to be added: not empty, inside 32 bits, their flags as the scan left
them, and none of them added before. -/
structure Pending (st : BuildState) (H W : List TmpDnode) : Prop where
  pos : ∀ t ∈ W, 0 < t.fn.size
  bound : ∀ t ∈ W, t.fn.ofs + t.fn.size < 2 ^ 32
  nodup : (W.map fun t => t.fn.id).Nodup
  sound : ∀ t ∈ W, Sound st.fragtree.flags t
  notMem : ∀ t ∈ W, t.fn.id ∉ H.map fun t => t.fn.id

/-- Some nodes were added, or found bad; the others are still to be added. -/
theorem Pending.rest {st' : BuildState} {H' : List TmpDnode} (h : Pending st H (W' ++ W))
    (hflg : ∀ i, i ∉ W.map (fun t => t.fn.id) → i ∉ H.map (fun t => t.fn.id) →
      st'.fragtree.flags i = st.fragtree.flags i)
    (hH : ∀ t ∈ H', t ∈ H ∨ t ∈ W) : Pending st' H' W' := by
  have hnd := h.nodup
  rw [map_append, nodup_append] at hnd
  have hdj : ∀ t ∈ W', t.fn.id ∉ W.map fun t => t.fn.id := fun t ht hm =>
    hnd.2.2 _ (mem_map_of_mem ht) _ hm rfl
  refine ⟨fun t ht => h.pos t (by simp [ht]), fun t ht => h.bound t (by simp [ht]), hnd.1, ?_, ?_⟩
  · intro t ht
    exact (h.sound t (by simp [ht])).congr (hflg _ (hdj t ht) (h.notMem t (by simp [ht])))
  intro t ht hm
  obtain ⟨u, hu, hid⟩ := mem_map.1 hm
  rcases hH u hu with hu | hu
  · exact h.notMem t (by simp [ht]) (hid ▸ mem_map_of_mem hu)
  · exact hdj t ht (hid ▸ mem_map_of_mem hu)

/-- The nodes of a run, in the order of the version tree. -/
theorem Pending.run (h : Pending st H (W' ++ W)) (hV : V.Perm W) : Pending st H V := by
  have hm : ∀ t ∈ V, t ∈ W' ++ W := fun t ht => mem_append_right W' (hV.mem_iff.1 ht)
  refine ⟨fun t ht => h.pos t (hm t ht), fun t ht => h.bound t (hm t ht), ?_,
    fun t ht => h.sound t (hm t ht), fun t ht => h.notMem t (hm t ht)⟩
  have hnd := h.nodup
  rw [map_append, nodup_append] at hnd
  exact (hV.map _).nodup_iff.2 hnd.2.1

/-- The first node of a complete run is not marked, so no node before it reaches into the run. -/
theorem apart_of_complete {overlapped : ℕ → Bool} (hst : (R ++ x :: S).Pairwise Before)
    (hntd : (R ++ x :: S).Pairwise (Noted overlapped))
    (hcn : ¬(overlapped x.fn.id && R.getLast?.isSome) = true) (ht : t ∈ R) (hu : u ∈ x :: S) :
    t.fn.ofs + t.fn.size ≤ u.fn.ofs := by
  have htx : t.fn.ofs + t.fn.size ≤ x.fn.ofs := by
    by_contra hrh
    have hmk := (pairwise_append.1 hntd).2.2 t ht x mem_cons_self (Nat.not_le.1 hrh)
    exact hcn (by simp [hmk, ne_nil_of_mem ht])
  rcases mem_cons.1 hu with rfl | hu
  · exact htx
  have hb := rel_of_pairwise_cons (pairwise_append.1 hst).2.1 hu
  rw [Before] at hb
  omega

section Build

variable {alloc : ℕ → Bool × Bool} (hal : ∀ i, alloc i = (true, true))

include hal

/-- One turn of the replay: the last node is added if it is good, and killed if not. -/
theorem replay_turn (fuel : ℕ) (hw : inorder st.verRoot = V ++ [x]) (hr : Replayed st H)
    (hpn : Pending st H (V ++ [x])) (hn : ∀ y ∈ H, AddedBefore x y) :
    ∃ st' H', replay rot alloc (fuel + 1) (some x) st = replay rot alloc fuel V.getLast? st' ∧
      inorder st'.verRoot = V ∧ Replayed st' H' ∧
      (∀ t, t ∈ H' ↔ t ∈ H ∨ t = x ∧ t.good = true) ∧
      ∀ i, i ≠ x.fn.id → i ∉ H.map (fun t => t.fn.id) →
        st'.fragtree.flags i = st.fragtree.flags i := by
  have hxm : x ∈ V ++ [x] := by simp
  have hpv : tnPrev x st.verRoot = V.getLast? := tnPrev_walk hw hpn.nodup
  have heat : inorder (eatLast st.verRoot) = V := by
    rw [inorder_eatLast, hw, dropLast_concat]
  obtain ⟨flags, hchk, ho, hsd⟩ := checkTnNode_spec (hpn.sound x hxm)
  rw [replay]
  simp only [Option.bind_eq_bind]
  rw [hchk, Option.bind_some, hpv]
  cases hgood : x.good with
  | true =>
    obtain ⟨fragtree, ha, hfrm, hr'⟩ := hr.add rot ho (hsd hgood) hgood
      (hpn.notMem x hxm) (hpn.pos x hxm) (hpn.bound x hxm) hn
    simp only [hal]
    rw [ha, Option.bind_some]
    refine ⟨_, x :: H, rfl, heat, hr' _ rfl, fun t => ?_, hfrm⟩
    rw [mem_cons, or_comm]
    exact or_congr_right ⟨fun h => ⟨h, h ▸ hgood⟩, And.left⟩
  | false =>
    have hkill : ∀ i, i ≠ x.fn.id → killTn x flags i = st.fragtree.flags i :=
      fun i hi => (Function.update_of_ne hi _ _).trans (ho i hi)
    refine ⟨_, H, rfl, heat, ⟨?_, hr.ordered, hr.good⟩, fun t => ?_, fun i hi _ => hkill i hi⟩
    · refine hr.inv.setFlags _ fun i hi => hkill i ?_
      rintro rfl
      exact hpn.notMem x hxm (mem_addedIds.1 hi)
    · refine (or_iff_left ?_).symm
      rintro ⟨rfl, hc⟩
      rw [hgood] at hc
      cases hc

/-- **Replaying a run** adds its good nodes, oldest first. -/
theorem replay_spec (hfl : V.length < fuel) (hw : inorder st.verRoot = V)
    (hV : V.Pairwise fun y z => z.version ≤ y.version) (hr : Replayed st H)
    (hpn : Pending st H V) (hn : ∀ t ∈ V, ∀ y ∈ H, AddedBefore t y) :
    ∃ st' H', replay rot alloc fuel V.getLast? st = some (0, st') ∧ inorder st'.verRoot = [] ∧
      Replayed st' H' ∧ (∀ t, t ∈ H' ↔ t ∈ H ∨ t ∈ V ∧ t.good = true) ∧
      ∀ i, i ∉ V.map (fun t => t.fn.id) → i ∉ H.map (fun t => t.fn.id) →
        st'.fragtree.flags i = st.fragtree.flags i := by
  induction fuel generalizing V st H with
  | zero => simp at hfl
  | succ fuel ih =>
    rcases eq_nil_or_concat V with rfl | ⟨V, x, rfl⟩
    · exact ⟨st, H, rfl, hw, hr, by simp, fun _ _ _ => rfl⟩
    rw [concat_eq_append] at *
    have hV' := pairwise_append.1 hV
    obtain ⟨st1, H1, hturn, hw1, hr1, hm1, hfrm1⟩ :=
      replay_turn rot hal fuel hw hr hpn (hn x (by simp))
    have hpn1 : Pending st1 H1 V :=
      hpn.rest (fun i hi hiH => hfrm1 i (by simpa using hi) hiH)
        fun t ht => ((hm1 t).1 ht).imp_right fun h => by simp [h.1]
    have hn1 : ∀ t ∈ V, ∀ y ∈ H1, AddedBefore t y := by
      intro t ht y hy
      rcases (hm1 y).1 hy with hy | ⟨rfl, -⟩
      · exact hn t (by simp [ht]) y hy
      · exact fun b _ _ => hV'.2.2 t ht y (by simp)
    obtain ⟨st', H', hrun, he, hr2, hm, hfrm2⟩ :=
      ih (by simpa using hfl) hw1 hV'.1 hr1 hpn1 hn1
    refine ⟨st', H', ?_, he, hr2, fun t => ?_, fun i hi hiH => ?_⟩
    · rw [getLast?_concat, hturn, hrun]
    · rw [hm, hm1, mem_append, mem_singleton, or_and_right, or_assoc, or_comm (a := t = x ∧ _)]
    · rw [map_append, mem_append, not_or, map_singleton, mem_singleton] at hi
      rw [hfrm2 i hi.1 ?_, hfrm1 i hi.2 hiH]
      intro hiH1
      obtain ⟨t, ht, rfl⟩ := mem_map.1 hiH1
      rcases (hm1 t).1 ht with ht | ⟨rfl, -⟩
      · exact hiH (mem_map_of_mem ht)
      · exact hi.2 rfl

/-- **Building from the end.** `R` are the nodes still in the tree, `S` those of the current
run, which is not complete; no node of either reaches into one added before. -/
theorem buildLoop_spec {overlapped : ℕ → Bool} {root : BinaryTree TmpDnode}
    (hfl : R.length < fuel) (hw : inorder root = R) (hst : (R ++ S).Pairwise Before)
    (hntd : (R ++ S).Pairwise (Noted overlapped)) (hr : S ≠ [] → R ≠ [])
    (hver : (inorder st.verRoot).Perm S)
    (hverSorted : (inorder st.verRoot).Pairwise fun y z => z.version ≤ y.version)
    (hrp : Replayed st H) (hpn : Pending st H (R ++ S))
    (hdj : ∀ t ∈ R ++ S, ∀ u ∈ H, t.fn.ofs + t.fn.size ≤ u.fn.ofs) :
    ∃ st' H', buildLoop rotTn rot alloc overlapped fuel R.getLast? root st = some (0, st') ∧
      Replayed st' H' ∧ ∀ t, t ∈ H' ↔ t ∈ H ∨ t ∈ R ++ S ∧ t.good = true := by
  induction fuel generalizing R S st H root with
  | zero => simp at hfl
  | succ fuel ih =>
    rcases eq_nil_or_concat R with rfl | ⟨R, x, rfl⟩
    · have hS : S = [] := not_not.1 fun hne => hr hne rfl
      exact ⟨st, H, rfl, hrp, by simp [hS]⟩
    rw [concat_eq_append] at *
    have hasc : R ++ [x] ++ S = R ++ x :: S := by simp
    rw [hasc] at hst hntd hpn hdj ⊢
    have hpv : tnPrev x root = R.getLast? := by
      apply tnPrev_walk hw
      have hnd := hpn.nodup
      have hsub : (R ++ [x]).Sublist (R ++ x :: S) :=
        ((nil_sublist S).cons_cons x).append_left R
      exact hnd.sublist (hsub.map _)
    have heat : inorder (eatLast root) = R := by
      rw [inorder_eatLast, hw, dropLast_concat]
    have hfl' : R.length < fuel := by simpa using hfl
    obtain ⟨st1, his, hfr1, hverSorted1, hver1⟩ := verInsert_spec rotTn x hverSorted
    have hver1 : (inorder st1.verRoot).Perm (x :: S) := hver1.trans (hver.cons x)
    have hr1 : Replayed st1 H := ⟨hfr1 ▸ hrp.inv, hrp.ordered, hrp.good⟩
    have hpn1 : Pending st1 H (R ++ x :: S) :=
      ⟨hpn.pos, hpn.bound, hpn.nodup, hfr1 ▸ hpn.sound, hpn.notMem⟩
    rw [getLast?_concat, buildLoop]
    simp only [Option.bind_eq_bind]
    rw [his, Option.bind_some, hpv]
    by_cases hcn : (overlapped x.fn.id && R.getLast?.isSome) = true
    · rw [if_pos hcn]
      refine ih hfl' heat hst hntd ?_ hver1 hverSorted1 hr1 hpn1 hdj
      rintro - rfl
      simp at hcn
    rw [if_neg hcn]
    have hmV : ∀ t, t ∈ inorder st1.verRoot ↔ t ∈ x :: S := fun t => hver1.mem_iff
    have hpnV : Pending st1 H (inorder st1.verRoot) := hpn1.run hver1
    have hnV : ∀ t ∈ inorder st1.verRoot, ∀ y ∈ H, AddedBefore t y := by
      intro t ht y hy b hb hb'
      have hty := hdj t (mem_append_right R ((hmV t).1 ht)) y hy
      rw [tnCovers] at hb hb'
      omega
    have hflV : (inorder st1.verRoot).length < st1.verRoot.numNodes + 1 := by
      rw [numNodes_eq_length]
      exact Nat.lt_succ_self _
    obtain ⟨st2, H2, hre, he, hr2, hm2, hfrm2⟩ :=
      replay_spec rot hal hflV rfl hverSorted1 hr1 hpnV hnV
    have hpn2 : Pending st2 H2 R := by
      apply hpn1.rest
      · intro i hi hiH
        exact hfrm2 i (fun hm => hi ((hver1.map _).mem_iff.1 hm)) hiH
      intro t ht
      rcases (hm2 t).1 ht with ht | ⟨ht, -⟩
      · exact .inl ht
      · exact .inr ((hmV t).1 ht)
    have hdj2 : ∀ t ∈ R, ∀ u ∈ H2, t.fn.ofs + t.fn.size ≤ u.fn.ofs := by
      intro t ht u hu
      rcases (hm2 u).1 hu with hu | ⟨hu, -⟩
      · exact hdj t (mem_append_left _ ht) u hu
      · exact apart_of_complete hst hntd hcn ht ((hmV u).1 hu)
    have hsub : R.Sublist (R ++ x :: S) := sublist_append_left R _
    obtain ⟨st3, H3, hbld, hr3, hm3⟩ := ih (S := []) hfl' heat
      (by simpa using hst.sublist hsub) (by simpa using hntd.sublist hsub) (by simp)
      (by rw [he]) (by rw [he]; exact .nil) hr2 (by simpa using hpn2)
      (by simpa using hdj2)
    rw [tnLast, hre, Option.bind_some]
    dsimp only
    rw [if_pos rfl]
    refine ⟨st3, H3, hbld, hr3, ?_⟩
    intro t
    rw [hm3, hm2, hmV, append_nil, mem_append]
    tauto

end Build

/-- The latest node that covers a byte is the newest one. -/
theorem latest_newest (h : H.Pairwise AddedBefore) (hgood : ∀ t ∈ H, t.good = true) :
    Newest H b (latest (H.map fun t => .added t.fn) b) := by
  induction H with
  | nil => simp [latest, Newest]
  | cons x H ih =>
    rw [pairwise_cons] at h
    rw [forall_mem_cons] at hgood
    have hrs := ih h.2 hgood.2
    rw [map_cons, latest, Layout.write]
    by_cases hx : x.fn.ofs ≤ b ∧ b < x.fn.ofs + x.fn.size
    · rw [if_pos hx]
      refine ⟨x, mem_cons_self, rfl, hgood.1, hx, forall_mem_cons.2 ⟨fun _ _ => le_rfl, ?_⟩⟩
      exact fun u hu _ hub => h.1 u hu b hx hub
    rw [if_neg hx]
    cases hl : latest (H.map fun t => .added t.fn) b with
    | none =>
      rw [hl] at hrs
      exact forall_mem_cons.2 ⟨fun _ => hx, hrs⟩
    | some fn =>
      rw [hl] at hrs
      obtain ⟨t, ht, hfn, htg, htb, hm⟩ := hrs
      exact ⟨t, mem_cons_of_mem x ht, hfn, htg, htb,
        forall_mem_cons.2 ⟨fun _ hub => absurd hub hx, hm⟩⟩

theorem Newest.congr (h : Newest fed b r) (hm : ∀ t, t ∈ fed ↔ t ∈ fed') : Newest fed' b r := by
  cases r with
  | none => exact fun t ht => h t ((hm t).2 ht)
  | some fn =>
    obtain ⟨t, ht, hfn, hgood, hb, hmx⟩ := h
    exact ⟨t, (hm t).1 ht, hfn, hgood, hb, fun u hu => hmx u ((hm u).2 hu)⟩

/-- Nodes that cover all good nodes read have the newest data. -/
theorem Newest.of_covered (h : Newest H b r) (hH : ∀ t, t ∈ H ↔ t ∈ T ∧ t.good = true)
    (hT : ∀ t ∈ T, t ∈ fed) (hc : Covered fed T) : Newest fed b r := by
  cases r with
  | none =>
    intro t ht hgood hb
    obtain ⟨u, hu, hug, hub, -⟩ := hc t ht hgood b hb
    exact h u ((hH u).2 ⟨hu, hug⟩) hug hub
  | some fn =>
    obtain ⟨t, ht, hfn, hgood, hb, hm⟩ := h
    refine ⟨t, hT t ((hH t).1 ht).1, hfn, hgood, hb, ?_⟩
    intro u hu hug hub
    obtain ⟨w, hw, hwg, hwb, hver⟩ := hc u hu hug b hub
    exact hver.trans (hm w ((hH w).2 ⟨hw, hwg⟩) hwg hwb)

/-! ### Scan and build -/

/-- A scan each of whose steps loses no mark. -/
def FeedSafe (rotTn : Rotations TmpDnode) : ReadinodeInfo → List TmpDnode → Prop
  | _, [] => True
  | rii, tn :: fed =>
    SafeStep rii tn ∧ ∀ rii', addTnToTree rotTn tn rii = some rii' → FeedSafe rotTn rii' fed

theorem DataNodes.subperm (h : DataNodes fed) (hsub : fed'.Subperm fed) : DataNodes fed' where
  pos t ht := h.pos t (hsub.subset ht)
  bound t ht := h.bound t (hsub.subset ht)
  nodup := by
    obtain ⟨l, hpr, hl⟩ := hsub
    exact (hpr.map _).nodup (h.nodup.sublist (hl.map _))
  range t ht u hu := h.range t (hsub.subset ht) u (hsub.subset hu)

/-- **The whole scan.** -/
theorem ScanInv.feed {done : List TmpDnode} (h : ScanInv base rii done)
    (hda : DataNodes (fed.reverse ++ done)) (hsd : ∀ t ∈ fed, Sound base t)
    (hsf : FeedSafe rotTn rii fed) :
    ∃ rii', feed rotTn fed rii = some rii' ∧ ScanInv base rii' (fed.reverse ++ done) := by
  induction fed generalizing rii done with
  | nil => exact ⟨rii, rfl, h⟩
  | cons tn fed ih =>
    rw [reverse_cons, append_assoc] at hda ⊢
    rw [forall_mem_cons] at hsd
    have hsub : (tn :: done).Sublist (fed.reverse ++ tn :: done) :=
      sublist_append_right _ _
    obtain ⟨rii1, hsp, hiv⟩ := h.step rotTn (hda.subperm hsub.subperm) hsd.1 hsf.1
    obtain ⟨rii2, hfd, hi2⟩ := ih hiv hda hsd.2 (hsf.2 rii1 hsp)
    refine ⟨rii2, ?_, hi2⟩
    rw [Jffs2.feed, foldlM_cons, hsp]
    exact hfd

theorem scanInv_empty (flags : ℕ → RefFlags) : ScanInv flags (.empty flags) [] where
  scanned := ⟨rfl, nodup_nil, .nil, .nil, by simp [ReadinodeInfo.empty]⟩
  sub := by simp [ReadinodeInfo.empty]
  covered := by simp [Covered]
  frame _ _ := rfl

/-- **Building from a scanned tree** gives every byte its newest good node. -/
theorem ScanInv.build {alloc : ℕ → Bool × Bool} (hal : ∀ i, alloc i = (true, true))
    (h : ScanInv base rii fed) (hda : DataNodes fed) :
    ∃ st, buildInodeFragtree rotTn rot alloc rii = some (0, st) ∧
      ∀ b, Newest fed b (ownerAt (inorder st.fragtree.tree) b) := by
  have hs := h.scanned
  rw [buildInodeFragtree]
  generalize hst : (BuildState.mk (Fragtree.empty rii.flags) nil 0 _ _) = st
  have hr : Replayed st [] := by
    refine ⟨?_, .nil, by simp⟩
    rw [← hst]
    exact inv_empty rii.flags
  have hpn : Pending st [] (inorder rii.tnRoot ++ []) := by
    rw [append_nil]
    refine ⟨fun t ht => hda.pos t (h.sub t ht), fun t ht => hda.bound t (h.sub t ht), hs.nodup, ?_,
      by simp⟩
    rw [← hst]
    exact hs.sound
  have he : inorder st.verRoot = [] := by rw [← hst, inorder_nil]
  have hfl : (inorder rii.tnRoot).length < rii.tnRoot.numNodes + 1 := by
    rw [numNodes_eq_length]
    exact Nat.lt_succ_self _
  obtain ⟨st', H, hbld, hr', hm⟩ := buildLoop_spec rotTn rot hal (S := []) hfl rfl
    (by simpa using hs.sorted) (by simpa using hs.noted) (by simp) (by rw [he])
    (by rw [he]; exact .nil) hr hpn (by simp)
  refine ⟨st', hbld, ?_⟩
  intro b
  rw [hr'.inv.owner]
  apply (latest_newest hr'.ordered hr'.good).of_covered (T := inorder rii.tnRoot)
  · intro t
    simpa using hm t
  · exact h.sub
  · exact h.covered

/-- **Reconstruction does not depend on the scan order**: whatever the order in which the nodes of
an inode are found, as long as no step loses a mark every byte of the rebuilt inode is the newest
good data that covers it. -/
theorem readInode_newest (rotTn : Rotations TmpDnode) (rot : Rotations Frag)
    {fed : List TmpDnode} {flags : ℕ → RefFlags} (hdata : DataNodes fed)
    (hsound : ∀ t ∈ fed, Sound flags t) (hsafe : FeedSafe rotTn (.empty flags) fed) :
    ∃ rii st, feed rotTn fed (.empty flags) = some rii ∧
      buildInodeFragtree rotTn rot (fun _ => (true, true)) rii = some (0, st) ∧
      ∀ b, Newest fed b (ownerAt (inorder st.fragtree.tree) b) := by
  have hdata' : DataNodes (fed.reverse ++ []) := by
    rw [append_nil]
    exact hdata.subperm (reverse_perm fed).subperm
  obtain ⟨rii, hfeed, hscan⟩ := (scanInv_empty flags).feed rotTn hdata' hsound hsafe
  obtain ⟨st, hbuild, hnew⟩ := hscan.build rotTn rot (fun _ => rfl) hdata'
  refine ⟨rii, st, hfeed, hbuild, fun b => (hnew b).congr ?_⟩
  simp

/-- A scan that finds an overwritten node after the node that overwrites part of it. -/
theorem readInode_newest_overwrite :
    ∃ rii st, feed .none [⟨⟨1, 5, 10⟩, 2, true⟩, ⟨⟨0, 0, 10⟩, 1, true⟩] (.empty fun _ => .unchecked)
        = some rii ∧
      buildInodeFragtree .none .none (fun _ => (true, true)) rii = some (0, st) ∧
      ∀ b, Newest [⟨⟨1, 5, 10⟩, 2, true⟩, ⟨⟨0, 0, 10⟩, 1, true⟩] b
        (ownerAt (inorder st.fragtree.tree) b) := by
  refine readInode_newest .none .none ⟨by decide, by decide, by decide, by decide⟩ (by decide) ?_
  refine ⟨by decide, fun rii' h => ?_⟩
  cases h
  exact ⟨by decide, fun _ _ => trivial⟩

/-- **A lost mark shows old data.** Version 1 covers the bytes 0 to 9 and version 2 the bytes 5 to
14.  A bad copy of version 2 is found first and is marked as overlapping version 1; the good copy
that replaces it is not, and byte 5 of the rebuilt inode is of version 1. -/
theorem readInode_stale :
    ∃ (fed : List TmpDnode) (flags : ℕ → RefFlags), DataNodes fed ∧ (∀ t ∈ fed, Sound flags t) ∧
      ∃ rii st, feed .none fed (.empty flags) = some rii ∧
        buildInodeFragtree .none .none (fun _ => (true, true)) rii = some (0, st) ∧
        ¬ Newest fed 5 (ownerAt (inorder st.fragtree.tree) 5) := by
  refine ⟨[⟨⟨0, 0, 10⟩, 1, true⟩, ⟨⟨1, 5, 10⟩, 2, false⟩, ⟨⟨2, 5, 10⟩, 2, true⟩],
    fun _ => .unchecked, ⟨by decide, by decide, by decide, by decide⟩, by decide, _, _, rfl, rfl,
      ?_⟩
  intro h
  change Newest _ 5 (some ⟨0, 0, 10⟩) at h
  obtain ⟨t, ht, hfn, -, -, hmax⟩ := h
  have hversion := hmax ⟨⟨2, 5, 10⟩, 2, true⟩ (by simp) rfl (by decide)
  simp only [mem_cons, not_mem_nil, or_false] at ht
  rcases ht with rfl | rfl | rfl
  · simp at hversion
  · simp at hfn
  · simp at hfn

end NestLinux.Jffs2
