import NestLinux.Ipc.SemRun
import Mathlib.Algebra.BigOperators.Group.List.Basic
import Mathlib.Algebra.Order.Ring.Int

/-!
# Vectors of semaphore operations

`try_atomic_semop` changes the values while it checks the operations, and takes back what it has
done if one of them fails. The adjustments follow in a second loop, without a check: an
operation is checked against the adjustment before the call, so the operations of one call can
add up to more than a `short` holds.
-/

namespace NestLinux.Sem

open Function List

variable {s : SemArray} {sop : Sembuf} {sops done : List Sembuf} {v : ℕ → ℤ} {a : ℕ → BitVec 16}
  {un i : ℕ} {pid : ℤ} {x : Sembuf} {hist : List (List Sembuf)}

/-! ### All or nothing -/

/-- The values after an operation. -/
def perform (v : ℕ → ℤ) (sop : Sembuf) : ℕ → ℤ :=
  update v sop.semNum (v sop.semNum + sop.semOp)

/-- The operation can be performed on the values, with these adjustments. -/
def Passes (a : ℕ → BitVec 16) (v : ℕ → ℤ) (sop : Sembuf) : Prop :=
  (sop.semOp = 0 → v sop.semNum = 0) ∧
    (0 ≤ v sop.semNum + sop.semOp ∧ v sop.semNum + sop.semOp ≤ semvmx) ∧
    (sop.semUndo = true → -semaem - 1 ≤ (a sop.semNum).toInt - sop.semOp ∧
      (a sop.semNum).toInt - sop.semOp ≤ semaem)

/-- The operation has to wait for other values. -/
def Blocks (v : ℕ → ℤ) (sop : Sembuf) : Prop :=
  (sop.semOp = 0 ∧ v sop.semNum ≠ 0) ∨ v sop.semNum + sop.semOp < 0

/-- Operation `i` can be performed after those before it. -/
def PassesAt (a : ℕ → BitVec 16) (v : ℕ → ℤ) (sops : List Sembuf) (i : ℕ) : Prop :=
  ∀ sop, sops[i]? = some sop → Passes a ((sops.take i).foldl perform v) sop

/-- Operation `i` is the first that cannot be performed, and it has to wait. -/
def BlocksAt (a : ℕ → BitVec 16) (v : ℕ → ℤ) (sops : List Sembuf) (i : ℕ) (sop : Sembuf) : Prop :=
  sops[i]? = some sop ∧ (∀ j < i, PassesAt a v sops j) ∧
    Blocks ((sops.take i).foldl perform v) sop

/-- The operations on a semaphore, added up. -/
def opSum (sops : List Sembuf) (n : ℕ) : ℤ :=
  (sops.map fun sop => if sop.semNum = n then sop.semOp else 0).sum

theorem foldl_perform (n : ℕ) : sops.foldl perform v n = v n + opSum sops n := by
  induction sops generalizing v with
  | nil => simp [opSum]
  | cons sop sops ih =>
    rw [foldl_cons, ih, opSum, opSum, map_cons, sum_cons, perform, update_apply]
    grind

theorem passesAt_cons : (∀ i, PassesAt a v (sop :: sops) i) ↔
    Passes a v sop ∧ ∀ i, PassesAt a (perform v sop) sops i := by
  rw [← Nat.and_forall_add_one]
  simp [PassesAt]

theorem blocksAt_succ (h : Passes a v sop) :
    BlocksAt a v (sop :: sops) (i + 1) x ↔ BlocksAt a (perform v sop) sops i x := by
  simp only [BlocksAt, Nat.forall_lt_succ_left]
  simp [PassesAt, h]

theorem blocksAt_zero : BlocksAt a v (sop :: sops) 0 x ↔ sop = x ∧ Blocks v x := by
  simp [BlocksAt]

theorem Passes.not_blocks (h : Passes a v sop) : ¬ Blocks v sop := by
  simp only [Passes, Blocks] at h ⊢
  omega

theorem not_passesAt (h : ¬ Passes a v sop) : ¬ ∀ i, PassesAt a v (sop :: sops) i :=
  fun ha => h (passesAt_cons.1 ha).1

theorem blocksAt_of_not (h : ¬ Passes a v sop) :
    BlocksAt a v (sop :: sops) i x ↔ i = 0 ∧ sop = x ∧ Blocks v x := by
  cases i with
  | zero => simp [blocksAt_zero]
  | succ i =>
    exact ⟨fun hb => absurd (hb.2.1 0 i.succ_pos sop rfl) h, fun hb => absurd hb.1 i.succ_ne_zero⟩

theorem wouldBlock_eq : wouldBlock sop = 1 ∨ wouldBlock sop = eagain := by
  rw [wouldBlock]
  split_ifs <;> simp

/-- What the loop returns, by the first operation that fails. -/
theorem tryOps_first (a : ℕ → BitVec 16) (sops done : List Sembuf) (v : ℕ → ℤ) :
    let r := tryOps a sops done v
    (r.1 = 0 ↔ ∀ i, PassesAt a v sops i) ∧ (r.1 = 0 → r.2.2 = sops.foldl perform v) ∧
      (r.1 = 1 ∨ r.1 = eagain ↔ ∃ i sop, BlocksAt a v sops i sop) ∧
      ∀ i sop, BlocksAt a v sops i sop → r.1 = wouldBlock sop := by
  fun_induction tryOps a sops done v with
  | case1 => simp [PassesAt, BlocksAt, eagain]
  | case2 sop sops done v hz | case3 sop sops done v hz result hneg =>
    have hb : Blocks v sop := by
      simp only [Blocks]
      omega
    have hp : ¬ Passes a v sop := fun hp => hp.not_blocks hb
    simp [wouldBlock_ne_zero, not_passesAt hp, blocksAt_of_not hp, wouldBlock_eq, hb]
  | case4 sop sops done v hz result hneg hm
  | case5 sop sops done v hz result undo hneg hm hun =>
    have hb : ¬ Blocks v sop := by
      simp only [Blocks]
      omega
    have hp : ¬ Passes a v sop := by
      simp only [Passes]
      grind
    simp [not_passesAt hp, blocksAt_of_not hp, hb, erange, eagain]
  | case6 sop sops done v hz result undo hneg hm hun ih =>
    have hp : Passes a v sop := by
      simp only [Passes]
      grind
    rw [passesAt_cons, and_iff_right hp]
    refine ⟨ih.1, ih.2.1, ih.2.2.1.trans (Iff.trans ?_ Nat.or_exists_add_one), fun i x hb => ?_⟩
    · simp [blocksAt_succ hp, blocksAt_zero, hp.not_blocks, perform, result]
    cases i with
    | zero => exact absurd hb (by simpa [blocksAt_zero] using fun h => h ▸ hp.not_blocks)
    | succ i => exact ih.2.2.2 i x ((blocksAt_succ hp).1 hb)

theorem tryAtomicSemop_ok (h : (tryAtomicSemop s sops un pid).1 = 0) :
    (tryAtomicSemop s sops un pid).2.semval = sops.foldl perform s.semval ∧
      (tryAtomicSemop s sops un pid).2.semadj un = adjustOps sops.reverse (s.semadj un) ∧
      ∀ i, PassesAt (s.semadj un) s.semval sops i := by
  have h0 : (tryOps (s.semadj un) sops [] s.semval).1 = 0 :=
    (@verdict_eq s ⟨0, sops, un, pid, true⟩).symm.trans h
  have hf := tryOps_first (s.semadj un) sops [] s.semval
  simp only [tryAtomicSemop, if_pos h0]
  rw [((tryOps_spec _ _ _ _).1 h0).2, hf.2.1 h0, append_nil, update_self]
  exact ⟨rfl, rfl, hf.1.1 h0⟩

/-- **All or nothing.** The call succeeds if each operation can be performed after those before
it, and performs them all; if not, it changes nothing, and it waits, or gives up waiting, just if
the first operation that fails has to; its flag says which. -/
theorem tryAtomicSemop_all_or_nothing (s : SemArray) (sops : List Sembuf) (un : ℕ) (pid : ℤ) :
    let r := tryAtomicSemop s sops un pid
    (r.1 = 0 ↔ ∀ i, PassesAt (s.semadj un) s.semval sops i) ∧
      (r.1 = 0 → ∀ n, r.2.semval n = s.semval n + opSum sops n) ∧ (r.1 ≠ 0 → r.2 = s) ∧
      (r.1 = 1 ∨ r.1 = eagain ↔ ∃ i sop, BlocksAt (s.semadj un) s.semval sops i sop) ∧
      ∀ i sop, BlocksAt (s.semadj un) s.semval sops i sop → r.1 = wouldBlock sop := by
  have hfirst := tryOps_first (s.semadj un) sops [] s.semval
  have hval : (tryAtomicSemop s sops un pid).1 = _ := @verdict_eq s ⟨0, sops, un, pid, true⟩
  dsimp only at hfirst hval ⊢
  rw [← hval] at hfirst
  refine ⟨hfirst.1, fun h n => ?_, performed_of_ne (q := ⟨0, sops, un, pid, true⟩), hfirst.2.2⟩
  rw [← foldl_perform, (tryAtomicSemop_ok h).1]

/-! ### The adjustments -/

/-- The operations on a semaphore with `SEM_UNDO`, added up. -/
def undoSum (sops : List Sembuf) (n : ℕ) : ℤ :=
  (sops.map fun sop => if sop.semUndo = true ∧ sop.semNum = n then sop.semOp else 0).sum

/-- Calls that succeed, with one undo structure that starts empty, and their operations. -/
inductive UndoRun (un : ℕ) : SemArray → List (List Sembuf) → Prop
  | start {s : SemArray} (hval : ∀ n, 0 ≤ s.semval n ∧ s.semval n ≤ semvmx)
      (hadj : ∀ n, s.semadj un n = 0) : UndoRun un s []
  | call {s : SemArray} {hist : List (List Sembuf)} (run : UndoRun un s hist)
      {sops : List Sembuf} {pid : ℤ} (hpos : 1 ≤ sops.length) (hmax : sops.length ≤ semopm)
      (hnum : ∀ sop ∈ sops, sop.semNum < s.semNsems)
      (hok : (tryAtomicSemop s sops un pid).1 = 0) :
    UndoRun un (tryAtomicSemop s sops un pid).2 (sops :: hist)

/-- An adjustment within the limits. -/
def Fits (x : ℤ) : Prop := -semaem - 1 ≤ x ∧ x ≤ semaem

/-- The adjustments are what has to be taken back, and within the limits. -/
def Undoes (s : SemArray) (un : ℕ) (hist : List (List Sembuf)) : Prop :=
  ∀ n, (s.semadj un n).toInt = -undoSum hist.flatten n ∧ Fits (s.semadj un n).toInt

theorem adjustOps_toInt (n : ℕ) :
    (adjustOps done a n).toInt = ((a n).toInt - undoSum done n).bmod (2 ^ 16) := by
  induction done generalizing a with
  | nil =>
    simpa [adjustOps, undoSum] using (BitVec.toInt_bmod_cancel (a n)).symm
  | cons sop done ih =>
    rw [adjustOps, foldl_cons, ← adjustOps, ih, undoSum, undoSum, map_cons, sum_cons]
    by_cases hsop : sop.semUndo = true ∧ sop.semNum = n
    · obtain ⟨hun, rfl⟩ := hsop
      simp [hun, Int.sub_sub]
    rw [if_neg hsop, Int.zero_add]
    grind

theorem undoSum_reverse (n : ℕ) : undoSum sops.reverse n = undoSum sops n := by
  simp [undoSum]

theorem UndoRun.toInt_eq (h : UndoRun un s hist) (n : ℕ) :
    (s.semadj un n).toInt = (-undoSum hist.flatten n).bmod (2 ^ 16) := by
  induction h with
  | start hv hadj => simp [hadj, undoSum]
  | @call s hist run sops pid hp hm hnum hok ih =>
    rw [(tryAtomicSemop_ok hok).2.1, adjustOps_toInt, undoSum_reverse, ih]
    simp only [undoSum, flatten_cons, map_append, sum_append, Int.bmod_sub_bmod]
    congr 1
    omega

/-- The one operation that undoes something on a semaphore. -/
theorem undoSum_of_nodup (h : ((sops.filter Sembuf.semUndo).map Sembuf.semNum).Nodup) (n : ℕ) :
    undoSum sops n = 0 ∨ ∃ sop ∈ sops, sop.semUndo = true ∧ sop.semNum = n ∧
      undoSum sops n = sop.semOp := by
  induction sops with
  | nil => exact .inl rfl
  | cons sop sops ih =>
    have ih := ih (h.sublist (((sublist_cons_self sop sops).filter _).map _))
    simp only [undoSum, map_cons, sum_cons] at ih ⊢
    by_cases hsop : sop.semUndo = true ∧ sop.semNum = n
    · -- the others undo nothing on this semaphore
      refine .inr ⟨sop, mem_cons_self, hsop.1, hsop.2, ?_⟩
      grind
    · grind

/-- **The adjustments are exact if no call undoes two operations on one semaphore**, and in any run
just while their exact sums fit. -/
theorem UndoRun.undoes_iff (h : UndoRun un s hist) :
    ((∀ sops ∈ hist, ((sops.filter Sembuf.semUndo).map Sembuf.semNum).Nodup) →
      Undoes s un hist) ∧ (Undoes s un hist ↔ ∀ n, Fits (-undoSum hist.flatten n)) := by
  have hiff {s : SemArray} {hist : List (List Sembuf)} (h : UndoRun un s hist) :
      Undoes s un hist ↔ ∀ n, Fits (-undoSum hist.flatten n) := by
    refine forall_congr' fun n => ?_
    rw [h.toInt_eq, Fits, Fits, semaem, semvmx, Int.bmod_def]
    omega
  refine ⟨fun hnodup => ?_, hiff h⟩
  induction h with
  | start hval hadj => exact fun n => by simp [hadj, undoSum, Fits, semaem, semvmx]
  | @call s hist run sops pid hpos hmax hnum hok ih =>
    rw [hiff (run.call hpos hmax hnum hok)]
    intro n
    have hfits := ih (fun sops hm => hnodup sops (mem_cons_of_mem _ hm)) n
    have hsum : undoSum (sops :: hist).flatten n = undoSum sops n + undoSum hist.flatten n := by
      simp [undoSum]
    rw [hsum]
    obtain hz | ⟨sop, hsop, hundo, rfl, hop⟩ := undoSum_of_nodup (hnodup sops mem_cons_self) n
    · rw [hz, Int.zero_add, ← hfits.1]
      exact hfits.2
    obtain ⟨i, hi⟩ := mem_iff_getElem?.1 hsop
    have hpass := ((tryAtomicSemop_ok hok).2.2 i sop hi).2.2 hundo
    rw [hop, Fits]
    omega

theorem undoRun_oneSem : UndoRun 0 oneSem [] :=
  .start (fun _ => by simp [oneSem, semvmx]) fun _ => rfl

theorem UndoRun.undoes_one :
    Undoes (tryAtomicSemop oneSem [⟨0, 5, true, false⟩] 0 7).2 0 [[⟨0, 5, true, false⟩]] :=
  (UndoRun.undoes_iff (.call undoRun_oneSem (by decide) (by decide) (by decide)
    (by decide))).1 (by decide)

/-- Two operations that are undone, with one between them that is not. -/
def upDownUp : List Sembuf :=
  [⟨0, 20000, true, false⟩, ⟨0, -20000, false, false⟩, ⟨0, 20000, true, false⟩]

/-- Each of the two fits, their sum does not. -/
theorem UndoRun.wraps : UndoRun 0 (tryAtomicSemop oneSem upDownUp 0 7).2 [upDownUp] ∧
    ¬ Undoes (tryAtomicSemop oneSem upDownUp 0 7).2 0 [upDownUp] :=
  ⟨.call undoRun_oneSem (by decide) (by decide) (by decide) (by decide),
    fun h => absurd (h 0).1 (by decide)⟩

end NestLinux.Sem
