import NestLinux.Ipc.Sem
import Mathlib.Data.List.Nodup
import Mathlib.Data.List.Perm.Basic

/-!
# The queues of a semaphore array

A call performs all its operations or leaves the array as it was. While the array lock is held,
sleepers are taken from the queue one by one, each with the result of its operations on the
values the one before has left. The walk through a queue stops where no sleeper behind can go on,
and it is repeated where one of those passed could.
-/

namespace NestLinux.Sem

open Function List

variable {s t : SemArray} {q p : SemQueue} {sop : Sembuf} {sops done : List Sembuf}
  {v w : ℕ → ℤ} {a : ℕ → BitVec 16} {n : ℕ}

/-! ### One call -/

/-- The operations can be performed one after the other on the values `v`, and leave `w`. -/
def Performs : (ℕ → ℤ) → List Sembuf → (ℕ → ℤ) → Prop
  | v, [], w => w = v
  | v, sop :: sops, w =>
    (sop.semOp = 0 → v sop.semNum = 0) ∧ 0 ≤ v sop.semNum + sop.semOp ∧
      v sop.semNum + sop.semOp ≤ semvmx ∧
        Performs (update v sop.semNum (v sop.semNum + sop.semOp)) sops w

theorem undoOps_cons :
    undoOps (sop :: done) (update v sop.semNum (v sop.semNum + sop.semOp)) = undoOps done v := by
  simp [undoOps]

theorem wouldBlock_ne_zero : wouldBlock sop ≠ 0 := by
  rw [wouldBlock]
  split <;> decide

/-- The loop performs the operations, or the performed ones can be undone. -/
theorem tryOps_spec (a : ℕ → BitVec 16) (sops done : List Sembuf) (v : ℕ → ℤ) :
    let r := tryOps a sops done v
    (r.1 = 0 → Performs v sops r.2.2 ∧ r.2.1 = sops.reverse ++ done) ∧
      (r.1 ≠ 0 → undoOps r.2.1 r.2.2 = undoOps done v) := by
  fun_induction tryOps a sops done v with
  | case1 => exact ⟨fun _ => ⟨rfl, rfl⟩, fun h => absurd rfl h⟩
  | case2 sop | case3 sop => exact ⟨fun h => absurd h (wouldBlock_ne_zero), fun _ => rfl⟩
  | case4 | case5 => exact ⟨fun h => absurd h (by decide : erange ≠ 0), fun _ => rfl⟩
  | case6 sop sops done v hz result undo hneg hm hrng ih =>
    obtain ⟨hok, hun⟩ := ih
    refine ⟨fun h => ⟨⟨?_, Int.not_lt.1 hneg, Int.not_lt.1 hm, (hok h).1⟩, ?_⟩, fun h => ?_⟩
    · intro hop
      by_contra hne
      exact hz ⟨hop, hne⟩
    · rw [(hok h).2, reverse_cons, append_assoc, singleton_append]
    · rw [hun h, undoOps_cons]

/-- The result of a call on the array. -/
def verdict (s : SemArray) (q : SemQueue) : ℤ := (tryAtomicSemop s q.sops q.undo q.pid).1

/-- The array after the operations of a call, if they can be performed. -/
def performed (s : SemArray) (q : SemQueue) : SemArray := (tryAtomicSemop s q.sops q.undo q.pid).2

theorem verdict_eq : verdict s q = (tryOps (s.semadj q.undo) q.sops [] s.semval).1 := by
  simp only [verdict, tryAtomicSemop]
  split
  · rename_i h
    exact h.symm
  · rfl

/-- **A call that fails changes nothing.** -/
theorem performed_of_ne (h : verdict s q ≠ 0) : performed s q = s := by
  rw [verdict_eq] at h
  have hun := (tryOps_spec (s.semadj q.undo) q.sops [] s.semval).2 h
  simp only [performed, tryAtomicSemop, if_neg h]
  rw [hun]
  rfl

/-- **A call that succeeds performs its operations.** -/
theorem performs_of_eq (h : verdict s q = 0) : Performs s.semval q.sops (performed s q).semval := by
  rw [verdict_eq] at h
  simp only [performed, tryAtomicSemop, if_pos h]
  exact ((tryOps_spec (s.semadj q.undo) q.sops [] s.semval).1 h).1

theorem performed_queues : (performed s q).semPending = s.semPending ∧
      (performed s q).simplePending = s.simplePending ∧
      (performed s q).complexCount = s.complexCount ∧ (performed s q).completed = s.completed ∧
      (performed s q).nextId = s.nextId ∧ (performed s q).semNsems = s.semNsems := by
  simp only [performed, tryAtomicSemop]
  split <;> exact ⟨rfl, rfl, rfl, rfl, rfl, rfl⟩

/-- What the operations on a semaphore keep holds of its value after the call. -/
theorem Performs.value {P : ℤ → Prop} (h : Performs v sops w) (hv : P (v n))
    (hsp : ∀ sop ∈ sops, sop.semNum = n → ∀ x, P x → 0 ≤ x + sop.semOp → P (x + sop.semOp)) :
    P (w n) := by
  induction sops generalizing v with
  | nil => rwa [h]
  | cons sop sops ih =>
    rw [forall_mem_cons] at hsp
    refine ih h.2.2.2 ?_ hsp.2
    by_cases hm : sop.semNum = n
    · subst hm
      rw [update_self]
      exact hsp.1 rfl _ hv h.2.1
    · rwa [update_of_ne (Ne.symm hm)]

theorem Performs.nonneg (h : Performs v sops w) (hv : ∀ n, 0 ≤ v n) (n : ℕ) : 0 ≤ w n :=
  h.value (hv n) fun _ _ _ _ _ hle => hle

/-- A semaphore of which the value has grown has been incremented. -/
theorem Performs.exists_pos (h : Performs v sops w) (hn : v n < w n) :
    ∃ sop ∈ sops, sop.semNum = n ∧ 0 < sop.semOp := by
  by_contra! hno
  refine Int.not_lt.2 (h.value (P := (· ≤ v n)) (Int.le_refl _) fun sop hm hs x hx _ => ?_) hn
  have := hno sop hm hs
  omega

/-- A semaphore of which the value has dropped has been decremented. -/
theorem Performs.exists_neg (h : Performs v sops w) (hn : w n < v n) :
    ∃ sop ∈ sops, sop.semNum = n ∧ sop.semOp < 0 := by
  by_contra! hno
  refine Int.not_lt.2 (h.value (P := (v n ≤ ·)) (Int.le_refl _) fun sop hm hs x hx _ => ?_) hn
  have := hno sop hm hs
  omega

/-- A call that alters nothing performs nothing. -/
theorem Performs.eq_self (h : Performs v sops w) (hsp : ∀ sop ∈ sops, sop.semOp = 0) : w = v := by
  funext n
  refine h.value (P := (· = v n)) rfl fun sop hm _ x hx _ => ?_
  rw [hsp sop hm, Int.add_zero, hx]

theorem adjustOps_eq_self (hso : ∀ sop ∈ done, sop.semOp = 0) : adjustOps done a = a := by
  induction done with
  | nil => rfl
  | cons sop done ih =>
    rw [forall_mem_cons] at hso
    have hsp : (if sop.semUndo then
        update a sop.semNum (a sop.semNum - BitVec.ofInt 16 sop.semOp) else a) = a := by
      rw [hso.1]
      simp
    rw [adjustOps, foldl_cons, hsp]
    exact ih hso.2

theorem performed_of_not_alter (halt : ∀ sop ∈ q.sops, sop.semOp = 0) :
    (performed s q).semval = s.semval ∧ (performed s q).semadj = s.semadj := by
  by_cases h : verdict s q = 0
  · refine ⟨(performs_of_eq h).eq_self halt, ?_⟩
    rw [verdict_eq] at h
    have hdn := ((tryOps_spec (s.semadj q.undo) q.sops [] s.semval).1 h).2
    simp only [performed, tryAtomicSemop, if_pos h, hdn, append_nil]
    rw [adjustOps_eq_self fun sop hsop => halt sop (mem_reverse.1 hsop), update_eq_self]
  · rw [performed_of_ne h]
    exact ⟨rfl, rfl⟩

theorem tryOps_pos (h : 0 < (tryOps a sops done v).1) : (tryOps a sops done v).1 = 1 := by
  have hb (sop : Sembuf) (h : 0 < wouldBlock sop) : wouldBlock sop = 1 := by
    rw [wouldBlock] at h ⊢
    split_ifs at h ⊢
    · cases h
    · rfl
  fun_induction tryOps a sops done v with
  | case1 => exact absurd h (Int.lt_irrefl _)
  | case2 sop | case3 sop => exact hb sop h
  | case4 | case5 => exact absurd h (by decide : ¬ 0 < erange)
  | case6 sop sops done v hz result undo hneg hm hrng ih => exact ih h

/-- The operations of the sleeper would block. -/
def Blocked (s : SemArray) (q : SemQueue) : Prop := verdict s q = 1

theorem blocked_iff_pos : Blocked s q ↔ 0 < verdict s q := by
  refine ⟨fun h => by rw [show verdict s q = 1 from h]; decide, fun h => ?_⟩
  rw [verdict_eq] at h
  rw [Blocked, verdict_eq]
  exact tryOps_pos h

theorem Blocked.congr (h : Blocked s q) (hv : t.semval = s.semval) (hadj : t.semadj = s.semadj) :
    Blocked t q := by
  rw [Blocked, verdict_eq] at h ⊢
  rw [hv, hadj]
  exact h

/-! ### Sleepers on one semaphore -/

/-- The sleeper has one operation, on the semaphore. -/
def SimpleOn (n : ℕ) (q : SemQueue) : Prop := q.sops.length = 1 ∧ q.first.semNum = n

instance (n : ℕ) (q : SemQueue) : Decidable (SimpleOn n q) := inferInstanceAs (Decidable (_ ∧ _))

theorem sops_eq_of_length (h : q.sops.length = 1) : q.sops = [q.first] := by
  obtain ⟨sop, hsop⟩ := length_eq_one_iff.1 h
  rw [SemQueue.first, hsop]
  rfl

/-- The operation waits for a lower or a zero value, as the one of a sleeper does. -/
def Waits (sop : Sembuf) : Prop := sop.semOp ≤ 0 ∧ sop.ipcNowait = false

theorem blocked_simple (hq : q.sops.length = 1) (hwt : Waits q.first) :
    Blocked s q ↔ (q.first.semOp = 0 ∧ s.semval q.first.semNum ≠ 0) ∨
      s.semval q.first.semNum + q.first.semOp < 0 := by
  have hb : wouldBlock q.first = 1 := by simp [wouldBlock, hwt.2]
  have hrng : erange ≠ 1 := by decide
  rw [Blocked, verdict_eq, sops_eq_of_length hq]
  simp only [tryOps, hb]
  split_ifs with hz hneg
  · exact ⟨fun _ => .inl hz, fun _ => rfl⟩
  · exact ⟨fun _ => .inr hneg, fun _ => rfl⟩
  all_goals simp [hz, hneg, hrng]

/-- A call with one operation sleeps only if the operation waits. -/
theorem Blocked.waits (h : Blocked s q) (hq : q.sops.length = 1) (hv : ∀ n, 0 ≤ s.semval n) :
    Waits q.first := by
  have hnon := hv q.first.semNum
  have hb (hw : wouldBlock q.first = 1) : q.first.ipcNowait = false := by
    rw [wouldBlock] at hw
    split at hw
    · cases hw
    rename_i hno
    exact Bool.not_eq_true _ ▸ hno
  rw [Blocked, verdict_eq, sops_eq_of_length hq] at h
  simp only [tryOps] at h
  split_ifs at h
  · exact ⟨by omega, hb h⟩
  · exact ⟨by omega, hb h⟩
  all_goals simp [erange] at h

/-! ### The queues -/

/-- The queues of the array: a sleeper with one operation is also on the queue of its semaphore,
the others are counted, and those that alter nothing come first. -/
structure Queues (s : SemArray) : Prop where
  simple : ∀ n, s.simplePending n = s.semPending.filter (SimpleOn n)
  complex : s.complexCount = (s.semPending.filter fun q => q.sops.length ≠ 1).length
  order : s.semPending.Pairwise fun p q => p.alter = true → q.alter = true
  alter : ∀ q ∈ s.semPending, q.alter = q.sops.any fun sop => sop.semOp ≠ 0
  ne_nil : ∀ q ∈ s.semPending, q.sops ≠ []
  waits : ∀ q ∈ s.semPending, q.sops.length = 1 → Waits q.first
  nodup : (s.semPending.map SemQueue.id).Nodup
  nonneg : ∀ n, 0 ≤ s.semval n

theorem Queues.congr (h : Queues s) (hpn : t.semPending = s.semPending)
    (hsim : t.simplePending = s.simplePending) (hcm : t.complexCount = s.complexCount)
    (hv : ∀ n, 0 ≤ t.semval n) : Queues t := by
  cases s
  cases t
  cases hpn
  cases hsim
  cases hcm
  exact ⟨h.simple, h.complex, h.order, h.alter, h.ne_nil, h.waits, h.nodup, hv⟩

theorem Queues.exists_split (h : Queues s) (hq : q ∈ s.semPending) :
    ∃ A B, s.semPending = A ++ q :: B ∧ (s.semPending.filter fun p => p.id ≠ q.id) = A ++ B := by
  obtain ⟨A, B, hP⟩ := append_of_mem hq
  have hnd := h.nodup
  rw [hP, map_append, map_cons, nodup_middle, nodup_cons, ← map_append]
    at hnd
  have hkp {l : List SemQueue} (hl : l ⊆ A ++ B) : (l.filter fun p => p.id ≠ q.id) = l := by
    refine filter_eq_self.2 fun p hp => decide_eq_true fun heq => hnd.1 ?_
    rw [← heq]
    exact mem_map_of_mem (hl hp)
  refine ⟨A, B, hP, ?_⟩
  rw [hP, filter_append, filter_cons_of_neg (by simp), hkp (subset_append_left A B),
    hkp (subset_append_right A B)]

theorem unlinkQueue_semPending :
    (unlinkQueue s q).semPending = s.semPending.filter fun p => p.id ≠ q.id := by
  rw [unlinkQueue]
  split <;> rfl

theorem unlinkQueue_values :
    (unlinkQueue s q).semval = s.semval ∧ (unlinkQueue s q).semadj = s.semadj ∧
      (unlinkQueue s q).completed = s.completed ∧ (unlinkQueue s q).nextId = s.nextId := by
  rw [unlinkQueue]
  split <;> exact ⟨rfl, rfl, rfl, rfl⟩

/-- **A sleeper leaves the queues.** -/
theorem Queues.unlink (h : Queues s) (hq : q ∈ s.semPending) : Queues (unlinkQueue s q) := by
  obtain ⟨A, B, hP, hrs⟩ := h.exists_split hq
  have hsub : (A ++ B).Sublist s.semPending := by
    rw [← hrs]
    exact filter_sublist
  have hpn : (unlinkQueue s q).semPending = A ++ B := by
    rw [unlinkQueue_semPending, hrs]
  constructor
  · intro n
    rw [hpn]
    by_cases ho : q.sops.length = 1
    · have hli : (unlinkQueue s q).simplePending n =
          (s.simplePending n).filter fun p => p.id ≠ q.id := by
        rw [unlinkQueue, if_pos ho]
      rw [hli, h.simple, filter_filter, ← hrs, filter_filter]
      exact filter_congr fun p _ => Bool.and_comm _ _
    have hli : (unlinkQueue s q).simplePending n = s.simplePending n := by
      rw [unlinkQueue, if_neg ho]
    have hn : ¬ SimpleOn n q := fun hs => ho hs.1
    rw [hli, h.simple, hP, filter_append, filter_cons_of_neg (by simpa using hn), filter_append]
  · rw [hpn]
    by_cases ho : q.sops.length = 1
    · have hc : (unlinkQueue s q).complexCount = s.complexCount := by
        rw [unlinkQueue, if_pos ho]
      rw [hc, h.complex, hP, filter_append, filter_cons_of_neg (by simp [ho]), filter_append]
    have hc : (unlinkQueue s q).complexCount = s.complexCount - 1 := by
      rw [unlinkQueue, if_neg ho]
    rw [hc, h.complex, hP, filter_append, filter_cons_of_pos (by simp [ho]), filter_append,
      length_append, length_append, length_cons]
    omega
  · rw [hpn]
    exact h.order.sublist hsub
  · rw [hpn]
    exact fun p hp => h.alter p (hsub.subset hp)
  · rw [hpn]
    exact fun p hp => h.ne_nil p (hsub.subset hp)
  · rw [hpn]
    exact fun p hp => h.waits p (hsub.subset hp)
  · rw [hpn]
    exact h.nodup.sublist (hsub.map _)
  rw [unlinkQueue_values.1]
  exact h.nonneg

theorem enqueue_semPending :
    (enqueue s q).semPending = if q.alter then s.semPending ++ [q] else q :: s.semPending := by
  rw [enqueue]
  split <;> rfl

theorem enqueue_perm : (enqueue s q).semPending.Perm (q :: s.semPending) := by
  rw [enqueue_semPending]
  split
  · exact perm_append_singleton _ _
  · exact List.Perm.refl _

theorem enqueue_values : (enqueue s q).semval = s.semval ∧ (enqueue s q).semadj = s.semadj ∧
      (enqueue s q).completed = s.completed ∧ (enqueue s q).nextId = s.nextId := by
  rw [enqueue]
  split <;> exact ⟨rfl, rfl, rfl, rfl⟩

/-- **A call goes to sleep**: at the end of the queues if it alters the array, else at their
front. -/
theorem Queues.enqueue (h : Queues s) (halt : q.alter = q.sops.any fun sop => sop.semOp ≠ 0)
    (hne : q.sops ≠ []) (hwt : q.sops.length = 1 → Waits q.first)
    (hid : q.id ∉ s.semPending.map SemQueue.id) : Queues (enqueue s q) := by
  have hpn := @enqueue_semPending s q
  have hpr := @enqueue_perm s q
  have ha {P : SemQueue → Prop} (hold : ∀ p ∈ s.semPending, P p) (hn : P q) :
      ∀ p ∈ (Sem.enqueue s q).semPending, P p :=
    fun p hp => forall_mem_cons.2 ⟨hn, hold⟩ p (hpr.subset hp)
  constructor
  · intro n
    by_cases hon : SimpleOn n q
    · have hli : (Sem.enqueue s q).simplePending n =
          if q.alter then s.simplePending n ++ [q] else q :: s.simplePending n := by
        rw [Sem.enqueue, if_pos hon.1, hon.2]
        exact update_self ..
      rw [hli, hpn, h.simple]
      split
      · rw [filter_append, filter_cons_of_pos (by simpa using hon), filter_nil]
      · rw [filter_cons_of_pos (by simpa using hon)]
    have hli : (Sem.enqueue s q).simplePending n = s.simplePending n := by
      rw [Sem.enqueue]
      split
      · rename_i ho
        exact update_of_ne (fun heq => hon ⟨ho, heq.symm⟩) _ _
      · rfl
    rw [hli, hpn, h.simple]
    split
    · rw [filter_append, filter_cons_of_neg (by simpa using hon), filter_nil, append_nil]
    · rw [filter_cons_of_neg (by simpa using hon)]
  · rw [(hpr.filter _).length_eq]
    by_cases ho : q.sops.length = 1
    · have hc : (Sem.enqueue s q).complexCount = s.complexCount := by
        rw [Sem.enqueue, if_pos ho]
      rw [hc, h.complex, filter_cons_of_neg (by simp [ho])]
    have hc : (Sem.enqueue s q).complexCount = s.complexCount + 1 := by
      rw [Sem.enqueue, if_neg ho]
    rw [hc, h.complex, filter_cons_of_pos (by simp [ho]), length_cons]
    omega
  · rw [hpn]
    split
    · rename_i hq
      rw [pairwise_append]
      exact ⟨h.order, pairwise_singleton _ _, fun p _ x hx _ => mem_singleton.1 hx ▸ hq⟩
    · rename_i hq
      exact pairwise_cons.2 ⟨fun p _ hq' => absurd hq' hq, h.order⟩
  · exact ha h.alter halt
  · exact ha h.ne_nil hne
  · exact ha h.waits hwt
  · rw [(hpr.map _).nodup_iff]
    exact nodup_cons.2 ⟨hid, h.nodup⟩
  rw [enqueue_values.1]
  exact h.nonneg

/-! ### Sleepers are taken from the queue -/

def complete (s : SemArray) (q : SemQueue) : SemArray :=
  wakeUpSemQueuePrepare (unlinkQueue (performed s q) q) q (verdict s q)

/-- Some sleepers that are not blocked are taken from the queue. -/
inductive Steps : SemArray → SemArray → Prop
  | refl (s : SemArray) : Steps s s
  | step {s t : SemArray} {q : SemQueue} (hq : q ∈ s.semPending) (hready : verdict s q ≤ 0) :
      Steps (complete s q) t → Steps s t

theorem Steps.trans {u : SemArray} (h : Steps s t) (h' : Steps t u) : Steps s u := by
  induction h with
  | refl => exact h'
  | step hq hrdy _ ih => exact .step hq hrdy (ih h')

theorem complete_semPending :
    (complete s q).semPending = s.semPending.filter fun p => p.id ≠ q.id := by
  rw [complete, wakeUpSemQueuePrepare, unlinkQueue_semPending, performed_queues.1]

theorem complete_semval : (complete s q).semval = (performed s q).semval := unlinkQueue_values.1

theorem complete_semadj : (complete s q).semadj = (performed s q).semadj := unlinkQueue_values.2.1

theorem complete_length (hq : q ∈ s.semPending) :
    (complete s q).semPending.length < s.semPending.length := by
  rw [complete_semPending]
  refine length_filter_lt_length_iff_exists.2 ⟨q, hq, by simp⟩

theorem performed_nonneg (h : ∀ n, 0 ≤ s.semval n) : ∀ n, 0 ≤ (performed s q).semval n := by
  by_cases hz : verdict s q = 0
  · exact (performs_of_eq hz).nonneg h
  rw [performed_of_ne hz]
  exact h

theorem Queues.performed (h : Queues s) (q : SemQueue) : Queues (performed s q) :=
  h.congr performed_queues.1 performed_queues.2.1 performed_queues.2.2.1
    (performed_nonneg h.nonneg)

theorem Queues.complete (h : Queues s) (hq : q ∈ s.semPending) : Queues (complete s q) := by
  have hun : Queues (unlinkQueue (Sem.performed s q) q) := by
    refine (h.performed q).unlink ?_
    rw [performed_queues.1]
    exact hq
  exact hun.congr rfl rfl rfl hun.nonneg

theorem Steps.queues (h : Steps s t) (hs : Queues s) : Queues t := by
  induction h with
  | refl => exact hs
  | step hq _ _ ih => exact ih (hs.complete hq)

theorem Steps.subset (h : Steps s t) : t.semPending ⊆ s.semPending := by
  induction h with
  | refl => exact List.Subset.refl _
  | step hq _ _ ih =>
    refine List.Subset.trans ih ?_
    rw [complete_semPending]
    exact filter_subset_self _

/-- Where there are only sleepers with one operation. -/
theorem Queues.length_eq_one (h : Queues s) (hc : s.complexCount = 0) (hp : p ∈ s.semPending) :
    p.sops.length = 1 := by
  by_contra hne
  have hm : p ∈ s.semPending.filter fun q => q.sops.length ≠ 1 :=
    mem_filter.2 ⟨hp, decide_eq_true hne⟩
  have hps := length_pos_of_mem hm
  have := h.complex
  omega

theorem Queues.alter_simple (h : Queues s) (hp : p ∈ s.semPending) (ho : p.sops.length = 1) :
    p.alter = true ↔ p.first.semOp ≠ 0 := by
  rw [h.alter p hp, sops_eq_of_length ho]
  simp

/-- **When the walk is not repeated**: the sleeper changed nothing, or it and all others have one
operation, and those that wait for its semaphore to be zero still have to. -/
theorem checkRestart_spec (h : Queues s) (hq : q ∈ s.semPending) :
    ∃ restart, checkRestart (unlinkQueue (performed s q) q) q = some restart ∧
      (restart = false → q.alter = false ∨
        (complete s q).complexCount = 0 ∧ q.sops.length = 1 ∧ q.first.semOp < 0 ∧
          ((complete s q).semval q.first.semNum ≠ 0 ∨
            ∀ p ∈ (complete s q).semPending, SimpleOn q.first.semNum p → p.first.semOp ≠ 0)) := by
  have hqs := h.complete hq
  change ∃ restart, checkRestart (complete s q) q = some restart ∧ _
  rw [checkRestart]
  split
  · rename_i halt
    exact ⟨false, rfl, fun _ => .inl halt⟩
  rename_i halt
  split
  · exact ⟨true, rfl, by simp⟩
  rename_i hc
  split
  · exact ⟨true, rfl, by simp⟩
  have ho : q.sops.length = 1 := by
    have := length_pos_iff.2 (h.ne_nil q hq)
    omega
  have hneg : q.first.semOp < 0 := by
    have hne := (h.alter_simple hq ho).1 (Bool.not_eq_false _ ▸ halt)
    have hle := (h.waits q hq ho).1
    omega
  rw [not_not] at hc
  have hli := hqs.simple q.first.semNum
  have hon (p : SemQueue) : p ∈ (complete s q).semPending ∧ SimpleOn q.first.semNum p ↔
      p ∈ (complete s q).simplePending q.first.semNum := by
    rw [hli, mem_filter, decide_eq_true_iff]
  split
  · rename_i hn
    refine ⟨false, rfl, fun _ => .inr ⟨hc, ho, hneg, .inr fun p hp hsim => ?_⟩⟩
    have hm := (hon p).1 ⟨hp, hsim⟩
    rw [hn] at hm
    exact absurd hm not_mem_nil
  rename_i first rest hcn
  split
  · rename_i hv
    rw [if_neg (by omega)]
    exact ⟨false, rfl, fun _ => .inr ⟨hc, ho, hneg, .inl hv⟩⟩
  have hf := (hon first).2 (by rw [hcn]; exact mem_cons_self)
  rw [if_neg (by rw [not_or, not_not, not_not]; exact hf.2)]
  split
  · exact ⟨true, rfl, by simp⟩
  rename_i hop
  refine ⟨false, rfl, fun _ => .inr ⟨hc, ho, hneg, .inr fun p hp hsim => ?_⟩⟩
  -- those that wait for zero come first in the queue
  have hord : ((complete s q).simplePending q.first.semNum).Pairwise
      fun p q => p.alter = true → q.alter = true := by
    rw [hli]
    exact hqs.order.sublist filter_sublist
  rw [hcn, pairwise_cons] at hord
  have hm := (hon p).1 ⟨hp, hsim⟩
  rw [hcn] at hm
  rcases mem_cons.1 hm with rfl | hm
  · exact hop
  rw [← hqs.alter_simple hp hsim.1]
  exact hord.1 p hm ((hqs.alter_simple hf.1 hf.2.1).2 hop)

/-- The value a sleeper with one operation leaves. -/
theorem performed_simple (hok : verdict s q = 0) (ho : q.sops.length = 1) :
    (performed s q).semval = update s.semval q.first.semNum
      (s.semval q.first.semNum + q.first.semOp) := by
  have hpr := performs_of_eq hok
  rw [sops_eq_of_length ho] at hpr
  exact hpr.2.2.2

/-- **Where the walk is not repeated, those passed stay blocked.** -/
theorem Blocked.complete (h : Queues s) (hq : q ∈ s.semPending) (hok : verdict s q = 0)
    (hno : checkRestart (unlinkQueue (performed s q) q) q = some false)
    (hp : p ∈ (complete s q).semPending) (hbl : Blocked s p) : Blocked (complete s q) p := by
  obtain ⟨restart, hrst, hcs⟩ := checkRestart_spec h hq
  rw [hno, Option.some.injEq] at hrst
  have hps : p ∈ s.semPending := by
    rw [complete_semPending] at hp
    exact (mem_filter.1 hp).1
  rcases hcs hrst.symm with halt | ⟨hc, ho, hneg, hz⟩
  · have hsp : ∀ sop ∈ q.sops, sop.semOp = 0 := by
      rw [h.alter q hq, any_eq_false] at halt
      intro sop hsop
      simpa using halt sop hsop
    refine hbl.congr ?_ ?_
    · rw [complete_semval, (performed_of_not_alter hsp).1]
    · rw [complete_semadj, (performed_of_not_alter hsp).2]
  have hpn := (h.complete hq).length_eq_one hc hp
  have hwt := h.waits p hps hpn
  rw [blocked_simple hpn hwt] at hbl ⊢
  have hv : (Sem.complete s q).semval = update s.semval q.first.semNum
      (s.semval q.first.semNum + q.first.semOp) := by
    rw [complete_semval, performed_simple hok ho]
  by_cases hn : p.first.semNum = q.first.semNum
  · rw [hn] at hbl ⊢
    rw [hv, update_self] at hz ⊢
    rcases hbl with hwa | hdec
    · rcases hz with hne | hnn
      · exact .inl ⟨hwa.1, hne⟩
      · exact absurd hwa.1 (hnn p hp ⟨hpn, hn⟩)
    · exact .inr (by omega)
  · rw [hv, update_of_ne hn]
    exact hbl

end NestLinux.Sem
