import NestLinux.Ipc.SemQueue

/-!
# Runs of calls on a semaphore array

The walk through a queue leaves on it only sleepers that are blocked, and after a call the walks
together have seen every sleeper that the call could have made possible. So no sleeper is
forgotten. Those that are done have performed their operations one after the other.
-/

namespace NestLinux.Sem

open List

variable {s t : SemArray} {q p : SemQueue} {semnum : Option ℕ} {n : ℕ} {v : ℕ → ℤ}

/-! ### One walk -/

/-- The sleepers that `update_queue` looks at. -/
def InScope : Option ℕ → SemQueue → Prop
  | none, _ => True
  | some n, q => SimpleOn n q

theorem mem_pendingList (h : Queues s) :
    p ∈ pendingList s semnum ↔ p ∈ s.semPending ∧ InScope semnum p := by
  cases semnum with
  | none => exact ⟨fun hp => ⟨hp, trivial⟩, fun hp => hp.1⟩
  | some n =>
    rw [pendingList, h.simple, mem_filter, decide_eq_true_iff]
    rfl

theorem pendingList_complete (h : Queues s) (hq : q ∈ s.semPending) :
    pendingList (complete s q) semnum = (pendingList s semnum).filter fun p => p.id ≠ q.id := by
  cases semnum with
  | none => exact complete_semPending
  | some n =>
    rw [pendingList, (h.complete hq).simple, complete_semPending, pendingList, h.simple,
      filter_filter, filter_filter]
    exact filter_congr fun p _ => Bool.and_comm _ _

theorem Queues.complexCount_eq_zero (h : Queues t) (ha : ∀ p ∈ t.semPending, p.sops.length = 1) :
    t.complexCount = 0 := by
  rw [h.complex, filter_eq_nil_iff.2 fun p hp => by simp [ha p hp]]
  rfl

theorem Steps.complexCount (h : Steps s t) (hs : Queues s) (hc : s.complexCount = 0) :
    t.complexCount = 0 :=
  (h.queues hs).complexCount_eq_zero fun _ hp => hs.length_eq_one hc (h.subset hp)

/-- A sleeper on one semaphore leaves the values of the others. -/
theorem complete_semval_of_ne (hon : SimpleOn n q) {m : ℕ} (hm : m ≠ n) :
    (complete s q).semval m = s.semval m := by
  rw [complete_semval]
  by_cases hok : verdict s q = 0
  · rw [performed_simple hok hon.1, hon.2, Function.update_of_ne hm]
  · rw [performed_of_ne hok]

/-- At zero, the sleepers that alter the semaphore are blocked. -/
theorem Queues.blocked_of_zero (h : Queues s) (hp : p ∈ s.semPending) (hon : SimpleOn n p)
    (hz : s.semval n = 0) (halt : p.alter = true) : Blocked s p := by
  have hwt := h.waits p hp hon.1
  have hne := (h.alter_simple hp hon.1).1 halt
  rw [blocked_simple hon.1 hwt, hon.2]
  have := hwt.1
  exact .inr (by omega)

theorem walkQueue_cons (semnum : Option ℕ) (q : SemQueue) (walk : List SemQueue) (s : SemArray) :
    walkQueue semnum (q :: walk) s =
      if (semnum.map s.semval = some 0) ∧ q.alter = true then some (false, s)
      else if 0 < verdict s q then walkQueue semnum walk (performed s q) else
        (if verdict s q ≠ 0 then some false
          else checkRestart (unlinkQueue (performed s q) q) q).bind fun restart =>
            if restart then some (true, complete s q) else walkQueue semnum walk (complete s q) :=
  rfl

theorem Queues.pendingList_sublist {semnum : Option ℕ} (h : Queues s) :
    (pendingList s semnum).Sublist s.semPending := by
  cases semnum with
  | none => exact List.Sublist.refl _
  | some n =>
    rw [pendingList, h.simple]
    exact filter_sublist

/-- A walk over the sleepers in its scope has ended, with a restart or without. -/
abbrev Walked (semnum : Option ℕ) (s : SemArray) (r : Bool × SemArray) : Prop :=
  Steps s r.2 ∧ (r.1 = true → r.2.semPending.length < s.semPending.length) ∧
    (r.1 = false → ∀ p ∈ r.2.semPending, InScope semnum p → Blocked r.2 p) ∧
    ∀ n, semnum = some n → ∀ m, m ≠ n → r.2.semval m = s.semval m

/-- The rest of a walk is still in the list when a sleeper has left. -/
theorem sublist_complete {semnum : Option ℕ} {walk : List SemQueue} (h : Queues s)
    (hwk : (q :: walk).Sublist (pendingList s semnum)) (hq : q ∈ s.semPending) :
    walk.Sublist (pendingList (complete s q) semnum) := by
  have hnd := h.nodup.sublist ((hwk.trans h.pendingList_sublist).map _)
  rw [map_cons, nodup_cons] at hnd
  have hsl : (walk.filter fun p => p.id ≠ q.id) = walk :=
    filter_eq_self.2 fun p hp => decide_eq_true fun heq => hnd.1 (heq ▸ mem_map_of_mem hp)
  rw [pendingList_complete h hq, ← hsl]
  exact ((sublist_cons_self q walk).trans hwk).filter _

/-- **One walk**: it ends with a restart after a sleeper has left, or with all sleepers in its
scope blocked. -/
theorem walkQueue_spec (semnum : Option ℕ) (walk : List SemQueue) (s : SemArray) (h : Queues s)
    (hwk : walk.Sublist (pendingList s semnum))
    (hps : ∀ p ∈ s.semPending, InScope semnum p → p ∈ walk ∨ Blocked s p) :
    ∃ r, walkQueue semnum walk s = some r ∧ Walked semnum s r := by
  induction walk generalizing s with
  | nil =>
    refine ⟨(false, s), rfl, .refl s, by simp, fun _ p hp hscp => ?_, fun _ _ _ _ => rfl⟩
    exact (hps p hp hscp).resolve_left not_mem_nil
  | cons q walk ih =>
    obtain ⟨hq, hscp⟩ := (mem_pendingList h).1 (hwk.subset mem_cons_self)
    rw [walkQueue_cons]
    split
    · -- the semaphore is zero, and only sleepers that alter it are left
      rename_i hbrk
      refine ⟨(false, s), rfl, .refl s, by simp, fun _ p hp hscp' => ?_, fun _ _ _ _ => rfl⟩
      rcases hps p hp hscp' with hmm | hbl
      · obtain ⟨n, rfl, hz⟩ := Option.map_eq_some_iff.1 hbrk.1
        have hord := h.order.sublist (hwk.trans h.pendingList_sublist)
        refine h.blocked_of_zero hp hscp' hz ?_
        rcases mem_cons.1 hmm with rfl | hmm
        · exact hbrk.2
        · exact (pairwise_cons.1 hord).1 p hmm hbrk.2
      · exact hbl
    split
    · rename_i hpo
      have hbl : Blocked s q := blocked_iff_pos.2 hpo
      rw [performed_of_ne (Int.ne_of_gt hpo)]
      refine ih s h ((sublist_cons_self q walk).trans hwk) fun p hp hscp' => ?_
      rcases hps p hp hscp' with hmm | hbl'
      · rcases mem_cons.1 hmm with rfl | hmm
        · exact .inr hbl
        · exact .inl hmm
      · exact .inr hbl'
    rename_i hpo
    have hle : verdict s q ≤ 0 := Int.not_lt.1 hpo
    have hlt := complete_length hq
    have hvl : ∀ n, semnum = some n → ∀ m, m ≠ n →
        (complete s q).semval m = s.semval m := by
      intro n hn m hm
      subst hn
      exact complete_semval_of_ne hscp hm
    have hnx (hkp : ∀ p ∈ (complete s q).semPending, Blocked s p → Blocked (complete s q) p) :
        ∃ r, walkQueue semnum walk (complete s q) = some r ∧ Walked semnum s r := by
      obtain ⟨r, hr, hst, hag, hdn, hsm⟩ :=
        ih (complete s q) (h.complete hq) (sublist_complete h hwk hq) fun p hp hscp' => by
          have hp' := hp
          rw [complete_semPending, mem_filter, decide_eq_true_iff] at hp'
          rcases hps p hp'.1 hscp' with hmm | hbl
          · rcases mem_cons.1 hmm with rfl | hmm
            · exact absurd rfl hp'.2
            · exact .inl hmm
          · exact .inr (hkp p hp hbl)
      refine ⟨r, hr, .step hq hle hst, fun ht => Nat.lt_trans (hag ht) hlt, hdn, ?_⟩
      intro n hn m hm
      rw [hsm n hn m hm, hvl n hn m hm]
    by_cases hok : verdict s q = 0
    · obtain ⟨restart, hrst, -⟩ := checkRestart_spec h hq
      rw [if_neg (not_not.2 hok), hrst]
      cases restart with
      | true =>
        exact ⟨(true, complete s q), rfl, .step hq hle (.refl _), fun _ => hlt, by simp, hvl⟩
      | false =>
        exact hnx fun p hp hbl => Blocked.complete h hq hok hrst hp hbl
    · rw [if_pos hok]
      refine hnx fun p _ hbl => hbl.congr ?_ ?_
      · rw [complete_semval, performed_of_ne hok]
      · rw [complete_semadj, performed_of_ne hok]

/-! ### The walks of a call -/

/-- The walk is repeated until all sleepers in its scope are blocked. -/
theorem updateLoop_spec (semnum : Option ℕ) (fuel : ℕ) (s : SemArray) (h : Queues s)
    (hfl : s.semPending.length < fuel) : ∃ t, updateLoop semnum fuel s = some t ∧ Steps s t ∧
      (∀ p ∈ t.semPending, InScope semnum p → Blocked t p) ∧
      ∀ n, semnum = some n → ∀ m, m ≠ n → t.semval m = s.semval m := by
  induction fuel generalizing s with
  | zero => omega
  | succ fuel ih =>
    obtain ⟨r, hr, hst, hag, hdn, hsm⟩ :=
      walkQueue_spec semnum (pendingList s semnum) s h (List.Sublist.refl _)
        fun p hp hscp => .inl ((mem_pendingList h).2 ⟨hp, hscp⟩)
    rw [updateLoop, hr, Option.bind_some]
    split
    · rename_i hrst
      have hlt := hag hrst
      obtain ⟨t, ht, hst', hbl, hsm'⟩ := ih r.2 (hst.queues h) (by omega)
      refine ⟨t, ht, hst.trans hst', hbl, fun n hn m hm => ?_⟩
      rw [hsm' n hn m hm, hsm n hn m hm]
    · rename_i hrst
      exact ⟨r.2, rfl, hst, hdn (Bool.not_eq_true _ ▸ hrst), hsm⟩

/-- With sleepers that have several operations, all are looked at. -/
theorem updateQueue_all (h : Queues s) (hc : s.complexCount ≠ 0) (semnum : Option ℕ) :
    ∃ t, updateQueue s semnum = some t ∧ Steps s t ∧ ∀ p ∈ t.semPending, Blocked t p := by
  obtain ⟨t, ht, hst, hbl, -⟩ := updateLoop_spec none _ s h (Nat.lt_succ_self _)
  refine ⟨t, ?_, hst, fun p hp => hbl p hp trivial⟩
  rw [updateQueue, if_pos hc]
  exact ht

/-- Without them, those on one semaphore are looked at. -/
theorem updateQueue_one (h : Queues s) (hc : s.complexCount = 0) (n : ℕ) :
    ∃ t, updateQueue s (some n) = some t ∧ Steps s t ∧
      (∀ p ∈ t.semPending, SimpleOn n p → Blocked t p) ∧ ∀ m, m ≠ n → t.semval m = s.semval m := by
  obtain ⟨t, ht, hst, hbl, hsm⟩ := updateLoop_spec (some n) _ s h (Nat.lt_succ_self _)
  refine ⟨t, ?_, hst, hbl, hsm n rfl⟩
  rw [updateQueue, if_neg (not_not.2 hc)]
  exact ht

/-- An operation for which `do_smart_update` looks at the sleepers on its semaphore. -/
def Touches (s : SemArray) (n : ℕ) (sop : Sembuf) : Prop :=
  sop.semNum = n ∧ (0 < sop.semOp ∨ sop.semOp < 0 ∧ s.semval n = 0)

/-- **The walks after a call**, with sleepers that have one operation each. -/
theorem smartLoop_spec (sops : List Sembuf) (s : SemArray) (h : Queues s)
    (hc : s.complexCount = 0)
    (hps : ∀ p ∈ s.semPending, Blocked s p ∨ ∃ sop ∈ sops, Touches s p.first.semNum sop) :
    ∃ t, smartLoop sops s = some t ∧ Steps s t ∧ ∀ p ∈ t.semPending, Blocked t p := by
  induction sops generalizing s with
  | nil => exact ⟨s, rfl, .refl s, fun p hp => (hps p hp).resolve_right (by simp)⟩
  | cons sop sops ih =>
    rw [smartLoop]
    split
    · obtain ⟨t, ht, hst, hbl, hsm⟩ := updateQueue_one h hc sop.semNum
      rw [ht]
      have htq := hst.queues h
      have htc := hst.complexCount h hc
      obtain ⟨u, hu, hst', hdn⟩ := ih t htq htc fun p hp => by
        have ho := htq.length_eq_one htc hp
        by_cases hn : p.first.semNum = sop.semNum
        · exact .inl (hbl p hp ⟨ho, hn⟩)
        rcases hps p (hst.subset hp) with hold | ⟨sop', hm, hnum, htch⟩
        · have hwt := htq.waits p hp ho
          rw [blocked_simple ho hwt] at hold ⊢
          rw [hsm _ hn]
          exact .inl hold
        rcases mem_cons.1 hm with rfl | hm
        · exact absurd hnum.symm hn
        refine .inr ⟨sop', hm, hnum, ?_⟩
        rw [hsm _ hn]
        exact htch
      exact ⟨u, hu, hst.trans hst', hdn⟩
    · rename_i hno
      refine ih s h hc fun p hp => ?_
      rcases hps p hp with hold | ⟨sop', hm, hnum, htch⟩
      · exact .inl hold
      rcases mem_cons.1 hm with rfl | hm
      · exact absurd (hnum ▸ htch) hno
      · exact .inr ⟨sop', hm, hnum, htch⟩

/-- **The walks after a call** that has performed its operations. -/
theorem doSmartUpdate_spec (h : Queues s) (hbl : ∀ p ∈ s.semPending, Blocked s p)
    (hok : verdict s q = 0) (ht : Queues t) (hpn : t.semPending = s.semPending)
    (hv : t.semval = (performed s q).semval) :
    ∃ u, doSmartUpdate t q.sops = some u ∧ Steps t u ∧ ∀ p ∈ u.semPending, Blocked u p := by
  rw [doSmartUpdate]
  split
  · rename_i hc
    exact updateQueue_all ht hc none
  rename_i hc
  rw [not_not] at hc
  refine smartLoop_spec q.sops t ht hc fun p hp => ?_
  have ho := ht.length_eq_one hc hp
  rw [hpn] at hp
  have hwt := h.waits p hp ho
  have hpr := performs_of_eq hok
  rw [← hv] at hpr
  have hnon := h.nonneg p.first.semNum
  by_cases hstl : Blocked t p
  · exact .inl hstl
  right
  have hold := hbl p hp
  rw [blocked_simple ho hwt] at hold hstl
  rw [not_or, not_and, not_not] at hstl
  rcases hold with hz | hdec
  · -- the value has dropped to the zero the sleeper waits for
    have hn := hstl.1 hz.1
    obtain ⟨sop, hsop, hnum, hneg⟩ := hpr.exists_neg (n := p.first.semNum) (by omega)
    exact ⟨sop, hsop, hnum, .inr ⟨hneg, hn⟩⟩
  · -- the value has grown
    obtain ⟨sop, hsop, hnum, hps⟩ := hpr.exists_pos (n := p.first.semNum) (by omega)
    exact ⟨sop, hsop, hnum, .inl hps⟩

/-! ### What is done -/

/-- The calls performed their operations one after the other, on the values that start as `v`. -/
inductive History (v : ℕ → ℤ) : List SemQueue → (ℕ → ℤ) → Prop
  | nil : History v [] v
  | step {l : List SemQueue} {w u : ℕ → ℤ} {q : SemQueue} :
      History v l w → Performs w q.sops u → History v (l ++ [q]) u

/-- The calls that are done with the result 0. -/
def succeeded (s : SemArray) : List SemQueue :=
  (s.completed.filter fun c => c.2 = 0).map Prod.fst

/-- The calls that are done, and those that sleep. -/
def ids (s : SemArray) : List ℕ :=
  (s.completed.map fun c => c.1.id) ++ s.semPending.map SemQueue.id

/-- What has become of the calls. -/
structure Account (v : ℕ → ℤ) (s : SemArray) : Prop where
  history : History v (succeeded s) s.semval
  nodup : (ids s).Nodup
  fresh : ∀ i ∈ ids s, i < s.nextId

theorem Account.done (h : Account v s) (hcm : t.completed = s.completed ++ [(q, verdict s q)])
    (hv : t.semval = (performed s q).semval) (hids : (ids t).Nodup)
    (hfr : ∀ i ∈ ids t, i < t.nextId) : Account v t := by
  refine ⟨?_, hids, hfr⟩
  rw [succeeded, hcm, hv, filter_append, map_append]
  by_cases hok : verdict s q = 0
  · rw [filter_cons_of_pos (by simpa using hok)]
    exact h.history.step (performs_of_eq hok)
  rw [filter_cons_of_neg (by simpa using hok), performed_of_ne hok]
  rw [filter_nil, map_nil, append_nil]
  exact h.history

theorem Account.complete (h : Account v s) (hs : Queues s) (hq : q ∈ s.semPending) :
    Account v (complete s q) := by
  have hcm : (Sem.complete s q).completed = s.completed ++ [(q, verdict s q)] := by
    rw [Sem.complete, wakeUpSemQueuePrepare, unlinkQueue_values.2.2.1, performed_queues.2.2.2.1]
  have hnx : (Sem.complete s q).nextId = s.nextId := by
    rw [Sem.complete, wakeUpSemQueuePrepare, unlinkQueue_values.2.2.2, performed_queues.2.2.2.2.1]
  obtain ⟨A, B, hP, hrs⟩ := hs.exists_split hq
  have hpr : (ids (Sem.complete s q)).Perm (ids s) := by
    rw [ids, ids, hcm, complete_semPending, hrs, hP]
    simp only [map_append, map_cons, map_nil, append_assoc, singleton_append]
    exact List.Perm.append_left _ perm_middle.symm
  refine h.done hcm complete_semval (hpr.nodup_iff.2 h.nodup) fun i hi => ?_
  rw [hnx]
  exact h.fresh i (hpr.subset hi)

theorem Account.steps (hst : Steps s t) (h : Account v s) (hs : Queues s) : Account v t := by
  induction hst with
  | refl => exact h
  | step hq _ _ ih => exact ih (h.complete hs hq) (hs.complete hq)

/-! ### Runs -/

/-- The array while its lock is free. -/
structure Idle (v : ℕ → ℤ) (s : SemArray) : Prop where
  queues : Queues s
  blocked : ∀ q ∈ s.semPending, Blocked s q
  account : Account v s

structure Fresh (s : SemArray) : Prop where
  semPending : s.semPending = []
  simplePending : ∀ n, s.simplePending n = []
  complexCount : s.complexCount = 0
  completed : s.completed = []
  semval : ∀ n, 0 ≤ s.semval n ∧ s.semval n ≤ semvmx

theorem Fresh.idle (h : Fresh s) : Idle s.semval s := by
  refine ⟨⟨?_, ?_, ?_, ?_, ?_, ?_, ?_, fun n => (h.semval n).1⟩, ?_, ?_, ?_, ?_⟩
  · intro n
    rw [h.simplePending, h.semPending]
    rfl
  · rw [h.complexCount, h.semPending]
    rfl
  · rw [h.semPending]
    exact List.Pairwise.nil
  · simp [h.semPending]
  · simp [h.semPending]
  · simp [h.semPending]
  · simp [h.semPending]
  · simp [h.semPending]
  · rw [succeeded, h.completed]
    exact .nil
  · simp [ids, h.completed, h.semPending]
  · simp [ids, h.completed, h.semPending]

/-- **A sleeper gives up.** -/
theorem Idle.interrupt (h : Idle v s) (id : ℕ) : Idle v (interrupt s id) := by
  rw [Sem.interrupt]
  split
  · exact h
  rename_i q hfi
  have hq := mem_of_find?_eq_some hfi
  obtain ⟨hv, hadj, hcm, hnx⟩ := @unlinkQueue_values s q
  have hpn := @unlinkQueue_semPending s q
  have hsub : (ids (unlinkQueue s q)).Sublist (ids s) := by
    rw [ids, hcm, hpn]
    exact (List.Sublist.refl _).append (filter_sublist.map _)
  refine ⟨h.queues.unlink hq, fun p hp => ?_, ?_, h.account.nodup.sublist hsub, fun i hi => ?_⟩
  · rw [hpn] at hp
    exact (h.blocked p (mem_filter.1 hp).1).congr hv hadj
  · rw [succeeded, hcm, hv]
    exact h.account.history
  rw [hnx]
  exact h.account.fresh i (hsub.subset hi)

/-- The number of the next call is given out. -/
def take (s : SemArray) : SemArray := { s with nextId := s.nextId + 1 }

theorem Idle.take (h : Idle v s) : Idle v (take s) :=
  ⟨h.queues.congr rfl rfl rfl h.queues.nonneg, fun p hp => (h.blocked p hp).congr rfl rfl,
    h.account.history, h.account.nodup, fun i hi => Nat.lt_succ_of_lt (h.account.fresh i hi)⟩

/-- The ids after a call has joined those that are done or those that sleep. -/
theorem Idle.ids_cons (h : Idle v s) (hids : (ids t).Perm (s.nextId :: ids s))
    (hnx : t.nextId = s.nextId + 1) : (ids t).Nodup ∧ ∀ i ∈ ids t, i < t.nextId := by
  refine ⟨?_, fun i hi => ?_⟩
  · rw [hids.nodup_iff, nodup_cons]
    exact ⟨fun hm => Nat.lt_irrefl _ (h.account.fresh _ hm), h.account.nodup⟩
  rw [hnx]
  rcases mem_cons.1 (hids.subset hi) with rfl | hm
  · exact Nat.lt_succ_self _
  · exact Nat.lt_succ_of_lt (h.account.fresh i hm)

/-- The array after a call is done with a result. -/
def finish (s : SemArray) (q : SemQueue) : SemArray :=
  { performed s q with completed := (performed s q).completed ++ [(q, verdict s q)] }

theorem semtimedop_eq {rq : Request} (hmin : ¬ rq.sops.length < 1) (hm : ¬ semopm < rq.sops.length)
    (hnum : ¬ (rq.sops.any fun sop => s.semNsems ≤ sop.semNum) = true)
    (hq : rq.queue s.nextId = q) : semtimedop s rq =
      if verdict (take s) q ≤ 0 then
        if q.alter = true ∧ verdict (take s) q = 0 then
          (doSmartUpdate (finish (take s) q) rq.sops).map fun t => (some (verdict (take s) q), t)
        else some (some (verdict (take s) q), finish (take s) q)
      else some (none, enqueue (performed (take s) q) q) := by
  rw [semtimedop, if_neg hmin, if_neg hm, if_neg hnum, ← hq]
  rfl

theorem Queues.finish (h : Queues s) (q : SemQueue) : Queues (finish s q) :=
  (h.performed q).congr rfl rfl rfl (h.performed q).nonneg

theorem Idle.finish (h : Idle v s) (hq : q.id = s.nextId) : Account v (finish (Sem.take s) q) := by
  obtain ⟨hpn, -, -, hcm, hnx, -⟩ := @performed_queues (Sem.take s) q
  have hdn : (Sem.finish (Sem.take s) q).completed =
      (Sem.take s).completed ++ [(q, verdict (Sem.take s) q)] := by
    rw [Sem.finish, hcm]
  have hids : (ids (Sem.finish (Sem.take s) q)).Perm (s.nextId :: ids s) := by
    have heq : ids (Sem.finish (Sem.take s) q) =
        (s.completed.map fun c => c.1.id) ++ s.nextId :: s.semPending.map SemQueue.id := by
      rw [ids, hdn, map_append, append_assoc, ← hq]
      simp only [Sem.finish, hpn]
      rfl
    rw [heq]
    exact perm_middle
  obtain ⟨hnd, hfr⟩ := h.ids_cons hids hnx
  exact h.take.account.done hdn rfl hnd hfr

/-- A call that would block joins the sleepers. -/
theorem Idle.sleep (h : Idle v s) (hid : q.id = s.nextId)
    (halt : q.alter = q.sops.any fun sop => sop.semOp ≠ 0) (hne : q.sops ≠ [])
    (hbl : Blocked (Sem.take s) q) : Idle v (enqueue (Sem.take s) q) := by
  have htk := h.take
  obtain ⟨hv, hadj, hcm, hnx⟩ := @enqueue_values (Sem.take s) q
  have hpr := @enqueue_perm (Sem.take s) q
  have hids : (ids (enqueue (Sem.take s) q)).Perm (s.nextId :: ids s) := by
    have hpn := (hpr.map SemQueue.id).append_left (s.completed.map fun c => c.1.id)
    rw [ids, hcm, ← hid]
    exact hpn.trans perm_middle
  obtain ⟨hnd, hfr⟩ := h.ids_cons hids hnx
  refine ⟨htk.queues.enqueue halt hne ?_ ?_, fun p hp => ?_, ?_, hnd, hfr⟩
  · exact fun ho => hbl.waits ho htk.queues.nonneg
  · rw [hid]
    exact fun hm => Nat.lt_irrefl _ (h.account.fresh _ (mem_append_right _ hm))
  · refine Blocked.congr ?_ hv hadj
    rcases mem_cons.1 (hpr.subset hp) with rfl | hm
    · exact hbl
    · exact htk.blocked p hm
  · rw [succeeded, hcm, hv]
    exact h.account.history

/-- **A call** ends, or sleeps, with the array in order. -/
theorem Idle.semtimedop (h : Idle v s) (rq : Request) :
    ∃ r, semtimedop s rq = some r ∧ Idle v r.2 := by
  by_cases hmin : rq.sops.length < 1
  · exact ⟨_, by rw [Sem.semtimedop, if_pos hmin], h⟩
  by_cases hm : semopm < rq.sops.length
  · exact ⟨_, by rw [Sem.semtimedop, if_neg hmin, if_pos hm], h⟩
  by_cases hnum : (rq.sops.any fun sop => s.semNsems ≤ sop.semNum) = true
  · exact ⟨_, by rw [Sem.semtimedop, if_neg hmin, if_neg hm, if_pos hnum], h⟩
  rw [semtimedop_eq hmin hm hnum rfl]
  have hid : (rq.queue s.nextId).id = s.nextId := rfl
  have halt : (rq.queue s.nextId).alter =
      (rq.queue s.nextId).sops.any fun sop => sop.semOp ≠ 0 := rfl
  have hsp : (rq.queue s.nextId).sops = rq.sops := rfl
  generalize rq.queue s.nextId = q at hid halt hsp
  have htk := h.take
  obtain ⟨hpn, -⟩ := @performed_queues (Sem.take s) q
  have hac := h.finish hid
  have hqs := htk.queues.finish q
  split
  · split
    · rename_i hdn
      obtain ⟨u, hu, hst, hbl⟩ := doSmartUpdate_spec htk.queues htk.blocked hdn.2
        hqs hpn rfl
      rw [← hsp, hu]
      exact ⟨_, rfl, hst.queues hqs, hbl, hac.steps hst hqs⟩
    rename_i hno
    have hkp : (performed (Sem.take s) q).semval = (Sem.take s).semval ∧
        (performed (Sem.take s) q).semadj = (Sem.take s).semadj := by
      by_cases hok : verdict (Sem.take s) q = 0
      · have hff : q.alter = false := Bool.not_eq_true _ ▸ fun ha => hno ⟨ha, hok⟩
        rw [halt, any_eq_false] at hff
        exact performed_of_not_alter fun sop hsop => by simpa using hff sop hsop
      · rw [performed_of_ne hok]
        exact ⟨rfl, rfl⟩
    refine ⟨_, rfl, hqs, fun p hp => ?_, hac⟩
    exact (htk.blocked p (hpn ▸ hp)).congr hkp.1 hkp.2
  · rename_i hps
    rw [Int.not_le] at hps
    rw [performed_of_ne (Int.ne_of_gt hps)]
    refine ⟨_, rfl, h.sleep hid halt ?_ (blocked_iff_pos.2 hps)⟩
    rw [hsp]
    exact ne_nil_of_length_pos (by omega)

/-- Calls, and sleepers that give up after a timeout or a signal. -/
inductive Run (s₀ : SemArray) : SemArray → Prop
  | start : Run s₀ s₀
  | call {s : SemArray} {rq : Request} {r : Option ℤ × SemArray} (h : Run s₀ s)
      (hcall : semtimedop s rq = some r) : Run s₀ r.2
  | interrupt {s : SemArray} (h : Run s₀ s) (id : ℕ) : Run s₀ (interrupt s id)

theorem Run.idle {s0 : SemArray} (h : Run s0 s) (hfr : Fresh s0) : Idle s0.semval s := by
  induction h with
  | start => exact hfr.idle
  | call _ hca ih =>
    obtain ⟨r, hr, hid⟩ := ih.semtimedop _
    rw [hca, Option.some.injEq] at hr
    rw [hr]
    exact hid
  | interrupt _ id ih => exact ih.interrupt id

/-- **No wake-up is lost.** Whenever the lock of the array is free, every operation that is pending
would block. The calls with the result 0 have performed their operations one after the other, each
call once: no call is among those that are done twice, or done and still pending. And every call
ends or sleeps: it meets no `BUG_ON`. -/
theorem run_sem {s₀ s : SemArray} (hfresh : Fresh s₀) (h : Run s₀ s) :
    (∀ q ∈ s.semPending, (tryAtomicSemop s q.sops q.undo q.pid).1 = 1) ∧
    History s₀.semval ((s.completed.filter fun c => c.2 = 0).map Prod.fst) s.semval ∧
    ((s.completed.map fun c => c.1.id) ++ s.semPending.map SemQueue.id).Nodup ∧
    ∀ rq, (semtimedop s rq).isSome := by
  have hidle := h.idle hfresh
  refine ⟨hidle.blocked, hidle.account.history, hidle.account.nodup, fun rq => ?_⟩
  obtain ⟨r, hr, -⟩ := hidle.semtimedop rq
  rw [hr]
  rfl

/-- One semaphore, with the value 0. -/
def oneSem : SemArray := ⟨1, fun _ => 0, fun _ => 0, fun _ _ => 0, [], fun _ => [], 0, [], 0⟩

/-- A process waits for the semaphore, and another one releases it. -/
theorem run_sem_release :
    ∃ s, Run oneSem s ∧ s.completed.map (fun c => (c.1.id, c.2)) = [(1, 0), (0, 0)] ∧
      ∀ q ∈ s.semPending, (tryAtomicSemop s q.sops q.undo q.pid).1 = 1 := by
  have hfresh : Fresh oneSem :=
    ⟨rfl, fun _ => rfl, rfl, rfl, fun _ => show 0 ≤ (0 : ℤ) ∧ 0 ≤ semvmx by decide⟩
  obtain ⟨r, hr, -⟩ := (Run.start.idle hfresh).semtimedop ⟨[⟨0, -1, true, false⟩], 0, 7⟩
  have hrun : Run oneSem r.2 := .call .start hr
  obtain ⟨r', hr', -⟩ := (hrun.idle hfresh).semtimedop ⟨[⟨0, 1, true, false⟩], 1, 8⟩
  have hrun' : Run oneSem r'.2 := .call hrun hr'
  refine ⟨r'.2, hrun', ?_, (run_sem hfresh hrun').1⟩
  have hboth : ((semtimedop oneSem ⟨[⟨0, -1, true, false⟩], 0, 7⟩).bind fun r =>
      (semtimedop r.2 ⟨[⟨0, 1, true, false⟩], 1, 8⟩).map fun r =>
        r.2.completed.map fun c => (c.1.id, c.2)) = some [(1, 0), (0, 0)] := by
    decide +kernel
  rw [hr, Option.bind_some, hr', Option.map_some, Option.some.injEq] at hboth
  exact hboth

end NestLinux.Sem
