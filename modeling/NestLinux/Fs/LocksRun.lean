import NestLinux.Fs.LocksPosix

/-!
# Runs of POSIX lock requests

A request that is granted found no conflicting lock, and changes what its owner holds on
its range only. So the locks of different owners never conflict, and the list keeps the
form that the pass relies on, whatever is requested and whichever allocations fail.
-/

namespace NestLinux.Locks

open Lib List FileLock

variable {s : LockState} {rq : Request} {r : FileLock} {P W Q T : List FileLock} {x y : FileLock}
  {newFl newFl2 : Option ℕ} {next : ℕ} {blocked : List Waiter}

/-- The form of the list, whatever the locks of different owners are: those of one owner are
together, in order, and apart. -/
structure ListInv (s : LockState) : Prop where
  valid : ∀ x ∈ s.iFlock, ValidLock x
  grouped : Grouped flOwner s.iFlock
  apart : s.iFlock.Pairwise fun x y => x.flOwner = y.flOwner → LocksApart x y
  nodup : (s.iFlock.map addr).Nodup
  fresh : ∀ x ∈ s.iFlock, x.addr < s.nextAddr

/-- The locks of an inode: those of different owners do not conflict. -/
structure LockInv (s : LockState) : Prop extends ListInv s where
  exclusive : ∀ x ∈ s.iFlock, ∀ y ∈ s.iFlock, x.flOwner ≠ y.flOwner → locksOverlap x y = true →
    x.flType = .rdlck ∧ y.flType = .rdlck

theorem lockInv_empty : LockInv .empty :=
  ⟨⟨nofun, grouped_nil, .nil, nodup_nil, nofun⟩, nofun⟩

theorem locksOverlap_iff : locksOverlap x y = true ↔ y.flStart ≤ x.flEnd ∧ x.flStart ≤ y.flEnd := by
  simp [locksOverlap]

/-- Two locks that overlap have a byte in common. -/
theorem exists_common (hx : x.flStart ≤ x.flEnd) (hy : y.flStart ≤ y.flEnd)
    (h : locksOverlap x y = true) :
    ∃ b, x.flStart ≤ b ∧ b ≤ x.flEnd ∧ y.flStart ≤ b ∧ b ≤ y.flEnd := by
  rw [locksOverlap_iff] at h
  exact ⟨max x.flStart y.flStart, by omega, by omega, by omega, by omega⟩

theorem posixLocksConflict_iff : posixLocksConflict x y = true ↔
      x.flOwner ≠ y.flOwner ∧ locksOverlap x y = true ∧
        (y.flType = .wrlck ∨ x.flType = .wrlck) := by
  rw [posixLocksConflict]
  by_cases ho : posixSameOwner x y = true
  · rw [if_pos ho]
    have : x.flOwner = y.flOwner := beq_iff_eq.1 ho
    simp [this]
  have hne : x.flOwner ≠ y.flOwner := fun h => ho (beq_iff_eq.2 h)
  cases hov : locksOverlap x y with
  | false => simp
  | true =>
    simp only [Bool.not_true, Bool.false_eq_true, if_false, locksConflict]
    split_ifs with h1 h2
    · simp [hne, h1]
    · simp [hne, h2]
    · simp [h1, h2]

/-! ### Calls -/

theorem ListInv.ownerLocks {o : ℕ} (h : ListInv s) (hli : s.iFlock = P ++ W ++ Q)
    (hW : ∀ x ∈ W, x.flOwner = o) : OwnerLocks o W := by
  refine ⟨hW, fun x hx => h.valid x (by simp [hli, hx]), ?_⟩
  have hsub : W.Sublist s.iFlock := by
    rw [hli, append_assoc]
    exact (sublist_append_left _ _).trans (sublist_append_right _ _)
  apply (h.apart.sublist hsub).imp_of_mem
  intro x y hx hy hxy
  exact hxy ((hW x hx).trans (hW y hy).symm)

/-- A request for a range of the file. -/
def Request.Valid (rq : Request) : Prop := 0 ≤ rq.start ∧ rq.start ≤ rq.last ∧ rq.last ≤ offsetMax

instance (rq : Request) : Decidable rq.Valid := inferInstanceAs (Decidable (_ ∧ _))

section Overwrite

variable (hli : s.iFlock = P ++ W ++ Q) (hW : OwnerLocks r.flOwner W)
  (hor : Overwritten newFl newFl2 r W T)
include hli hW hor

/-- The locks that the owner gets do not conflict with those of others. -/
theorem LockInv.exclusive_overwritten (h : LockInv s)
    (hfree : r.flType ≠ .unlck → ∀ y ∈ s.iFlock, posixLocksConflict r y = false)
    (hx : x ∈ T) (hy : y ∈ s.iFlock) (hother : y.flOwner ≠ r.flOwner)
    (hxy : locksOverlap x y = true) : x.flType = .rdlck ∧ y.flType = .rdlck := by
  have hyv := h.valid y hy
  obtain ⟨b, hb1, hb2, hb3, hb4⟩ := exists_common (hor.locks.valid x hx).le hyv.le hxy
  have hat : TypeAt T b x.flType := ⟨x, hx, hb1, hb2, rfl⟩
  rw [hor.bytes] at hat
  split_ifs at hat with hbr
  · -- the byte is in the range of the request
    have hheld : r.flType ≠ .unlck := hat.1 ▸ hat.2
    have hover : locksOverlap r y = true := locksOverlap_iff.2 ⟨by omega, by omega⟩
    have hno := hfree hheld y hy
    rw [← Bool.not_eq_true, posixLocksConflict_iff] at hno
    have hread : ¬ (y.flType = .wrlck ∨ r.flType = .wrlck) :=
      fun hw => hno ⟨hother.symm, hover, hw⟩
    have hyh := hyv.held
    rw [hat.1]
    constructor
    · cases hrt : r.flType <;> simp_all
    · cases hyt : y.flType <;> simp_all
  · -- the owner had the byte before
    obtain ⟨z, hz, hz1, hz2, hzt⟩ := hat
    have hzo : z.flOwner ≠ y.flOwner := hW.owner z hz ▸ hother.symm
    rw [← hzt]
    exact h.exclusive z (by simp [hli, hz]) y hy hzo (locksOverlap_iff.2 ⟨by omega, by omega⟩)

variable (hP : ∀ x ∈ P, x.flOwner ≠ r.flOwner) (hQ : ∀ x ∈ Q, x.flOwner ≠ r.flOwner)
  (hn : W = [] → Q = []) (hnew : FreshLocks newFl newFl2 s.iFlock)
  (hnx : ∀ a, newFl = some a ∨ newFl2 = some a → a < next) (hle : s.nextAddr ≤ next)
include hP hQ hn hnew hnx hle

/-- The owner's locks are exchanged for others. -/
theorem ListInv.overwrite (h : ListInv s) : ListInv ⟨P ++ T ++ Q, blocked, next⟩ := by
  obtain ⟨hvalid, hgrouped, hapart, hnodup, hfresh⟩ := h
  rw [hli] at hvalid hgrouped hapart hnodup hfresh hnew
  simp only [mem_append, or_imp, forall_and] at hvalid hfresh
  simp only [map_append, append_assoc, nodup_append, mem_append] at hnodup
  -- the addresses of the new list are old ones of the owner, or free ones
  have haddr : ∀ a ∈ T.map addr, a ∉ P.map addr ∧ a ∉ Q.map addr := by
    have hfirst := hnew.first
    have hsecond := hnew.second
    simp only [map_append, mem_append, not_or] at hfirst hsecond
    intro a ha
    rcases hor.addrs a ha with hw | hw | hw
    · exact ⟨fun hp => hnodup.2.2 a hp a (.inl hw) rfl, fun hq => hnodup.2.1.2.2 a hw a hq rfl⟩
    · exact ⟨(hfirst a hw).1.1, (hfirst a hw).2⟩
    · exact ⟨(hsecond a hw).1.1, (hsecond a hw).2⟩
  constructor
  case valid =>
    simp only [mem_append, or_imp, forall_and]
    exact ⟨⟨hvalid.1.1, hor.locks.valid⟩, hvalid.2⟩
  case grouped => exact hgrouped.replace hP hW.owner hQ hn hor.locks.owner
  case apart =>
    simp only [pairwise_append, mem_append] at hapart ⊢
    refine ⟨⟨hapart.1.1, ?_, fun x hx y hy heq => ?_⟩, hapart.2.1, ?_⟩
    · refine hor.locks.apart.imp ?_
      exact fun hxy _ => hxy
    · exact absurd (heq.trans (hor.locks.owner y hy)) (hP x hx)
    rintro x (hx | hx) y hy heq
    · exact hapart.2.2 x (.inl hx) y hy heq
    · exact absurd (heq.symm.trans (hor.locks.owner x hx)) (hQ y hy)
  case nodup =>
    simp only [map_append, append_assoc, nodup_append, mem_append]
    refine ⟨hnodup.1, ⟨hor.nodup, hnodup.2.1.2.1, ?_⟩, ?_⟩
    · rintro a ha b hb rfl
      exact (haddr a ha).2 hb
    rintro a ha b (hb | hb) rfl
    · exact (haddr a hb).1 ha
    · exact hnodup.2.2 a ha a (.inr hb) rfl
  case fresh =>
    simp only [mem_append, or_imp, forall_and]
    refine ⟨⟨fun x hx => (hfresh.1.1 x hx).trans_le hle, fun x hx => ?_⟩,
      fun x hx => (hfresh.2 x hx).trans_le hle⟩
    rcases hor.addrs x.addr (mem_map_of_mem hx) with hw | hw
    · obtain ⟨w, hw, heq⟩ := mem_map.1 hw
      exact heq ▸ (hfresh.1.2 w hw).trans_le hle
    · exact hnx _ hw

/-- **Granting a request** that no lock conflicts with. -/
theorem LockInv.overwrite (h : LockInv s)
    (hfree : r.flType ≠ .unlck → ∀ y ∈ s.iFlock, posixLocksConflict r y = false) :
    LockInv ⟨P ++ T ++ Q, blocked, next⟩ := by
  refine ⟨h.toListInv.overwrite hli hW hor hP hQ hn hnew hnx hle, fun x hx y hy hne hov => ?_⟩
  have hold : ∀ z ∈ P ++ T ++ Q, z ∉ T → z ∈ s.iFlock ∧ z.flOwner ≠ r.flOwner := by
    intro z hz hzT
    simp only [mem_append, hzT, or_false] at hz
    cases hz with
    | inl hz => exact ⟨by simp [hli, hz], hP z hz⟩
    | inr hz => exact ⟨by simp [hli, hz], hQ z hz⟩
  by_cases hxT : x ∈ T <;> by_cases hyT : y ∈ T
  · exact absurd ((hor.locks.owner x hxT).trans (hor.locks.owner y hyT).symm) hne
  · obtain ⟨hys, hyo⟩ := hold y hy hyT
    exact h.exclusive_overwritten hli hW hor hfree hxT hys hyo hov
  · obtain ⟨hxs, hxo⟩ := hold x hx hxT
    have hov' : locksOverlap y x = true := locksOverlap_iff.2 (locksOverlap_iff.1 hov).symm
    exact (h.exclusive_overwritten hli hW hor hfree hyT hxs hxo hov').symm
  · exact h.exclusive x (hold x hx hxT).1 y (hold y hy hyT).1 hne hov

end Overwrite

theorem LockInv.mono (h : LockInv s) (hle : s.nextAddr ≤ next) :
    LockInv ⟨s.iFlock, blocked, next⟩ :=
  ⟨⟨h.valid, h.grouped, h.apart, h.nodup, fun x hx => (h.fresh x hx).trans_le hle⟩, h.exclusive⟩

/-- The request as the pass sees it. -/
def Request.lock (rq : Request) (addr : ℕ) : FileLock :=
  ⟨addr, rq.owner, rq.type, rq.start, rq.last⟩

theorem ListInv.freshLocks (h : ListInv s) (hn : ∀ a, newFl = some a → a = s.nextAddr + 1)
    (hn2 : ∀ a, newFl2 = some a → a = s.nextAddr + 2) : FreshLocks newFl newFl2 s.iFlock := by
  constructor
  · intro a ha hm
    obtain ⟨x, hx, rfl⟩ := mem_map.1 hm
    have := h.fresh x hx
    have := hn _ ha
    omega
  · intro a ha hm
    obtain ⟨x, hx, rfl⟩ := mem_map.1 hm
    have := h.fresh x hx
    have := hn2 _ ha
    omega
  · intro a ha ha'
    have := hn _ ha
    have := hn2 _ ha'
    omega

/-- The locks of the owner, and those before and behind them; the pass starts at the owner's. -/
theorem ListInv.posixChange (h : ListInv s) (hrq : rq.Valid)
    (hfr : FreshLocks newFl newFl2 s.iFlock) :
    ∃ P W Q, s.iFlock = P ++ W ++ Q ∧ (∀ x ∈ P, x.flOwner ≠ rq.owner) ∧
      (∀ x ∈ Q, x.flOwner ≠ rq.owner) ∧ OwnerLocks rq.owner W ∧ (W = [] → Q = []) ∧
      ∃ res, res = posixPass rq.mustExist newFl newFl2 (W ++ Q)
          ⟨P, rq.lock s.nextAddr, false, none, none, s.blockedList⟩ ∧
        Outcome rq.mustExist newFl newFl2 (rq.lock s.nextAddr) P P W Q res ∧
        posixChange newFl newFl2 rq (rq.lock s.nextAddr) { s with nextAddr := s.nextAddr + 3 } =
          (res.1, ⟨res.2.1, res.2.2, s.nextAddr + 3⟩) := by
  obtain ⟨P, W, Q, hli, hP, hR, hPo, hWo, hQo, hn⟩ := h.grouped.exists_block rq.owner
  have hW := h.ownerLocks hli hWo
  have hra : (rq.lock s.nextAddr).addr ∉ (P ++ W ++ Q).map addr := by
    rw [← hli]
    intro hm
    obtain ⟨x, hx, heq⟩ := mem_map.1 hm
    have hlt := h.fresh x hx
    have heq' : x.addr = s.nextAddr := heq
    omega
  have ho := posixPass_spec rq.mustExist s.blockedList (r := rq.lock s.nextAddr) hrq.1 hrq.2.1
    hrq.2.2 ⟨hW, hQo, by simp, hli ▸ h.nodup, hli ▸ hfr⟩ hra
  refine ⟨P, W, Q, hli, hPo, hQo, hW, hn, _, rfl, ho, ?_⟩
  rw [← hP, ← hR]
  rfl

/-- **Merging a request into the list.** -/
theorem LockInv.posixChange (h : LockInv s) (hrq : rq.Valid)
    (hfe : rq.type ≠ .unlck → ∀ y ∈ s.iFlock, posixLocksConflict (rq.lock s.nextAddr) y = false)
    (hn : ∀ a, newFl = some a → a = s.nextAddr + 1)
    (hn2 : ∀ a, newFl2 = some a → a = s.nextAddr + 2) :
    LockInv (posixChange newFl newFl2 rq (rq.lock s.nextAddr)
      { s with nextAddr := s.nextAddr + 3 }).2 ∧
    ((Locks.posixChange newFl newFl2 rq (rq.lock s.nextAddr)
        { s with nextAddr := s.nextAddr + 3 }).1 ≠ 0 →
      (Locks.posixChange newFl newFl2 rq (rq.lock s.nextAddr)
        { s with nextAddr := s.nextAddr + 3 }).2.iFlock = s.iFlock) := by
  have hfr := h.freshLocks hn hn2
  obtain ⟨P, W, Q, hli, hPo, hQo, hW, hnl, res, -, ho, hchg⟩ :=
    h.toListInv.posixChange hrq hfr
  rw [hchg]
  cases ho with
  | noLock hr _ hr' =>
    rw [hr', ← hli]
    exact ⟨h.mono (Nat.le_add_right _ _), fun _ => rfl⟩
  | noEntry hr _ _ _ _ hr' =>
    rw [hr', ← hli]
    exact ⟨h.mono (Nat.le_add_right _ _), fun _ => rfl⟩
  | granted T hr hr' hov =>
    rw [hr']
    refine ⟨h.overwrite hli hW hov hPo hQo hnl hfr ?_ (Nat.le_add_right _ _) hfe,
      fun hne => absurd hr hne⟩
    rintro a (ha | ha)
    · have := hn a ha
      omega
    have := hn2 a ha
    omega

/-- **Every call** keeps the locks in order, and changes nothing unless it succeeds. -/
theorem LockInv.call (h : LockInv s) (hrq : rq.Valid) (alloc1 alloc2 : Bool) :
    LockInv (posixLockFile alloc1 alloc2 rq s).2.2 ∧ ((posixLockFile alloc1 alloc2 rq s).1 ≠ 0 →
        (posixLockFile alloc1 alloc2 rq s).2.2.iFlock = s.iFlock) := by
  have hsm : ∀ blocked, LockInv ⟨s.iFlock, blocked, s.nextAddr + 3⟩ :=
    fun _ => h.mono (Nat.le_add_right _ _)
  rw [posixLockFile]
  split
  · split_ifs
    · exact ⟨hsm _, fun _ => rfl⟩
    · exact ⟨hsm _, fun _ => rfl⟩
    · exact ⟨hsm _, fun _ => rfl⟩
  rename_i hcn
  by_cases hacc : rq.access = true
  · rw [if_pos hacc]
    exact ⟨hsm _, fun _ => rfl⟩
  rw [if_neg hacc]
  refine h.posixChange hrq (fun hty y hy => ?_) (fun a ha => ?_) fun a ha => ?_
  · rw [if_neg hty, find?_eq_none] at hcn
    exact Bool.not_eq_true _ ▸ hcn y hy
  · split_ifs at ha
    exact (Option.some.inj ha).symm
  split_ifs at ha
  exact (Option.some.inj ha).symm

/-- Any requests, and waiters that give up, from an inode without locks. -/
inductive LockRun : LockState → Prop
  | empty : LockRun .empty
  | call {s : LockState} (h : LockRun s) (alloc₁ alloc₂ : Bool) (rq : Request) (hrq : rq.Valid) :
      LockRun (posixLockFile alloc₁ alloc₂ rq s).2.2
  | giveUp {s : LockState} (h : LockRun s) (waiter : ℕ) : LockRun (locksDeleteBlock waiter s)

theorem LockRun.inv (h : LockRun s) : LockInv s := by
  induction h with
  | empty => exact lockInv_empty
  | call _ alloc1 alloc2 rq hrq ih => exact (ih.call hrq alloc1 alloc2).1
  | giveUp _ waiter ih => exact ih.mono le_rfl

/-- **POSIX locks exclude each other.** In every state of every run the locks that overlap and
belong to different owners are read locks, and the locks of each owner are together in the list, in
order of their starts, disjoint, and not adjacent if they are of one type; and a call that does not
return 0 leaves the locks as they are. -/
theorem posixLockFile_run (h : LockRun s) :
    (∀ x ∈ s.iFlock, ∀ y ∈ s.iFlock, x.flOwner ≠ y.flOwner → locksOverlap x y = true →
      x.flType = .rdlck ∧ y.flType = .rdlck) ∧
    Grouped flOwner s.iFlock ∧
    (∀ x ∈ s.iFlock, 0 ≤ x.flStart ∧ x.flStart ≤ x.flEnd ∧ x.flEnd ≤ offsetMax) ∧
    (s.iFlock.Pairwise fun x y => x.flOwner = y.flOwner →
      x.flEnd < y.flStart ∧ (x.flType = y.flType → x.flEnd + 1 < y.flStart)) ∧
    ∀ alloc₁ alloc₂ rq, rq.Valid → (posixLockFile alloc₁ alloc₂ rq s).1 ≠ 0 →
      (posixLockFile alloc₁ alloc₂ rq s).2.2.iFlock = s.iFlock := by
  have hinv := h.inv
  refine ⟨hinv.exclusive, hinv.grouped, fun x hx => ?_, hinv.apart, fun alloc₁ alloc₂ rq hrq =>
    (hinv.call hrq alloc₁ alloc₂).2⟩
  have hv := hinv.valid x hx
  exact ⟨hv.start_nonneg, hv.le, hv.end_le⟩

/-- A write lock that breaks a read lock in two. -/
theorem posixLockFile_run_split :
    LockRun (posixLockFile true true ⟨1, .wrlck, 4, 6, false, false, false⟩
      (posixLockFile true true ⟨1, .rdlck, 0, 9, false, false, false⟩ .empty).2.2).2.2 ∧
    ∀ x ∈ (posixLockFile true true ⟨1, .wrlck, 4, 6, false, false, false⟩
      (posixLockFile true true ⟨1, .rdlck, 0, 9, false, false, false⟩ .empty).2.2).2.2.iFlock,
      0 ≤ x.flStart ∧ x.flStart ≤ x.flEnd ∧ x.flEnd ≤ offsetMax := by
  have hrun := LockRun.call
    (LockRun.call .empty true true ⟨1, .rdlck, 0, 9, false, false, false⟩ (by decide))
    true true ⟨1, .wrlck, 4, 6, false, false, false⟩ (by decide)
  exact ⟨hrun, (posixLockFile_run hrun).2.2.1⟩

end NestLinux.Locks
