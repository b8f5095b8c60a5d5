import NestLinux.Fs.LocksRun

/-!
# The effect of one POSIX lock request

A request that no lock of another owner conflicts with, and for which the two spare locks are
there, overwrites the type its owner holds on the range. Nothing else changes. It fails in one
case only: an unlock, asked to find something, that finds nothing.
-/

namespace NestLinux.Locks

open List

variable {s : LockState} {rq : Request} {r x : FileLock} {L P Q T W : List FileLock} {c : Scan}
  {o : ℕ} {mustExist : Bool} {newFl newFl2 : Option ℕ} {blocked : List Waiter}

/-- The owner holds the type at the byte. -/
def HoldsAt (L : List FileLock) (owner : ℕ) (b : ℤ) (t : LockType) : Prop :=
  ∃ x ∈ L, x.flOwner = owner ∧ x.flStart ≤ b ∧ b ≤ x.flEnd ∧ x.flType = t

/-- The owner of the request holds nothing on its range. -/
def NothingHeld (rq : Request) (s : LockState) : Prop :=
  ∀ b t, rq.start ≤ b → b ≤ rq.last → ¬ HoldsAt s.iFlock rq.owner b t

section

variable (hP : ∀ x ∈ P, x.flOwner ≠ o) (hW : ∀ x ∈ W, x.flOwner = o) (hQ : ∀ x ∈ Q, x.flOwner ≠ o)

include hP hW hQ

/-- What an owner holds is said by the owner's locks. -/
theorem holdsAt_iff {b : ℤ} {t : LockType} : HoldsAt (P ++ W ++ Q) o b t ↔ TypeAt W b t := by
  constructor
  · rintro ⟨x, hx, ho, hat⟩
    rw [mem_append, mem_append] at hx
    rcases hx with (hx | hx) | hx
    · exact absurd ho (hP x hx)
    · exact ⟨x, hx, hat⟩
    · exact absurd ho (hQ x hx)
  · rintro ⟨x, hx, hat⟩
    exact ⟨x, by simp [hx], hW x hx, hat⟩

/-- The locks of the other owners are those around the owner's. -/
theorem filter_others : (P ++ W ++ Q).filter (fun x => x.flOwner ≠ o) = P ++ Q := by
  have ha {A : List FileLock} (hA : ∀ x ∈ A, x.flOwner ≠ o) :
      A.filter (fun x => x.flOwner ≠ o) = A :=
    filter_eq_self.2 fun x hx => decide_eq_true (hA x hx)
  have hno : W.filter (fun x => x.flOwner ≠ o) = [] :=
    filter_eq_nil_iff.2 fun x hx => by simp [hW x hx]
  rw [filter_append, filter_append, ha hP, ha hQ, hno, append_nil]

end

/-! ### Unlocking -/

/-- An unlock that finds nothing passes over the locks before it. -/
theorem processOwner_nothing (hty : c.request.flType = .unlck) (hL : ∀ x ∈ L, x.flType ≠ .unlck)
    (haw : ∀ x ∈ L, x.flOwner = c.request.flOwner →
      x.flEnd < c.request.flStart ∨ c.request.flEnd < x.flStart) :
    (processOwner L c).1 = { c with passed := (processOwner L c).1.passed } := by
  induction L generalizing c with
  | nil => rfl
  | cons x L ih =>
    rw [forall_mem_cons] at hL haw
    by_cases ho : x.flOwner = c.request.flOwner
    · have hne : c.request.flType ≠ x.flType := fun h => hL.1 (h ▸ hty)
      by_cases hlt : x.flEnd < c.request.flStart
      · rw [processOwner_skip ho rfl hlt (fun h => absurd h hne)]
        exact ih hty hL.2 haw.2
      rw [processOwner_break ho rfl (not_lt.1 hlt) ((haw.1 ho).resolve_left hlt)
        (fun h => absurd h hne)]
    · have hx : posixSameOwner c.request x = false :=
        beq_eq_false_iff_ne.2 fun h => ho h.symm
      rw [processOwner, hx]
      rfl

theorem posixPass_nothing (hty : r.flType = .unlck) (hL : ∀ x ∈ L, x.flType ≠ .unlck)
    (haw : ∀ x ∈ L, x.flOwner = r.flOwner → x.flEnd < r.flStart ∨ r.flEnd < x.flStart) :
    (posixPass mustExist newFl newFl2 L ⟨P, r, false, none, none, blocked⟩).1 =
      if mustExist then enoent else 0 := by
  rw [posixPass, processOwner_nothing hty hL haw, posixFinish, if_neg (by simp),
    if_pos ⟨rfl, hty⟩]

/-- A request up to the end of the file leaves nothing on its right. -/
theorem processOwner_right_none (hc : c.right = none) (he : c.request.flEnd = offsetMax)
    (hL : ∀ x ∈ L, x.flEnd ≤ offsetMax) : (processOwner L c).1.right = none ∧
      (processOwner L c).1.request.flType = c.request.flType := by
  induction L generalizing c with
  | nil => exact ⟨hc, rfl⟩
  | cons x L ih =>
    rw [forall_mem_cons] at hL
    have hnx {c' : Scan} (hrt : c'.right = none) (hla : c'.request.flEnd = offsetMax)
        (hty : c'.request.flType = c.request.flType) :
        (processOwner L c').1.right = none ∧
          (processOwner L c').1.request.flType = c.request.flType :=
      hty ▸ ih hrt hla hL.2
    by_cases ho : x.flOwner = c.request.flOwner
    · have hle : ¬ c.request.flEnd < x.flEnd := by
        omega
      have hm : (if x.flEnd < c.request.flEnd then c.request.flEnd else x.flEnd) = offsetMax := by
        split <;> omega
      rw [processOwner_cons ho rfl]
      by_cases hty : c.request.flType = x.flType
      · rw [if_pos hty]
        split
        · exact hnx hc he rfl
        split
        · exact ⟨hc, rfl⟩
        dsimp only
        split
        · exact hnx hc ((if_neg hle).trans he) rfl
        · exact hnx hc hm hty.symm
      · rw [if_neg hty]
        split
        · exact hnx hc he rfl
        split
        · exact ⟨hc, rfl⟩
        dsimp only
        split_ifs
        all_goals exact hnx hc he rfl
    · have hx : posixSameOwner c.request x = false :=
        beq_eq_false_iff_ne.2 fun h => ho h.symm
      rw [processOwner, hx]
      exact ⟨hc, rfl⟩

/-- An unlock of the whole file needs no spare lock. -/
theorem posixPass_whole (hty : r.flType = .unlck) (he : r.flEnd = offsetMax)
    (hL : ∀ x ∈ L, x.flEnd ≤ offsetMax) :
    (posixPass mustExist newFl newFl2 L ⟨P, r, false, none, none, blocked⟩).1 ≠ enolck := by
  obtain ⟨hrt, hsm⟩ :=
    @processOwner_right_none L ⟨P, r, false, none, none, blocked⟩ rfl he hL
  rw [posixPass, posixFinish, hrt, if_neg (by simp), hsm, hty]
  split
  · split
    · exact show enoent ≠ enolck by decide
    · exact show (0 : ℤ) ≠ enolck by decide
  rename_i ha
  rw [if_neg fun h => ha ⟨h.1, rfl⟩]
  exact show (0 : ℤ) ≠ enolck by decide

/-! ### The call -/

theorem posixLockFile_granted {alloc1 alloc2 : Bool} (hacc : rq.access = false)
    (hfe : rq.type ≠ .unlck → ∀ y ∈ s.iFlock, posixLocksConflict (rq.lock s.nextAddr) y = false) :
    posixLockFile alloc1 alloc2 rq s =
      let res := posixChange (if needsLocks rq && alloc1 then some (s.nextAddr + 1) else none)
        (if needsLocks rq && alloc2 then some (s.nextAddr + 2) else none) rq (rq.lock s.nextAddr)
        { s with nextAddr := s.nextAddr + 3 }
      (res.1, none, res.2) := by
  have hcn : (if rq.type = .unlck then none
      else s.iFlock.find? fun fl => posixLocksConflict (rq.lock s.nextAddr) fl) = none := by
    split
    · rfl
    rename_i hty
    exact find?_eq_none.2 fun y hy => by simp [hfe hty y hy]
  simp only [Request.lock] at hcn ⊢
  simp [posixLockFile, hcn, hacc]

/-- **The effect of a request** that no lock of another owner conflicts with, with both spare
locks: it fails only if it is an unlock that must find something and does not; the owner's type is
the requested one on the range and what it was elsewhere; the locks of the others are the same. -/
theorem posixLockFile_effect {s : LockState} {rq : Request} (h : ListInv s) (hrq : rq.Valid)
    (haccess : rq.access = false)
    (hfree : rq.type ≠ .unlck → ∀ y ∈ s.iFlock, posixLocksConflict (rq.lock s.nextAddr) y = false) :
    ((rq.type = .unlck ∧ rq.mustExist = true ∧ NothingHeld rq s →
        (posixLockFile true true rq s).1 = enoent) ∧
      (¬ (rq.type = .unlck ∧ rq.mustExist = true ∧ NothingHeld rq s) →
        (posixLockFile true true rq s).1 = 0)) ∧
    (∀ b t, HoldsAt (posixLockFile true true rq s).2.2.iFlock rq.owner b t ↔
      if rq.start ≤ b ∧ b ≤ rq.last then t = rq.type ∧ t ≠ .unlck
      else HoldsAt s.iFlock rq.owner b t) ∧
    (posixLockFile true true rq s).2.2.iFlock.filter (fun x => x.flOwner ≠ rq.owner) =
      s.iFlock.filter (fun x => x.flOwner ≠ rq.owner) := by
  rw [posixLockFile_granted haccess hfree]
  simp only [Bool.and_true]
  set newFl := if needsLocks rq then some (s.nextAddr + 1) else none with hnewFl
  set newFl2 := if needsLocks rq then some (s.nextAddr + 2) else none with hnewFl2
  have hfresh : FreshLocks newFl newFl2 s.iFlock := by
    refine h.freshLocks (fun a ha => ?_) fun a ha => ?_
    · rw [hnewFl] at ha
      split_ifs at ha
      exact (Option.some.inj ha).symm
    rw [hnewFl2] at ha
    split_ifs at ha
    exact (Option.some.inj ha).symm
  obtain ⟨P, W, Q, hlist, hP, hQ, hW, -, res, hres, hout, hchange⟩ := h.posixChange hrq hfresh
  rw [hchange]
  have hheld (b : ℤ) (t : LockType) : HoldsAt s.iFlock rq.owner b t ↔ TypeAt W b t := by
    rw [hlist]
    exact holdsAt_iff hP hW.owner hQ
  cases hout with
  | noLock hno hnew _ =>
    -- without spare locks the request is an unlock of the whole file
    exfalso
    have hneeds : needsLocks rq = false := by
      by_contra hneeds
      rw [Bool.not_eq_false] at hneeds
      rw [hnewFl, hnewFl2, if_pos hneeds, if_pos hneeds] at hnew
      simp at hnew
    simp only [needsLocks, haccess, Bool.not_false, Bool.true_and, Bool.or_eq_false_iff,
      decide_eq_false_iff_not, not_not] at hneeds
    refine posixPass_whole hneeds.1.1 hneeds.2 (fun x hx => ?_) (hres ▸ hno)
    refine (h.valid x ?_).end_le
    rw [hlist, append_assoc]
    exact mem_append_right _ hx
  | noEntry hno hexist htype hnone _ hlist' =>
    have hnothing : NothingHeld rq s := by
      intro b t hlo hhi
      rw [hheld]
      exact hnone b t hlo hhi
    refine ⟨⟨fun _ => hno, fun hnot => absurd ⟨htype, hexist, hnothing⟩ hnot⟩, fun b t => ?_, ?_⟩
    · rw [hlist', ← hlist]
      split
      · rename_i hb
        exact ⟨fun hat => absurd hat (hnothing b t hb.1 hb.2),
          fun ht => absurd (ht.1.trans htype) ht.2⟩
      · rfl
    · rw [hlist', hlist]
  | granted T hok hlist' hover =>
    refine ⟨⟨fun hnot => ?_, fun _ => hok⟩, fun b t => ?_, ?_⟩
    · rw [hres, posixPass_nothing hnot.1, if_pos hnot.2.1]
      · intro x hx
        refine (h.valid x ?_).held
        rw [hlist, append_assoc]
        exact mem_append_right _ hx
      intro x hx howner
      have hmem : x ∈ s.iFlock := by
        rw [hlist, append_assoc]
        exact mem_append_right _ hx
      have hle := (h.valid x hmem).le
      have hrle := hrq.2.1
      by_contra hover
      rw [not_or, not_lt, not_lt] at hover
      have hover : rq.start ≤ x.flEnd ∧ x.flStart ≤ rq.last := hover
      exact hnot.2.2 (max rq.start x.flStart) x.flType (by omega) (by omega)
        ⟨x, hmem, howner, by omega, by omega, rfl⟩
    · rw [hlist', holdsAt_iff hP hover.locks.owner hQ, hover.bytes, hheld]
      rfl
    · rw [hlist', hlist, filter_others hP hover.locks.owner hQ, filter_others hP hW.owner hQ]

/-- A write lock inside a read lock of the owner. -/
theorem posixLockFile_effect_split :
    HoldsAt (posixLockFile true true ⟨1, .wrlck, 4, 6, false, false, false⟩
        (posixLockFile true true ⟨1, .rdlck, 0, 9, false, false, false⟩ .empty).2.2).2.2.iFlock 1 =
      fun b t => if 4 ≤ b ∧ b ≤ 6 then t = .wrlck ∧ t ≠ .unlck
        else HoldsAt
          (posixLockFile true true ⟨1, .rdlck, 0, 9, false, false, false⟩ .empty).2.2.iFlock
            1 b t := by
  have hrun := LockRun.call .empty true true ⟨1, .rdlck, 0, 9, false, false, false⟩ (by decide)
  have heffect := @posixLockFile_effect _ ⟨1, .wrlck, 4, 6, false, false, false⟩ hrun.inv.toListInv
    (by decide) rfl (by decide)
  exact funext fun b => funext fun t => propext (heffect.2.1 b t)

/-! ### Closing the file -/

def closeRequest (owner : ℕ) : Request := ⟨owner, .unlck, 0, offsetMax, false, false, false⟩

def locksRemovePosix (alloc1 alloc2 : Bool) (owner : ℕ) (s : LockState) : LockState :=
  if s.iFlock = [] then s else (posixLockFile alloc1 alloc2 (closeRequest owner) s).2.2

/-- **A close removes the locks of the owner**, and no others, even if no memory is left. -/
theorem locksRemovePosix_run (h : LockRun s) (alloc1 alloc2 : Bool) (owner : ℕ) :
    (locksRemovePosix alloc1 alloc2 owner s).iFlock = s.iFlock.filter (·.flOwner ≠ owner) := by
  rw [locksRemovePosix]
  split_ifs with hnil
  · rw [hnil, filter_nil]
  rw [posixLockFile_granted rfl (absurd rfl)]
  have hrq : (closeRequest owner).Valid := ⟨le_rfl, show 0 ≤ offsetMax by decide, le_rfl⟩
  obtain ⟨P, W, Q, hlist, hP, hQ, hW, -, res, hres, hout, hchange⟩ :=
    h.inv.toListInv.posixChange hrq (⟨nofun, nofun, nofun⟩ : FreshLocks none none _)
  -- the whole file is unlocked without spare locks
  change (posixChange none none (closeRequest owner) _ _).2.iFlock = _
  rw [hchange]
  cases hout with
  | noLock hno =>
    refine absurd (hres ▸ hno) (posixPass_whole rfl rfl fun x hx => ?_)
    refine (h.inv.valid x ?_).end_le
    rw [hlist, append_assoc]
    exact mem_append_right _ hx
  | noEntry _ hexist => cases hexist
  | granted T _ hlist' hover =>
    have hT : T = [] := eq_nil_iff_forall_not_mem.2 fun x hx => by
      have hv := hover.locks.valid x hx
      have hat := (hover.bytes x.flStart x.flType).1 ⟨x, hx, le_rfl, hv.le, rfl⟩
      rw [if_pos ⟨hv.start_nonneg, hv.le.trans hv.end_le⟩] at hat
      exact hat.2 hat.1
    rw [hlist', hT, append_nil, hlist]
    exact (filter_others hP hW.owner hQ).symm

/-- Two owners have read locks, and one of them closes the file. -/
theorem locksRemovePosix_run_twoOwners :
    (locksRemovePosix false false 1 (posixLockFile true true ⟨2, .rdlck, 5, 14, false, false, false⟩
      (posixLockFile true true ⟨1, .rdlck, 0, 9, false, false, false⟩ .empty).2.2).2.2).iFlock =
    [⟨4, 2, .rdlck, 5, 14⟩] :=
  locksRemovePosix_run (.call (.call .empty _ _ _ (by decide)) _ _ _ (by decide)) _ _ _

end NestLinux.Locks
