import Mathlib.Data.Int.Basic

/-!
# System V semaphores

`ipc/sem.c`: `semtimedop` performs some operations on the semaphores of an array, all or none of
them, or sleeps on the array's queue until another call makes them possible.

A sleeper is known by a number, in the place of the address of its `struct sem_queue`. The list
of those that are done, with their results, is not in the source: it holds what the callers get
to know. There is no result where the source stops at a `BUG_ON`.
-/

namespace NestLinux.Sem

open Function

def semvmx : ℤ := 32767

def semaem : ℤ := semvmx

def semopm : ℕ := 32

/-- `-EINVAL`. -/
def einval : ℤ := -22

/-- `-E2BIG`. -/
def e2big : ℤ := -7

/-- `-EFBIG`. -/
def efbig : ℤ := -27

/-- `-EAGAIN`. -/
def eagain : ℤ := -11

/-- `-ERANGE`. -/
def erange : ℤ := -34

/-- `struct sembuf`, with the two flags. -/
structure Sembuf where
  semNum : ℕ
  semOp : ℤ
  semUndo : Bool
  ipcNowait : Bool
  deriving DecidableEq, Repr

/-- `struct sem_queue`. -/
structure SemQueue where
  id : ℕ
  sops : List Sembuf
  /-- The undo structure of the caller. -/
  undo : ℕ
  pid : ℤ
  alter : Bool
  deriving DecidableEq, Repr

/-- `sops[0]`. -/
def SemQueue.first (q : SemQueue) : Sembuf := q.sops.headD ⟨0, 0, false, false⟩

/-- `struct sem_array`, and the undo structures. -/
structure SemArray where
  semNsems : ℕ
  semval : ℕ → ℤ
  sempid : ℕ → ℤ
  /-- The adjustments of each undo structure, of type `short`. -/
  semadj : ℕ → ℕ → BitVec 16
  semPending : List SemQueue
  /-- `sem_pending` of each semaphore. -/
  simplePending : ℕ → List SemQueue
  complexCount : ℤ
  /-- The operations that are done, with their results. -/
  completed : List (SemQueue × ℤ)
  nextId : ℕ

/-! ### Operations -/

/-- The result of an operation that would block. -/
def wouldBlock (sop : Sembuf) : ℤ := if sop.ipcNowait then eagain else 1

/-- The first loop of `try_atomic_semop`: the result, the operations performed, the last one
first, and the values. -/
def tryOps (semadj : ℕ → BitVec 16) : List Sembuf → List Sembuf → (ℕ → ℤ) →
    ℤ × List Sembuf × (ℕ → ℤ)
  | [], done, semval => (0, done, semval)
  | sop :: sops, done, semval =>
    if sop.semOp = 0 ∧ semval sop.semNum ≠ 0 then (wouldBlock sop, done, semval)
    else
      let result := semval sop.semNum + sop.semOp
      let undo := (semadj sop.semNum).toInt - sop.semOp
      if result < 0 then (wouldBlock sop, done, semval)
      else if semvmx < result then (erange, done, semval)
      else if sop.semUndo = true ∧ (undo < -semaem - 1 ∨ semaem < undo) then (erange, done, semval)
      else tryOps semadj sops (sop :: done) (update semval sop.semNum result)

/-- The loop at `undo`, backwards. -/
def undoOps (done : List Sembuf) (semval : ℕ → ℤ) : ℕ → ℤ :=
  done.foldl (fun v sop => update v sop.semNum (v sop.semNum - sop.semOp)) semval

/-- The adjustments for the operations. -/
def adjustOps (done : List Sembuf) (semadj : ℕ → BitVec 16) : ℕ → BitVec 16 :=
  done.foldl (fun a sop =>
    if sop.semUndo then update a sop.semNum (a sop.semNum - BitVec.ofInt 16 sop.semOp)
    else a) semadj

/-- The process of the last operation on each semaphore. -/
def pidOps (pid : ℤ) (done : List Sembuf) (sempid : ℕ → ℤ) : ℕ → ℤ :=
  done.foldl (fun p sop => update p sop.semNum pid) sempid

variable (s : SemArray)

def tryAtomicSemop (sops : List Sembuf) (un : ℕ) (pid : ℤ) : ℤ × SemArray :=
  let (result, done, semval) := tryOps (s.semadj un) sops [] s.semval
  if result = 0 then
    (0, { s with
        semval := semval
        sempid := pidOps pid done s.sempid
        semadj := update s.semadj un (adjustOps done (s.semadj un)) })
  else (result, { s with semval := undoOps done semval })

/-! ### The queue -/

def unlinkQueue (q : SemQueue) : SemArray :=
  let s := { s with semPending := s.semPending.filter fun p => p.id ≠ q.id }
  if q.sops.length = 1 then
    { s with simplePending := fun n => (s.simplePending n).filter fun p => p.id ≠ q.id }
  else { s with complexCount := s.complexCount - 1 }

def wakeUpSemQueuePrepare (q : SemQueue) (error : ℤ) : SemArray :=
  { s with completed := s.completed ++ [(q, error)] }

def checkRestart (q : SemQueue) : Option Bool :=
  if q.alter = false then some false
  else if s.complexCount ≠ 0 then some true
  else if 1 < q.sops.length then some true
  else
    match s.simplePending q.first.semNum with
    | [] => some false
    | h :: _ =>
      if s.semval q.first.semNum ≠ 0 then
        -- BUG_ON(q->sops[0].sem_op >= 0)
        if 0 ≤ q.first.semOp then none else some false
      else if h.sops.length ≠ 1 ∨ h.first.semNum ≠ q.first.semNum then none
      else if h.first.semOp = 0 then some true
      else some false

/-- The list that `update_queue` walks: `sem_pending` of the array, or of one semaphore. -/
def pendingList : Option ℕ → List SemQueue
  | none => s.semPending
  | some n => s.simplePending n

/-- One walk, from the label `again` on; the first part of the result says whether to go back
to it. -/
def walkQueue (semnum : Option ℕ) : List SemQueue → SemArray → Option (Bool × SemArray)
  | [], s => some (false, s)
  | q :: walk, s =>
    if (semnum.map s.semval = some 0) ∧ q.alter = true then some (false, s)
    else
      let (error, s) := tryAtomicSemop s q.sops q.undo q.pid
      if 0 < error then walkQueue semnum walk s
      else
        let s := unlinkQueue s q
        (if error ≠ 0 then some false else checkRestart s q).bind fun restart =>
          let s := wakeUpSemQueuePrepare s q error
          if restart then some (true, s) else walkQueue semnum walk s

/-- Walks until there is no restart. -/
def updateLoop (semnum : Option ℕ) : ℕ → SemArray → Option SemArray
  | 0, _ => none
  | fuel + 1, s =>
    (walkQueue semnum (pendingList s semnum) s).bind fun r =>
      if r.1 then updateLoop semnum fuel r.2 else some r.2

/-- `update_queue`; a restart follows the end of a sleeper. -/
def updateQueue (semnum : Option ℕ) : Option SemArray :=
  let semnum := if s.complexCount ≠ 0 then none else semnum
  updateLoop semnum (s.semPending.length + 1) s

/-- The loop of `do_smart_update`. -/
def smartLoop : List Sembuf → SemArray → Option SemArray
  | [], s => some s
  | sop :: sops, s =>
    if 0 < sop.semOp ∨ (sop.semOp < 0 ∧ s.semval sop.semNum = 0) then
      (updateQueue s (some sop.semNum)).bind (smartLoop sops)
    else smartLoop sops s

def doSmartUpdate (sops : List Sembuf) : Option SemArray :=
  if s.complexCount ≠ 0 then updateQueue s none else smartLoop sops s

/-! ### Calls -/

structure Request where
  sops : List Sembuf
  undo : ℕ
  pid : ℤ
  deriving DecidableEq, Repr

def enqueue (q : SemQueue) : SemArray :=
  let s :=
    { s with semPending := if q.alter then s.semPending ++ [q] else q :: s.semPending }
  if q.sops.length = 1 then
    let n := q.first.semNum
    { s with
      simplePending := update s.simplePending n
        (if q.alter then s.simplePending n ++ [q] else q :: s.simplePending n) }
  else { s with complexCount := s.complexCount + 1 }

def Request.queue (rq : Request) (id : ℕ) : SemQueue :=
  ⟨id, rq.sops, rq.undo, rq.pid, rq.sops.any fun sop => sop.semOp ≠ 0⟩

/-- `semtimedop`, up to the release of the lock: the result, if the call does not sleep. -/
def semtimedop (rq : Request) : Option (Option ℤ × SemArray) :=
  if rq.sops.length < 1 then some (some einval, s)
  else if semopm < rq.sops.length then some (some e2big, s)
  else if rq.sops.any fun sop => s.semNsems ≤ sop.semNum then some (some efbig, s)
  else
    let q := rq.queue s.nextId
    let s := { s with nextId := s.nextId + 1 }
    let (error, s) := tryAtomicSemop s rq.sops rq.undo rq.pid
    if error ≤ 0 then
      let s := { s with completed := s.completed ++ [(q, error)] }
      if q.alter = true ∧ error = 0 then (doSmartUpdate s rq.sops).map fun s => (some error, s)
      else some (some error, s)
    else some (none, enqueue s q)

/-- The rest of `semtimedop` for a sleeper that no one has woken, after a timeout or a signal. -/
def interrupt (id : ℕ) : SemArray :=
  match s.semPending.find? fun q => q.id = id with
  | none => s
  | some q => unlinkQueue s q

end NestLinux.Sem
