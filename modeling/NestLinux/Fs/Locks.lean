import Mathlib.Algebra.Order.Ring.Int

/-!
# POSIX record locks

`__posix_lock_file` of `fs/locks.c`: the locks of an inode are in one list, and a request is
merged into it in one pass.

A lock is known by its address. The pass changes the locks of the list through pointers,
and its own request pointer comes to point into the list, so what it writes through the
one is read through the other (`Scan.setRequest`). The locks are those of `FL_POSIX`
without a lock manager, so owners are compared as they are.
-/

namespace NestLinux.Locks

/-- `fl_type`. -/
inductive LockType
  | rdlck
  | wrlck
  | unlck
  deriving DecidableEq, Repr

def offsetMax : ℤ := 2 ^ 63 - 1

/-- `-EAGAIN`. -/
def eagain : ℤ := -11

/-- `-EDEADLK`. -/
def edeadlk : ℤ := -35

/-- `-ENOLCK`. -/
def enolck : ℤ := -37

/-- `-ENOENT`. -/
def enoent : ℤ := -2

def fileLockDeferred : ℤ := 1

/-- `struct file_lock`, and its address. -/
structure FileLock where
  addr : ℕ
  flOwner : ℕ
  flType : LockType
  flStart : ℤ
  flEnd : ℤ
  deriving DecidableEq, Repr

structure Request where
  owner : ℕ
  type : LockType
  start : ℤ
  last : ℤ
  /-- `FL_ACCESS`: only look for a conflict. -/
  access : Bool
  /-- `FL_SLEEP`. -/
  sleep : Bool
  /-- `FL_EXISTS`. -/
  mustExist : Bool
  deriving DecidableEq, Repr

/-- A request on `blocked_list`, and the lock its `fl_next` points to. -/
structure Waiter where
  request : FileLock
  blocker : FileLock
  deriving DecidableEq, Repr

/-- The locks of an inode, and the requests that wait. -/
structure LockState where
  iFlock : List FileLock
  blockedList : List Waiter
  /-- The addresses from here on are free. -/
  nextAddr : ℕ

def LockState.empty : LockState := ⟨[], [], 0⟩

/-! ### Conflicts -/

def locksOverlap (fl1 fl2 : FileLock) : Bool :=
  decide (fl2.flStart ≤ fl1.flEnd) && decide (fl1.flStart ≤ fl2.flEnd)

def posixSameOwner (fl1 fl2 : FileLock) : Bool := fl1.flOwner == fl2.flOwner

def locksConflict (callerFl sysFl : FileLock) : Bool :=
  if sysFl.flType = .wrlck then true
  else if callerFl.flType = .wrlck then true
  else false

def posixLocksConflict (callerFl sysFl : FileLock) : Bool :=
  if posixSameOwner callerFl sysFl then false
  else if !locksOverlap callerFl sysFl then false
  else locksConflict callerFl sysFl

variable (blockedList : List Waiter)

def whatOwnerIsWaitingFor (blockFl : FileLock) : Option FileLock :=
  (blockedList.find? fun w => posixSameOwner w.request blockFl).map Waiter.blocker

def maxDeadlkIterations : ℕ := 10

/-- The loop of `posix_locks_deadlock`, for a number of iterations. -/
def deadlockLoop (blockedList : List Waiter) (callerFl : FileLock) : ℕ → FileLock → Bool
  | 0, _ => false
  | n + 1, blockFl =>
    match whatOwnerIsWaitingFor blockedList blockFl with
    | none => false
    | some blockFl =>
      if posixSameOwner callerFl blockFl then true
      else deadlockLoop blockedList callerFl n blockFl

def posixLocksDeadlock (callerFl blockFl : FileLock) : Bool :=
  deadlockLoop blockedList callerFl (maxDeadlkIterations + 1) blockFl

def locksInsertBlock (blocker waiter : FileLock) : List Waiter :=
  ⟨waiter, blocker⟩ :: blockedList

/-- `locks_wake_up_blocks`: no request waits for the lock any more. -/
def locksWakeUpBlocks (blocker : ℕ) : List Waiter :=
  blockedList.filter fun w => w.blocker.addr ≠ blocker

/-- `locks_delete_block`: a waiter gives up. -/
def locksDeleteBlock (waiter : ℕ) (s : LockState) : LockState :=
  { s with blockedList := s.blockedList.filter fun w => w.request.addr ≠ waiter }

/-! ### The pass over the owner's locks -/

/-- Writes to the lock at an address. -/
def setLock (addr : ℕ) (f : FileLock → FileLock) (L : List FileLock) : List FileLock :=
  L.map fun fl => if fl.addr = addr then f fl else fl

structure Scan where
  /-- The locks before `before`. -/
  passed : List FileLock
  /-- What `request` points to. -/
  request : FileLock
  added : Bool
  left : Option ℕ
  right : Option ℕ
  blockedList : List Waiter

/-- Writes through `request`, which may point into the list. -/
def Scan.setRequest (s : Scan) (f : FileLock → FileLock) : Scan :=
  { s with request := f s.request, passed := setLock s.request.addr f s.passed }

/-- Moves `before` past a lock. -/
def Scan.pass (s : Scan) (fl : FileLock) : Scan := { s with passed := s.passed ++ [fl] }

/-- A range widened to the lower start and the higher end. -/
def FileLock.widen (fl : FileLock) (start last : ℤ) : FileLock :=
  { fl with
    flStart := if start < fl.flStart then start else fl.flStart
    flEnd := if fl.flEnd < last then last else fl.flEnd }

/-- The locks of the owner, up to the one that is entirely behind the request; the rest of the list
is returned with the variables. -/
def processOwner : List FileLock → Scan → Scan × List FileLock
  | [], s => (s, [])
  | fl :: rest, s =>
    if !posixSameOwner s.request fl then (s, fl :: rest)
    else if s.request.flType = fl.flType then
      if fl.flEnd < s.request.flStart - 1 then processOwner rest (s.pass fl)
      else if s.request.flEnd < fl.flStart - 1 then (s, fl :: rest)
      else
        -- both get the lower start and the higher end
        let fl' := fl.widen s.request.flStart s.request.flEnd
        let s := s.setRequest fun r => r.widen fl.flStart fl.flEnd
        if s.added then
          processOwner rest { s with blockedList := locksWakeUpBlocks s.blockedList fl.addr }
        else processOwner rest { s.pass fl' with request := fl', added := true }
    else if fl.flEnd < s.request.flStart then processOwner rest (s.pass fl)
    else if s.request.flEnd < fl.flStart then (s, fl :: rest)
    else
      let s : Scan :=
        { s with
          added := if s.request.flType = .unlck then true else s.added
          left := if fl.flStart < s.request.flStart then some fl.addr else s.left }
      if s.request.flEnd < fl.flEnd then ({ s with right := some fl.addr }, fl :: rest)
      else if s.request.flStart ≤ fl.flStart then
        let s := { s with blockedList := locksWakeUpBlocks s.blockedList fl.addr }
        if s.added then processOwner rest s
        else
          let fl' := { s.request with addr := fl.addr, flOwner := fl.flOwner }
          processOwner rest { s.pass fl' with request := fl', added := true }
      else processOwner rest (s.pass fl)

/-! ### Inserting and trimming -/

/-- The end of the lock on the left. -/
def trimLeft (left : Option ℕ) (request : FileLock) (L : List FileLock)
    (blockedList : List Waiter) :
    List FileLock × List Waiter :=
  match left with
  | none => (L, blockedList)
  | some l =>
    (setLock l ({ · with flEnd := request.flStart - 1 }) L, locksWakeUpBlocks blockedList l)

/-- The new lock and the trimmed ones; `rest` is the list from `before` on. -/
def posixTrim (newFl newFl2 : ℕ) (s : Scan) (rest : List FileLock) : List FileLock × List Waiter :=
  let rest := if s.added then rest else { s.request with addr := newFl } :: rest
  match s.right with
  | none => trimLeft s.left s.request (s.passed ++ rest) s.blockedList
  | some r =>
    let split := s.left = some r
    -- the new lock breaks the old one in two pieces
    let copy := (rest.find? fun fl => fl.addr = r).map ({ · with addr := newFl2 })
    let rest := if split then copy.toList ++ rest else rest
    let left := if split then some newFl2 else s.left
    let L := setLock r ({ · with flStart := s.request.flEnd + 1 }) (s.passed ++ rest)
    trimLeft left s.request L (locksWakeUpBlocks s.blockedList r)

def posixFinish (mustExist : Bool) (newFl newFl2 : Option ℕ) (s : Scan) (rest : List FileLock) :
    ℤ × List FileLock × List Waiter :=
  if s.right.isSome = true ∧ s.left = s.right ∧ newFl2 = none then
    (enolck, s.passed ++ rest, s.blockedList)
  else if s.added = false ∧ s.request.flType = .unlck then
    (if mustExist then enoent else 0, s.passed ++ rest, s.blockedList)
  else if s.added = false ∧ newFl = none then
    (enolck, s.passed ++ rest, s.blockedList)
  else (0, posixTrim (newFl.getD 0) (newFl2.getD 0) s rest)

/-! ### The call -/

/-- Whether `__posix_lock_file` allocates two locks in advance. -/
def needsLocks (rq : Request) : Bool :=
  !rq.access && (decide (rq.type ≠ .unlck) || decide (rq.start ≠ 0) || decide (rq.last ≠ offsetMax))

/-- The owner's locks are found, and the request is merged into them. -/
def posixChange (newFl newFl2 : Option ℕ) (rq : Request) (request : FileLock) (s : LockState) :
    ℤ × LockState :=
  let skipped := s.iFlock.takeWhile fun fl => !posixSameOwner request fl
  let rest := s.iFlock.dropWhile fun fl => !posixSameOwner request fl
  let (scan, rest) := processOwner rest ⟨skipped, request, false, none, none, s.blockedList⟩
  let (error, iFlock, blockedList) := posixFinish rq.mustExist newFl newFl2 scan rest
  (error, ⟨iFlock, blockedList, s.nextAddr⟩)

/-- `__posix_lock_file`: the result, the copy of a conflicting lock, and the locks. The allocations
may fail. -/
def posixLockFile (alloc1 alloc2 : Bool) (rq : Request) (s : LockState) :
    ℤ × Option FileLock × LockState :=
  let request : FileLock := ⟨s.nextAddr, rq.owner, rq.type, rq.start, rq.last⟩
  let newFl := if needsLocks rq && alloc1 then some (s.nextAddr + 1) else none
  let newFl2 := if needsLocks rq && alloc2 then some (s.nextAddr + 2) else none
  let s := { s with nextAddr := s.nextAddr + 3 }
  let conflict :=
    if rq.type = .unlck then none else s.iFlock.find? fun fl => posixLocksConflict request fl
  match conflict with
  | some fl =>
    if !rq.sleep then (eagain, some fl, s)
    else if posixLocksDeadlock s.blockedList request fl then (edeadlk, some fl, s)
    else
      (fileLockDeferred, some fl,
        { s with blockedList := locksInsertBlock s.blockedList fl request })
  | none =>
    if rq.access then (0, none, s)
    else
      let (error, s) := posixChange newFl newFl2 rq request s
      (error, none, s)

end NestLinux.Locks
