import NestLinux.Lib.Word32
import Mathlib.Data.Nat.Bitwise

/-!
# The timer wheel

`kernel/timer.c` for 32-bit jiffies, of one processor's timers. The timers are linked into
the lists of five vectors by when they expire: `tv1` has a list for each of the next 256
jiffies, and `tv2` to `tv5` have 64 lists for ever longer stretches of time behind, which
`__run_timers` distributes again as they come up (`cascade`). The lock is dropped while a
timer runs, so timers may be added, changed and deleted then as at any other time.

A timer is known by its address, a number. The lists link the timers themselves, so a
timer is taken out of whatever list it is in.
-/

namespace NestLinux.Timer

open Lib

def tvnBits : ℕ := 6

def tvrBits : ℕ := 8

def tvrSize : ℕ := 1 <<< tvrBits

def tvnMask : ℕ := 1 <<< tvnBits - 1

def tvrMask : ℕ := 1 <<< tvrBits - 1

/-- `time_after`: the difference is negative as a signed word. -/
def timeAfter (a b : ℕ) : Bool := decide (2 ^ 31 ≤ sub32 b a)

def timeAfterEq (a b : ℕ) : Bool := decide (sub32 a b < 2 ^ 31)

def timeBefore (a b : ℕ) : Bool := timeAfter b a

/-- `struct timer_list`. -/
structure TimerList where
  expires : ℕ
  slack : ℤ
  /-- The low bit of `base`. -/
  deferrable : Bool
  /-- Whether `entry.next` is not `NULL`. -/
  pending : Bool

/-- The vectors of `struct tvec_base`. -/
inductive Tv
  | tv1
  | tv2
  | tv3
  | tv4
  | tv5
  deriving DecidableEq, Repr

inductive ListHead
  /-- A list of a vector. -/
  | vec (tv : Tv) (i : ℕ)
  /-- The list of `__run_timers`. -/
  | workList
  deriving DecidableEq, Repr

/-- `struct tvec_base`, with the timers, the lists and the global `jiffies`. -/
structure TvecBase where
  runningTimer : Option ℕ
  timerJiffies : ℕ
  nextTimer : ℕ
  list : ListHead → List ℕ
  timer : ℕ → TimerList
  jiffies : ℕ

/-- `init_timers_cpu`: no timer is linked. -/
def initTimersCpu (jiffies : ℕ) (timer : ℕ → TimerList) : TvecBase where
  runningTimer := none
  timerJiffies := jiffies
  nextTimer := jiffies
  list _ := []
  timer t := { timer t with pending := false }
  jiffies := jiffies

/-! ### Lists -/

variable (b : TvecBase)

/-- Assigns the fields of a timer. -/
def TvecBase.setTimer (t : ℕ) (f : TimerList → TimerList) : TvecBase :=
  { b with timer := Function.update b.timer t (f (b.timer t)) }

def TvecBase.listAddTail (t : ℕ) (head : ListHead) : TvecBase :=
  { b with list := Function.update b.list head (b.list head ++ [t]) }.setTimer t
    ({ · with pending := true })

/-- `list_replace_init`: the list `old` becomes empty, and its timers are those of the result. -/
def TvecBase.listReplaceInit (old : ListHead) : List ℕ × TvecBase :=
  (b.list old, { b with list := Function.update b.list old [] })

def TvecBase.detachTimer (t : ℕ) (clearPending : Bool) : TvecBase :=
  let b := { b with list := fun head => (b.list head).erase t }
  if clearPending then b.setTimer t ({ · with pending := false }) else b

/-! ### Adding and deleting -/

/-- The list `internal_add_timer` links a timer into. -/
def TvecBase.vecOf (expires : ℕ) : ListHead :=
  let idx := sub32 expires b.timerJiffies
  if idx < tvrSize then
    .vec .tv1 (expires &&& tvrMask)
  else if idx < 1 <<< (tvrBits + tvnBits) then
    .vec .tv2 (expires >>> tvrBits &&& tvnMask)
  else if idx < 1 <<< (tvrBits + 2 * tvnBits) then
    .vec .tv3 (expires >>> (tvrBits + tvnBits) &&& tvnMask)
  else if idx < 1 <<< (tvrBits + 3 * tvnBits) then
    .vec .tv4 (expires >>> (tvrBits + 2 * tvnBits) &&& tvnMask)
  else if 2 ^ 31 ≤ idx then
    -- negative as a signed word: the timer goes off in the past
    .vec .tv1 (b.timerJiffies &&& tvrMask)
  else
    let expires := if 0xffffffff < idx then add32 0xffffffff b.timerJiffies else expires
    .vec .tv5 (expires >>> (tvrBits + 3 * tvnBits) &&& tvnMask)

def internalAddTimer (t : ℕ) (b : TvecBase) : TvecBase :=
  b.listAddTail t (b.vecOf (b.timer t).expires)

/-- What a timer that is taken out of its list leaves to be found again. -/
def TvecBase.resetNextTimer (t : ℕ) : TvecBase :=
  if (b.timer t).expires = b.nextTimer ∧ (b.timer t).deferrable = false then
    { b with nextTimer := b.timerJiffies }
  else b

/-- The timer may be the next one to expire. -/
def TvecBase.advanceNextTimer (t : ℕ) : TvecBase :=
  if timeBefore (b.timer t).expires b.nextTimer ∧ (b.timer t).deferrable = false then
    { b with nextTimer := (b.timer t).expires }
  else b

/-- The end of `__mod_timer`. -/
def schedule (t expires : ℕ) (b : TvecBase) : TvecBase :=
  internalAddTimer t ((b.setTimer t ({ · with expires := expires })).advanceNextTimer t)

/-- `__mod_timer`. -/
def doModTimer (t expires : ℕ) (pendingOnly : Bool) (b : TvecBase) : ℕ × TvecBase :=
  if (b.timer t).pending then
    (1, schedule t expires ((b.detachTimer t false).resetNextTimer t))
  else if pendingOnly then (0, b)
  else (0, schedule t expires b)

def modTimerPending (t expires : ℕ) (b : TvecBase) : ℕ × TvecBase := doModTimer t expires true b

def applySlack (timer : TimerList) (jiffies expires : ℕ) : ℕ :=
  let expiresLimit :=
    if 0 ≤ timer.slack then add32 expires timer.slack.toNat
    else if timeAfter expires jiffies then add32 expires (sub32 expires jiffies / 256)
    else expires
  let mask := expires ^^^ expiresLimit
  if mask = 0 then expires
  else
    -- `find_last_bit`
    let bit := Nat.log2 mask
    let mask := 1 <<< bit - 1
    expiresLimit &&& (0xffffffff ^^^ mask)

def modTimer (t expires : ℕ) (b : TvecBase) : ℕ × TvecBase :=
  if (b.timer t).pending = true ∧ (b.timer t).expires = expires then (1, b)
  else doModTimer t (applySlack (b.timer t) b.jiffies expires) false b

def modTimerPinned (t expires : ℕ) (b : TvecBase) : ℕ × TvecBase :=
  if (b.timer t).expires = expires ∧ (b.timer t).pending = true then (1, b)
  else doModTimer t expires false b

/-- `add_timer`; `none` is the `BUG_ON`. -/
def addTimer (t : ℕ) (b : TvecBase) : Option TvecBase :=
  if (b.timer t).pending then none
  else some (modTimer t (b.timer t).expires b).2

/-- `add_timer_on`; `none` is the `BUG_ON`. -/
def addTimerOn (t : ℕ) (b : TvecBase) : Option TvecBase :=
  if (b.timer t).pending then none
  else some (internalAddTimer t (b.advanceNextTimer t))

def delTimer (t : ℕ) (b : TvecBase) : ℤ × TvecBase :=
  if (b.timer t).pending then (1, (b.detachTimer t true).resetNextTimer t)
  else (0, b)

def tryToDelTimerSync (t : ℕ) (b : TvecBase) : ℤ × TvecBase :=
  if b.runningTimer = some t then (-1, b)
  else delTimer t b

def setTimerSlack (t : ℕ) (slackHz : ℤ) (b : TvecBase) : TvecBase :=
  b.setTimer t ({ · with slack := slackHz })

/-! ### Running -/

def cascade (tv : Tv) (index : ℕ) (b : TvecBase) : ℕ × TvecBase :=
  let (tvList, b) := b.listReplaceInit (.vec tv index)
  (index, tvList.foldl (fun b t => internalAddTimer t b) b)

def TvecBase.index (n : ℕ) : ℕ :=
  b.timerJiffies >>> (tvrBits + n * tvnBits) &&& tvnMask

/-- The vectors that come round are distributed again. -/
def cascadeTimers : TvecBase :=
  if b.timerJiffies &&& tvrMask ≠ 0 then b
  else
    let r2 := cascade .tv2 (b.index 0) b
    if r2.1 ≠ 0 then r2.2
    else
      let r3 := cascade .tv3 (r2.2.index 1) r2.2
      if r3.1 ≠ 0 then r3.2
      else
        let r4 := cascade .tv4 (r3.2.index 2) r3.2
        if r4.1 ≠ 0 then r4.2
        else (cascade .tv5 (r4.2.index 3) r4.2).2

/-- `++timer_jiffies`, and the timers of the jiffy become the work list. -/
def takeJiffy (index : ℕ) (b : TvecBase) : TvecBase :=
  let b := { b with timerJiffies := add32 b.timerJiffies 1 }
  let (workList, b) := b.listReplaceInit (.vec .tv1 index)
  { b with list := Function.update b.list .workList workList }

/-- The loop of `__run_timers` up to its inner loop: the next jiffy, if it is due. -/
def nextJiffy : Option TvecBase :=
  if b.list .workList = [] ∧ timeAfterEq b.jiffies b.timerJiffies then
    some (takeJiffy (b.timerJiffies &&& tvrMask) (cascadeTimers b))
  else none

/-- The inner loop of `__run_timers` up to the call of the timer's function. -/
def expire : Option (ℕ × TvecBase) :=
  match b.list .workList with
  | [] => none
  | t :: _ => some (t, { b with runningTimer := some t }.detachTimer t true)

/-- The end of `__run_timers`. -/
def finish : Option TvecBase :=
  if b.list .workList = [] ∧ timeAfterEq b.jiffies b.timerJiffies = false then
    some { b with runningTimer := none }
  else none

/-! ### Everything that can happen -/

/-- A call, or a piece of the work of `__run_timers`. A caller of `add_timer` sets `expires`
first. -/
inductive Event
  /-- The timer interrupt counts `jiffies` on. -/
  | tick
  | nextJiffy
  | expire
  | finish
  | addTimer (t expires : ℕ)
  | addTimerOn (t expires : ℕ)
  | modTimer (t expires : ℕ)
  | modTimerPending (t expires : ℕ)
  | modTimerPinned (t expires : ℕ)
  | delTimer (t : ℕ)
  | tryToDelTimerSync (t : ℕ)
  | setTimerSlack (t : ℕ) (slackHz : ℤ)
  deriving DecidableEq, Repr

/-- What an event does, where it is possible. The expiry times given are words. -/
def step : Event → Option TvecBase
  | .tick => some { b with jiffies := add32 b.jiffies 1 }
  | .nextJiffy => nextJiffy b
  | .expire => (expire b).map Prod.snd
  | .finish => finish b
  | .addTimer t e => addTimer t (b.setTimer t ({ · with expires := e % 2 ^ 32 }))
  | .addTimerOn t e => addTimerOn t (b.setTimer t ({ · with expires := e % 2 ^ 32 }))
  | .modTimer t e => some (modTimer t (e % 2 ^ 32) b).2
  | .modTimerPending t e => some (modTimerPending t (e % 2 ^ 32) b).2
  | .modTimerPinned t e => some (modTimerPinned t (e % 2 ^ 32) b).2
  | .delTimer t => some (delTimer t b).2
  | .tryToDelTimerSync t => some (tryToDelTimerSync t b).2
  | .setTimerSlack t n => some (setTimerSlack t n b)

end NestLinux.Timer
