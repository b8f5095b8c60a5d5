import NestLinux.Lib.SignedWord
import Mathlib.Algebra.BigOperators.Group.List.Basic

/-!
# The optical ring sensor

`drivers/input/misc/adbs-a330.c`: a work handler drains the two delta registers of the sensor,
which clear when they are read, and adds the deltas of one axis to a count; a timer reports the
difference to the count of its last report.

The handler changes the count in its last step only, so a tick while the handler runs is one
before it.
-/

namespace NestLinux.AdbsA330

open Lib

/-- `enum adbs_a330_mode`. -/
inductive Mode
  | deltaX
  | deltaY
  deriving DecidableEq, Repr

/-- `enum adbs_a330_direction`. -/
inductive Direction
  | neg
  | pos
  deriving DecidableEq, Repr

/-- The counts of `struct adbs_a330_data`. -/
structure Sensor where
  accumulatedPosition : BitVec 32
  lastPositionSent : BitVec 32
  deriving DecidableEq, Repr

/-- `adbs_a330_timer`: the sensor, and the value for `input_report_rel` if there is one. -/
def adbsA330Timer (direction : Direction) (rot : Sensor) : Sensor × Option (BitVec 32) :=
  let newPosition := rot.accumulatedPosition
  if newPosition ≠ rot.lastPositionSent then
    let delta := newPosition - rot.lastPositionSent
    let delta := if direction = .neg then -delta else delta
    ({ rot with lastPositionSent := newPosition }, some delta)
  else (rot, none)

/-- The cast `(int8_t) ((val << 24) >> 24)`. -/
def int8 (val : BitVec 32) : BitVec 8 := ((val <<< 24).sshiftRight 24).setWidth 8

/-- The test `val < 0`. -/
def isError (val : BitVec 32) : Bool := val.slt 0

/-- How the loop of the handler ends. -/
inductive Exit
  | failed
  | drained (deltaX deltaY : BitVec 32)
  deriving DecidableEq, Repr

/-- The loop of the handler over the values of `i2c_smbus_read_byte_data`. There is no result
if the loop does not end with the last of them. -/
def drain (deltaX deltaY : BitVec 32) : List (BitVec 32) → Option Exit
  | [] => none
  | [x] => if isError x then some .failed else none
  | x :: y :: vals =>
    let deltaX := deltaX + (int8 x).signExtend 32
    if isError x then none
    else
      let deltaY := deltaY + (int8 y).signExtend 32
      if isError y then if vals = [] then some .failed else none
      else if int8 x = 0 ∧ int8 y = 0 then
        if vals = [] then some (.drained deltaX deltaY) else none
      else drain deltaX deltaY vals

/-- `adbs_a330_i2c_work_handler`, over the values read. -/
def adbsA330I2cWorkHandler (mode : Mode) (rot : Sensor) (vals : List (BitVec 32)) : Option Sensor :=
  (drain 0 0 vals).map fun
    | .failed => rot
    | .drained deltaX deltaY =>
      { rot with
        accumulatedPosition :=
          rot.accumulatedPosition + if mode = .deltaX then deltaX else deltaY }

/-- What happens to the driver: the handler runs, or the timer. -/
inductive Event
  | work (vals : List (BitVec 32))
  | tick
  deriving DecidableEq, Repr

/-- The sensor, and what was reported. -/
structure World where
  sensor : Sensor
  reports : List (BitVec 32)
  deriving DecidableEq, Repr

/-- The state after `adbs_a330_probe`. -/
def World.probe : World where
  sensor := { accumulatedPosition := 0, lastPositionSent := 0 }
  reports := []

section Run

variable (mode : Mode) (direction : Direction)

def World.step (w : World) : Event → Option World
  | .work vals => (adbsA330I2cWorkHandler mode w.sensor vals).map fun s => { w with sensor := s }
  | .tick =>
    some
      { sensor := (adbsA330Timer direction w.sensor).1
        reports := w.reports ++ (adbsA330Timer direction w.sensor).2.toList }

def World.run (w : World) : List Event → Option World
  | [] => some w
  | e :: es => (w.step mode direction e).bind fun w => World.run w es

end Run

/-! ## What is read -/

/-- The values read from the register of an axis. -/
def axis : Mode → List (BitVec 32) → List (BitVec 32)
  | _, [] => []
  | .deltaX, [x] => [x]
  | .deltaY, [_] => []
  | .deltaX, x :: _ :: vals => x :: axis .deltaX vals
  | .deltaY, _ :: y :: vals => y :: axis .deltaY vals

/-- The sum of the deltas of the axis that were read with success: the low bytes, with their
sign, of the values that are no errors. -/
def read (mode : Mode) (vals : List (BitVec 32)) : ℤ :=
  (((axis mode vals).filter fun v => !isError v).map fun v => (v.setWidth 8).toInt).sum

def Fails (vals : List (BitVec 32)) : Prop := vals.any isError

instance (vals : List (BitVec 32)) : Decidable (Fails vals) :=
  inferInstanceAs (Decidable (vals.any isError = true))

def Event.read (mode : Mode) : Event → ℤ
  | .work vals => AdbsA330.read mode vals
  | .tick => 0

/-- The deltas an event reads in a run of the handler that meets an error. -/
def Event.lost (mode : Mode) : Event → ℤ
  | .work vals => if Fails vals then AdbsA330.read mode vals else 0
  | .tick => 0

def total (mode : Mode) (es : List Event) : ℤ := (es.map (Event.read mode)).sum

/-- All deltas read in runs of the handler that meet an error. -/
def lost (mode : Mode) (es : List Event) : ℤ := (es.map (Event.lost mode)).sum

/-- The sum of the reports, with the sign of the direction. -/
def signedSum (direction : Direction) (reports : List (BitVec 32)) : ℤ :=
  if direction = .neg then -(reports.map BitVec.toInt).sum else (reports.map BitVec.toInt).sum

/-- The difference that is not reported yet. -/
def Sensor.unreported (rot : Sensor) : BitVec 32 := rot.accumulatedPosition - rot.lastPositionSent

theorem int8_eq (val : BitVec 32) : int8 val = val.setWidth 8 := by
  apply BitVec.eq_of_getLsbD_eq
  simp only [int8]
  grind

theorem signExtend_eq (b : BitVec 8) : b.signExtend 32 = BitVec.ofInt 32 b.toInt :=
  rfl

variable {mode : Mode} {direction : Direction} {vals : List (BitVec 32)} {x y : BitVec 32}

@[simp]
theorem fails_cons : Fails (x :: vals) ↔ isError x ∨ Fails vals := by
  simp [Fails]

@[simp]
theorem not_fails_nil : ¬ Fails [] := by
  simp [Fails]

@[simp]
theorem read_nil : read mode [] = 0 := by
  cases mode <;> rfl

theorem read_cons_cons (hx : isError x = false) (hy : isError y = false) :
    read mode (x :: y :: vals) =
      (int8 (if mode = .deltaX then x else y)).toInt + read mode vals := by
  rw [int8_eq]
  cases mode <;> simp [read, axis, hx, hy]

/-- The loop fails if a read does, and then drops the deltas; else it returns their sums. -/
theorem drain_eq {deltaX deltaY : BitVec 32} {e : Exit} (h : drain deltaX deltaY vals = some e) :
    e = if Fails vals then .failed else .drained (deltaX + BitVec.ofInt 32 (read .deltaX vals))
        (deltaY + BitVec.ofInt 32 (read .deltaY vals)) := by
  -- the loop ends with the last value that is read, at an error or at two zeros
  fun_induction drain deltaX deltaY vals with
  | case1 | case3 | case4 | case6 | case8 => cases h
  | case2 deltaX deltaY x hx =>
    cases h
    rw [if_pos (fails_cons.2 (.inl hx))]
  | case5 deltaX deltaY x y hx hy =>
    cases h
    rw [if_pos (fails_cons.2 (.inr (fails_cons.2 (.inl hy))))]
  | case7 deltaX deltaY x y dX hx dY hy hzero =>
    cases h
    simp [hx, hy, hzero, read_cons_cons, dX, dY]
  | case9 deltaX deltaY x y vals dX hx dY hy hzero ih =>
    rw [ih h]
    simp [hx, hy, read_cons_cons, BitVec.ofInt_add, dX, dY, signExtend_eq, BitVec.add_assoc]

/-- The handler adds the deltas of the axis to the count if no read fails. -/
theorem adbsA330I2cWorkHandler_eq {rot rot' : Sensor}
    (h : adbsA330I2cWorkHandler mode rot vals = some rot') : rot' = if Fails vals then rot else
        { rot with
          accumulatedPosition :=
            rot.accumulatedPosition + BitVec.ofInt 32 (read mode vals) } := by
  obtain ⟨e, he, hrot⟩ := Option.map_eq_some_iff.1 h
  rw [← hrot, drain_eq he]
  by_cases hfl : Fails vals
  · simp [hfl]
  · cases mode <;> simp [hfl]

/-! ## What is known of it -/

/-- The deltas a world knows of, as a word: the reports and the difference of the counts. -/
def World.accounted (direction : Direction) (w : World) : BitVec 32 :=
  BitVec.ofInt 32 (signedSum direction w.reports) + w.sensor.unreported

theorem ofInt_signedSum (reports : List (BitVec 32)) :
    BitVec.ofInt 32 (signedSum direction reports) =
      if direction = .neg then -reports.sum else reports.sum := by
  unfold signedSum
  split
  · rw [BitVec.ofInt_neg, ofInt_sum_toInt]
  · rw [ofInt_sum_toInt]

/-- A tick moves the difference to the reports. -/
theorem accounted_tick {w w' : World} (h : w.step mode direction .tick = some w') :
    w'.accounted direction = w.accounted direction := by
  rw [World.step, Option.some.injEq] at h
  subst h
  simp only [World.accounted, ofInt_signedSum, Sensor.unreported, adbsA330Timer]
  by_cases hn : w.sensor.accumulatedPosition = w.sensor.lastPositionSent
  · simp [hn]
  · cases direction <;> simp [hn, BitVec.add_comm]

/-- A run of the handler adds the deltas it reads, if no read fails. -/
theorem accounted_work {w w' : World} (h : w.step mode direction (.work vals) = some w') :
    w'.accounted direction =
      w.accounted direction + BitVec.ofInt 32 (if Fails vals then 0 else read mode vals) := by
  obtain ⟨s, hs, hw⟩ := Option.map_eq_some_iff.1 h
  rw [← hw, adbsA330I2cWorkHandler_eq hs]
  simp only [World.accounted, Sensor.unreported]
  split
  · simp
  · bv_omega

theorem accounted_step {w w' : World} {e : Event} (h : w.step mode direction e = some w') :
    w'.accounted direction =
      w.accounted direction + BitVec.ofInt 32 (e.read mode - e.lost mode) := by
  cases e with
  | tick =>
    rw [accounted_tick h]
    simp [Event.read, Event.lost]
  | work vals =>
    rw [accounted_work h]
    congr 2
    simp only [Event.read, Event.lost]
    split <;> omega

/-- Of the deltas read, those of the runs of the handler that meet an error are not known. -/
theorem accounted_run {w w' : World} {es : List Event} (h : w.run mode direction es = some w') :
    w'.accounted direction =
      w.accounted direction + BitVec.ofInt 32 (total mode es - lost mode es) := by
  induction es generalizing w with
  | nil =>
    rw [World.run, Option.some.injEq] at h
    simp [h, total, lost]
  | cons e es ih =>
    obtain ⟨v, hv, hr⟩ := Option.bind_eq_some_iff.1 h
    have hsl : total mode (e :: es) - lost mode (e :: es) =
        e.read mode - e.lost mode + (total mode es - lost mode es) := by
      simp only [total, lost, List.map_cons, List.sum_cons]
      omega
    rw [ih hr, accounted_step hv, hsl, BitVec.ofInt_add, BitVec.add_assoc]

/-- **The motion is conserved** exactly if the deltas that were read before an error, in the
same run of the handler, add up to nothing. -/
theorem conserved_iff {mode : Mode} {direction : Direction} {es : List Event} {w : World}
    (h : World.probe.run mode direction es = some w)
    (hknown : InWord 32 (signedSum direction w.reports + w.sensor.unreported.toInt))
    (htotal : InWord 32 (total mode es)) :
    signedSum direction w.reports + w.sensor.unreported.toInt = total mode es ↔
      BitVec.ofInt 32 (lost mode es) = 0 := by
  have hprobe : World.probe.accounted direction = 0 := by cases direction <;> rfl
  have hrun : BitVec.ofInt 32 (signedSum direction w.reports + w.sensor.unreported.toInt) =
      BitVec.ofInt 32 (total mode es) - BitVec.ofInt 32 (lost mode es) := by
    have hacc := accounted_run h
    rw [BitVec.ofInt_add, BitVec.ofInt_toInt, ← World.accounted]
    bv_omega
  constructor
  · intro heq
    rw [heq] at hrun
    bv_omega
  intro hlost
  apply eq_of_ofInt_eq hknown htotal
  rw [hrun, hlost]
  exact BitVec.sub_zero _

/-- A run of the handler with motion, and a tick. -/
theorem conserved_iff_oneRun :
    signedSum .neg [-5] + (0 : BitVec 32).toInt = total .deltaX [.work [5, 0, 0, 0], .tick] :=
  (conserved_iff
    (show World.probe.run .deltaX .neg [.work [5, 0, 0, 0], .tick] = some ⟨⟨5, 5⟩, [-5]⟩ by decide)
    (by decide +kernel) (by decide +kernel)).2 (by decide +kernel)

/-- The second pass of the loop meets an error, and the motion the first one drained is gone. -/
theorem error_loses_motion :
    World.probe.run .deltaX .pos [.work [5, 0, -1], .tick] = some World.probe ∧
      signedSum .pos World.probe.reports + World.probe.sensor.unreported.toInt = 0 ∧
      total .deltaX [.work [5, 0, -1], .tick] = 5 := by
  decide

end NestLinux.AdbsA330
