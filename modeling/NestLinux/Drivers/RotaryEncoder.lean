import NestLinux.Lib.SignedWord
import Mathlib.Algebra.BigOperators.Group.List.Basic

/-!
# The rotary ring

`drivers/input/misc/rotary_encoder_lite.c`: each step of the ring raises an interrupt that
counts up or down, and a timer reports the difference to the count of its last report. Both
counts have eight bits and wrap; the difference is read as a signed byte.

The timer reads the count once, so an interrupt that arrives while the timer runs counts as
one after it.
-/

namespace NestLinux.RotaryEncoder

open Lib List

/-- The counts of `struct rotary_encoder_lite`. -/
structure Encoder where
  accumulatedPosition : BitVec 8
  lastPositionSent : BitVec 8
  deriving DecidableEq, Repr

/-- `rotary_encoder_lite_irq`, with the value of the direction line. -/
def rotaryEncoderLiteIrq (e : Encoder) (direction : Bool) : Encoder :=
  { e with accumulatedPosition := e.accumulatedPosition + if direction then -1 else 1 }

/-- `encoder_timer`: the encoder, and the value for `input_report_rel` if there is one. -/
def encoderTimer (e : Encoder) : Encoder × Option ℤ :=
  let newPosition := e.accumulatedPosition
  if newPosition ≠ e.lastPositionSent then
    ({ e with lastPositionSent := newPosition }, some (newPosition - e.lastPositionSent).toInt)
  else (e, none)

inductive Event
  | irq (direction : Bool)
  | tick
  deriving DecidableEq, Repr

/-- The encoder, and what was reported. -/
structure World where
  encoder : Encoder
  reports : List ℤ

/-- The state after `rotary_encoder_lite_probe`. -/
def World.probe : World where
  encoder := { accumulatedPosition := 0, lastPositionSent := 0 }
  reports := []

def World.step (w : World) : Event → World
  | .irq direction => { w with encoder := rotaryEncoderLiteIrq w.encoder direction }
  | .tick =>
    { encoder := (encoderTimer w.encoder).1
      reports := w.reports ++ (encoderTimer w.encoder).2.toList }

variable (es : List Event)

/-- Some events, from the probe on. -/
def World.run : World := es.foldl World.step World.probe

/-! ## Steps -/

def Event.net : Event → ℤ
  | .irq direction => if direction then -1 else 1
  | .tick => 0

def total : ℤ := (es.map Event.net).sum

/-- The net number of steps since the last tick, or since the probe. -/
def sinceTick : ℤ :=
  es.foldl (fun n e => if e = .tick then 0 else n + e.net) 0

/-- Between any two ticks that follow each other the net number of steps is in the range of a
signed byte. -/
def BetweenTicks : Prop :=
  ∀ pre, pre ++ [.tick] <+: es → .tick ∈ pre → InWord 8 (sinceTick pre)

/-- So it is from the probe to the first tick. -/
def BeforeFirstTick : Prop :=
  ∀ pre, pre ++ [.tick] <+: es → .tick ∉ pre → InWord 8 (sinceTick pre)

variable {es : List Event} {e : Event}

theorem run_concat : World.run (es ++ [e]) = (World.run es).step e := foldl_append ..

theorem total_concat : total (es ++ [e]) = total es + e.net := by simp [total]

theorem sinceTick_concat :
    sinceTick (es ++ [e]) = if e = .tick then 0 else sinceTick es + e.net := foldl_append ..

/-- The difference of the counts is the word of the steps since the last tick. -/
theorem sub_eq_sinceTick (es : List Event) :
    (World.run es).encoder.accumulatedPosition - (World.run es).encoder.lastPositionSent =
      BitVec.ofInt 8 (sinceTick es) := by
  induction es using reverseRecOn with
  | nil => rfl
  | append_singleton es e ih =>
    rw [run_concat, sinceTick_concat]
    cases e with
    | irq direction =>
      have hsp : BitVec.ofInt 8 (Event.irq direction).net =
          if direction then (-1 : BitVec 8) else 1 := by
        cases direction <;> rfl
      simp only [World.step, rotaryEncoderLiteIrq, reduceCtorEq, reduceIte]
      rw [BitVec.ofInt_add]
      bv_omega
    | tick =>
      simp only [World.step, encoderTimer]
      split
      · exact BitVec.sub_self _
      rename_i heq
      rw [not_not] at heq
      simp [heq]

/-- What a tick reports are the steps since the last one. -/
theorem sum_encoderTimer (h : InWord 8 (sinceTick es)) :
    ((encoderTimer (World.run es).encoder).2.toList).sum = sinceTick es := by
  have hsub := sub_eq_sinceTick es
  unfold encoderTimer
  simp only
  split
  · rw [hsub, toInt_ofInt_of_inWord h]
    exact sum_singleton
  rename_i heq
  rw [not_not] at heq
  rw [heq, BitVec.sub_self] at hsub
  exact eq_of_ofInt_eq (show InWord 8 0 by decide) h hsub

/-- **No step is lost or invented.** At every moment, the values that were reported and the
steps since the last tick add up to all the steps. The counts know these steps modulo 256, and
where they are in the range of a signed byte their difference is the number of them. -/
theorem run_conserved (es : List Event) (h : BetweenTicks es) (hfirst : BeforeFirstTick es) :
    (World.run es).reports.sum + sinceTick es = total es ∧
      (InWord 8 (sinceTick es) →
        ((World.run es).encoder.accumulatedPosition -
          (World.run es).encoder.lastPositionSent).toInt = sinceTick es) := by
  constructor
  · induction es using reverseRecOn with
    | nil => rfl
    | append_singleton es e ih =>
      have hlong {pre : List Event} (hpre : pre ++ [.tick] <+: es) : pre ++ [.tick] <+: es ++ [e] :=
        hpre.trans (prefix_append _ _)
      have ih := ih (fun pre hpre => h pre (hlong hpre)) (fun pre hpre => hfirst pre (hlong hpre))
      rw [run_concat, sinceTick_concat, total_concat, ← ih]
      cases e with
      | irq direction =>
        exact (Int.add_assoc _ _ _).symm
      | tick =>
        have hrange : InWord 8 (sinceTick es) := by
          by_cases htick : Event.tick ∈ es
          · exact h es prefix_rfl htick
          · exact hfirst es prefix_rfl htick
        simp [World.step, sum_encoderTimer hrange, Event.net]
  · intro hrange
    rw [sub_eq_sinceTick, toInt_ofInt_of_inWord hrange]

/-- Steps up and down, with ticks between. -/
theorem run_conserved_upDown :
    (World.run [.irq false, .irq false, .tick, .irq true, .tick, .irq true]).reports.sum + -1 =
      0 := by
  have hrange : ∀ pre ∈ [Event.irq false, .irq false, .tick, .irq true, .tick, .irq true].inits,
      InWord 8 (sinceTick pre) := by decide
  have hpre {pre : List Event}
      (h : pre ++ [.tick] <+: [.irq false, .irq false, .tick, .irq true, .tick, .irq true]) :=
    hrange pre ((mem_inits _ _).2 ((prefix_append _ _).trans h))
  exact (run_conserved [.irq false, .irq false, .tick, .irq true, .tick, .irq true]
    (fun pre h _ => hpre h) (fun pre h _ => hpre h)).1

/-- Two hundred steps before the first tick are reported as 56 steps back. -/
theorem run_first_tick_wraps :
    BetweenTicks (replicate 200 (.irq false) ++ [.tick]) ∧
      (World.run (replicate 200 (.irq false) ++ [.tick])).reports.sum = -56 ∧
      sinceTick (replicate 200 (.irq false) ++ [.tick]) = 0 ∧
      total (replicate 200 (.irq false) ++ [.tick]) = 200 := by
  refine ⟨?_, by decide +kernel, by decide +kernel, by decide +kernel⟩
  intro pre hpre htick
  exfalso
  have hmem : Event.tick ∈ replicate 200 (Event.irq false) := by
    rcases prefix_concat_iff.1 hpre with heq | hpre
    · rw [← (append_inj_left' heq rfl)]
      exact htick
    · exact hpre.subset (mem_append_left _ htick)
  exact absurd (eq_of_mem_replicate hmem) (by decide)

end NestLinux.RotaryEncoder
