import Mathlib.Data.List.Basic
import Mathlib.Order.Nat

/-!
# Calendars of deadlines

What a timer service is for, without how it finds the timers that are due. Timers are
started for a time that has not passed yet, stopped, and run; time advances by one where
no timer is left that is due before. A timer is run in the step of time it was started
for: the service cannot advance beyond it.
-/

namespace NestLinux.Lib

/-- What can happen to a calendar. -/
inductive Action (ι : Type*)
  | start (t : ι) (d : ℕ)
  | stop (t : ι)
  | advance
  | fire (t : ι)
  | skip

/-- A service of timers: what is due before `now` is due in the step of time being processed. -/
structure Calendar (ι : Type*) where
  /-- The next time to be processed. -/
  now : ℕ
  /-- When each pending timer is due. -/
  due : ι → Option ℕ
  /-- The timers that were run, each with its time, the latest last. -/
  ran : List (ι × ℕ)

namespace Calendar

variable {ι : Type*} [DecidableEq ι] {c c1 c2 : Calendar ι} {t : ι} {d : ℕ}

inductive Step : Calendar ι → Action ι → Calendar ι → Prop
  | start (c : Calendar ι) (t : ι) (d : ℕ) (h : c.now ≤ d) :
      Step c (.start t d) { c with due := Function.update c.due t (some d) }
  | stop (c : Calendar ι) (t : ι) :
      Step c (.stop t) { c with due := Function.update c.due t none }
  | advance (c : Calendar ι) (h : ∀ t d, c.due t = some d → c.now ≤ d) :
      Step c .advance { c with now := c.now + 1 }
  | fire (c : Calendar ι) (t : ι) (d : ℕ) (h : c.due t = some d) (hd : d + 1 = c.now) :
      Step c (.fire t) { c with due := Function.update c.due t none, ran := c.ran ++ [(t, d)] }
  | skip (c : Calendar ι) : Step c .skip c

theorem Step.due_start (h : Step c (.start t d) c1) : c1.due t = some d := by
  cases h
  simp

/-- Any number of actions that all meet a condition. -/
inductive Run (ok : Action ι → Prop) : Calendar ι → Calendar ι → Prop
  | refl (c : Calendar ι) : Run ok c c
  | step {c c1 c2 : Calendar ι} {a : Action ι} (h : Run ok c c1) (hok : ok a)
      (hstep : Step c1 a c2) : Run ok c c2

/-- The times at which a timer was run. -/
def runsOf (t : ι) (ran : List (ι × ℕ)) : List ℕ := (ran.filter fun r => r.1 = t).map Prod.snd

@[simp] theorem runsOf_append_self (ran : List (ι × ℕ)) :
    runsOf t (ran ++ [(t, d)]) = runsOf t ran ++ [d] := by
  simp [runsOf]

theorem runsOf_append_of_ne {u : ι} (h : u ≠ t) (ran : List (ι × ℕ)) :
    runsOf t (ran ++ [(u, d)]) = runsOf t ran := by
  simp [runsOf, h]

/-- The action leaves the timer alone. -/
def Spares (t : ι) : Action ι → Prop
  | .start u _ => u ≠ t
  | .stop u => u ≠ t
  | _ => True

/-- The timer is pending for `d`, or was run at `d`. -/
inductive Serves (ran : List (ι × ℕ)) (t : ι) (d : ℕ) (c : Calendar ι) : Prop
  | waits (hdue : c.due t = some d) (hnow : c.now ≤ d + 1) (hran : runsOf t c.ran = runsOf t ran)
  | served (hdue : c.due t = none) (hnow : d < c.now)
      (hran : runsOf t c.ran = runsOf t ran ++ [d])

theorem Serves.setDue {ran : List (ι × ℕ)} {due : ι → Option ℕ} (h : Serves ran t d c)
    (hde : due t = c.due t) : Serves ran t d { c with due := due } := by
  cases h with
  | waits hd hn hran => exact .waits (hde.trans hd) hn hran
  | served hd hn hran => exact .served (hde.trans hd) hn hran

theorem Serves.step {ran : List (ι × ℕ)} {a : Action ι} (h : Serves ran t d c) (hok : Spares t a)
    (hsp : Step c a c1) : Serves ran t d c1 := by
  cases hsp with
  | start u e he => exact h.setDue (Function.update_of_ne (Ne.symm hok) _ _)
  | stop u => exact h.setDue (Function.update_of_ne (Ne.symm hok) _ _)
  | advance ha =>
    cases h with
    | waits hd hn hran => exact .waits hd (Nat.succ_le_succ (ha t d hd)) hran
    | served hd hn hran => exact .served hd (Nat.lt_succ_of_lt hn) hran
  | fire u e hu he =>
    by_cases hut : u = t
    · subst hut
      cases h with
      | waits hd hn hran =>
        obtain rfl : d = e := Option.some.inj (hd.symm.trans hu)
        refine .served (by simp) (by dsimp only; omega) ?_
        rw [runsOf_append_self, hran]
      | served hd hn hran =>
        rw [hd] at hu
        cases hu
    · have hne : t ≠ u := Ne.symm hut
      cases h with
      | waits hd hn hran =>
        refine .waits (by simpa [hne] using hd) hn ?_
        rw [runsOf_append_of_ne hut, hran]
      | served hd hn hran =>
        refine .served (by simpa [hne] using hd) hn ?_
        rw [runsOf_append_of_ne hut, hran]
  | skip => exact h

/-- **Exactness**: a timer left alone is run once, at the time it is due. -/
theorem Run.exact (hst : Step c (.start t d) c1) (hr : Run (Spares t) c1 c2) :
    Serves c.ran t d c2 := by
  induction hr with
  | refl =>
    obtain ⟨_, _, h⟩ := hst
    exact .waits (by simp) (Nat.le_succ_of_le h) rfl
  | step _ hok hsp ih => exact ih.step hok hsp

/-- The action does not start the timer. -/
def NotStarting (t : ι) : Action ι → Prop
  | .start u _ => u ≠ t
  | _ => True

/-- **A stopped timer** is not run until it is started again. -/
theorem Run.stopped (hst : Step c (.stop t) c1) (hr : Run (NotStarting t) c1 c2) :
    c2.due t = none ∧ runsOf t c2.ran = runsOf t c.ran := by
  induction hr with
  | refl =>
    cases hst
    simp
  | step _ hok hsp ih =>
    obtain ⟨hd, hran⟩ := ih
    cases hsp with
    | start u e he =>
      have hne : t ≠ u := Ne.symm hok
      exact ⟨by simpa [hne] using hd, hran⟩
    | stop u =>
      by_cases hut : t = u
      · subst hut
        exact ⟨by simp, hran⟩
      · exact ⟨by simpa [hut] using hd, hran⟩
    | advance => exact ⟨hd, hran⟩
    | fire u e hu he =>
      have hne : u ≠ t := by
        rintro rfl
        rw [hd] at hu
        cases hu
      refine ⟨by simpa [hne.symm] using hd, ?_⟩
      rw [runsOf_append_of_ne hne, hran]
    | skip => exact ⟨hd, hran⟩

end Calendar

end NestLinux.Lib
