import NestLinux.Kernel.TimerWheel

/-!
# Runs of the timer wheel

Whatever is called while the jiffies are processed, the wheel does what a calendar of the
pending timers does. A timer that is started is therefore run once, in the jiffy it is
due, unless it is changed or deleted before; and a deleted one is not run.
-/

namespace NestLinux.Timer

open Lib Function Option TvecBase

variable {b b' : TvecBase} {now : ℕ} {due : ℕ → Option ℕ} {t u d : ℕ} {e : ℕ}
  {ok : TvecBase → Event → Prop}

/-! ### Deleting -/

theorem detachTimer_list (b : TvecBase) (t : ℕ) (clear : Bool) (head : ListHead) :
    (b.detachTimer t clear).list head = (b.list head).erase t := by
  cases clear <;> rfl

theorem detachTimer_timerJiffies (b : TvecBase) (t : ℕ) (clear : Bool) :
    (b.detachTimer t clear).timerJiffies = b.timerJiffies := by
  cases clear <;> rfl

theorem detachTimer_expires (b : TvecBase) (t : ℕ) (clear : Bool) (u : ℕ) :
    ((b.detachTimer t clear).timer u).expires = (b.timer u).expires := by
  cases clear with
  | false => rfl
  | true =>
    by_cases hut : u = t
    · subst hut
      simp [detachTimer, setTimer]
    · simp [detachTimer, setTimer, hut]

theorem detachTimer_pending :
    ((b.detachTimer t true).timer u).pending = if u = t then false else (b.timer u).pending := by
  by_cases hut : u = t
  · subst hut
    simp [detachTimer, setTimer]
  · simp [detachTimer, setTimer, hut]

theorem Filed.detachTimer (h : Filed b now due) (t : ℕ) (clear : Bool) :
    Filed (b.detachTimer t clear) now due := by
  apply h.sublist
  · intro head
    rw [detachTimer_list]
    exact List.erase_sublist
  · exact detachTimer_timerJiffies b t clear
  · exact detachTimer_expires b t clear

theorem Filed.listed_detachTimer (h : Filed b now due) (t : ℕ) (clear : Bool) (u : ℕ) :
    Listed (b.detachTimer t clear) u ↔ u ≠ t ∧ Listed b u := by
  simp [Listed, detachTimer_list, (h.nodup _).mem_erase_iff]

/-- What the wheel keeps of the next timer to expire is not part of the calendar. -/
structure SameTimers (b b' : TvecBase) : Prop where
  list : b'.list = b.list
  timerJiffies : b'.timerJiffies = b.timerJiffies
  expires : ∀ t, Listed b t → (b'.timer t).expires = (b.timer t).expires
  pending : ∀ t, (b'.timer t).pending = (b.timer t).pending

theorem SameTimers.refl (b : TvecBase) : SameTimers b b := ⟨rfl, rfl, fun _ _ => rfl, fun _ => rfl⟩

theorem SameTimers.listed (h : SameTimers b b') (t : ℕ) : Listed b' t ↔ Listed b t := by
  rw [Listed, h.list, Listed]

theorem sameTimers_resetNextTimer : SameTimers b (b.resetNextTimer t) := by
  rw [resetNextTimer]
  split_ifs
  · exact ⟨rfl, rfl, fun _ _ => rfl, fun _ => rfl⟩
  · exact .refl b

theorem sameTimers_advanceNextTimer (b : TvecBase) (t : ℕ) :
    SameTimers b (b.advanceNextTimer t) := by
  rw [advanceNextTimer]
  split_ifs
  · exact ⟨rfl, rfl, fun _ _ => rfl, fun _ => rfl⟩
  · exact .refl b

theorem Filed.same (h : Filed b now due) (hs : SameTimers b b') : Filed b' now due :=
  h.congr hs.list hs.timerJiffies hs.expires fun _ _ => rfl

section

variable (h : Refines b now due)

include h

theorem Refines.same (hs : SameTimers b b') : Refines b' now due where
  toFiled := h.toFiled.same hs
  pending t := by
    rw [hs.pending, hs.listed]
    exact h.pending t
  listed t d hd := (hs.listed t).2 (h.listed t d hd)

/-- **Taking a timer out of its list.** -/
theorem Refines.detachTimer (t : ℕ) : Refines (b.detachTimer t true) now (update due t none) where
  toFiled := by
    apply (h.toFiled.detachTimer t true).congr rfl rfl fun _ _ => rfl
    intro u hu
    rw [h.toFiled.listed_detachTimer] at hu
    rw [update_of_ne hu.1]
  pending u := by
    rw [detachTimer_pending, h.toFiled.listed_detachTimer]
    by_cases hut : u = t
    · simp [hut]
    · simp [h.pending u]
  listed u d hd := by
    rw [h.toFiled.listed_detachTimer]
    by_cases hut : u = t
    · simp [hut] at hd
    rw [update_of_ne hut] at hd
    exact ⟨hut, h.listed u d hd⟩

/-- A timer that is not pending has no due time to forget. -/
theorem Refines.stop_of_not_pending (ht : (b.timer t).pending = false) :
    Refines b now (update due t none) := by
  have hno : due t = none := by
    cases hd : due t with
    | none => rfl
    | some d =>
      have := (h.pending t).2 (h.listed t d hd)
      rw [ht] at this
      cases this
  rw [← hno, update_eq_self]
  exact h

theorem Refines.delTimer (t : ℕ) : Refines (delTimer t b).2 now (update due t none) := by
  rw [Timer.delTimer]
  split_ifs with hp
  · exact (h.detachTimer t).same (sameTimers_resetNextTimer)
  · exact h.stop_of_not_pending (Bool.not_eq_true _ ▸ hp)

/-! ### Starting -/

/-- A timer out of its list, whatever becomes of it: all others are in theirs. -/
structure Apart (b : TvecBase) (now : ℕ) (due : ℕ → Option ℕ) (t : ℕ) : Prop extends
    Filed b now due where
  notListed : ¬ Listed b t
  pending : ∀ u, u ≠ t → ((b.timer u).pending = true ↔ Listed b u)
  listed : ∀ u d, u ≠ t → due u = some d → Listed b u

theorem Refines.apart (ht : (b.timer t).pending = false) : Apart b now due t where
  toFiled := h.toFiled
  notListed hl := by
    have := (h.pending t).2 hl
    rw [ht] at this
    cases this
  pending u _ := h.pending u
  listed u d _ := h.listed u d

theorem Refines.apart_detachTimer (t : ℕ) : Apart (b.detachTimer t false) now due t where
  toFiled := h.toFiled.detachTimer t false
  notListed := by simp [h.toFiled.listed_detachTimer]
  pending u hu := by
    rw [h.toFiled.listed_detachTimer]
    exact (h.pending u).trans (by simp [hu])
  listed u d hu hd := by
    rw [h.toFiled.listed_detachTimer]
    exact ⟨hu, h.listed u d hd⟩

end

theorem Apart.same (h : Apart b now due t) (hs : SameTimers b b') : Apart b' now due t where
  toFiled := h.toFiled.same hs
  notListed := by
    rw [hs.listed]
    exact h.notListed
  pending u hu := by
    rw [hs.pending, hs.listed]
    exact h.pending u hu
  listed u d hu hd := (hs.listed u).2 (h.listed u d hu hd)

theorem setTimer_timer (f : TimerList → TimerList) :
    (b.setTimer t f).timer u = if u = t then f (b.timer t) else b.timer u := by
  exact update_apply ..

theorem sameTimers_setTimer (hn : ¬ Listed b t) (f : TimerList → TimerList)
    (hf : ∀ x, (f x).pending = x.pending) : SameTimers b (b.setTimer t f) where
  list := rfl
  timerJiffies := rfl
  expires u hu := by
    have hut : u ≠ t := by
      rintro rfl
      exact hn hu
    rw [setTimer_timer, if_neg hut]
  pending u := by
    rw [setTimer_timer]
    split_ifs with hut
    · rw [hf, hut]
    · rfl

/-- **Linking a timer** makes it pending for the jiffy it is due. -/
theorem Apart.internalAddTimer (h : Apart b now due t) (hexp : (b.timer t).expires < 2 ^ 32) :
    Refines (internalAddTimer t b) now (update due t (some (dueOf now (b.timer t).expires))) := by
  have hf : Filed b now (update due t (some (dueOf now (b.timer t).expires))) := by
    apply h.toFiled.congr rfl rfl fun _ _ => rfl
    intro u hu
    apply update_of_ne
    rintro rfl
    exact h.notListed hu
  have hre := refiled_internalAddTimer hf h.notListed hexp (update_self ..)
  refine ⟨hre.filed, fun u => ?_, fun u d hd => ?_⟩
  · rw [hre.pending, hre.listed]
    by_cases hut : u = t
    · simp [hut]
    · simp [h.pending u hut]
  rw [hre.listed, List.mem_singleton]
  by_cases hut : u = t
  · exact .inr hut
  rw [update_of_ne hut] at hd
  exact .inl (h.listed u d hut hd)

theorem advanceNextTimer_timer (b : TvecBase) (t u : ℕ) :
    (b.advanceNextTimer t).timer u = b.timer u := by
  rw [advanceNextTimer]
  split_ifs <;> rfl

theorem internalAddTimer_expires (b : TvecBase) (t u : ℕ) :
    ((internalAddTimer t b).timer u).expires = (b.timer u).expires := by
  rw [internalAddTimer, listAddTail_timer]

/-- The result of starting a timer. -/
def Started (b' : TvecBase) (now : ℕ) (due : ℕ → Option ℕ) (t : ℕ) : Prop :=
  Refines b' now (update due t (some (dueOf now (b'.timer t).expires)))

theorem Apart.started (h : Apart b now due t) (hexp : (b.timer t).expires < 2 ^ 32) :
    Started (Timer.internalAddTimer t (b.advanceNextTimer t)) now due t := by
  have ha := (h.same (sameTimers_advanceNextTimer b t)).internalAddTimer
    (by rwa [advanceNextTimer_timer])
  rwa [Started, internalAddTimer_expires]

theorem Apart.schedule (h : Apart b now due t) (he : e < 2 ^ 32) :
    Started (schedule t e b) now due t := by
  have hs : SameTimers b (b.setTimer t ({ · with expires := e })) :=
    sameTimers_setTimer h.notListed _ fun _ => rfl
  apply (h.same hs).started
  rwa [setTimer_timer, if_pos rfl]

theorem Refines.doModTimer (h : Refines b now due) (he : e < 2 ^ 32) (pendingOnly : Bool)
    (hst : pendingOnly = true → (b.timer t).pending = true) :
    Started (doModTimer t e pendingOnly b).2 now due t := by
  rw [Timer.doModTimer]
  split_ifs with hp hpo
  · exact ((h.apart_detachTimer t).same (sameTimers_resetNextTimer)).schedule he
  · exact absurd (hst hpo) hp
  · exact (h.apart (Bool.not_eq_true _ ▸ hp)).schedule he

theorem applySlack_lt (timer : TimerList) (jiffies : ℕ) (he : e < 2 ^ 32) :
    applySlack timer jiffies e < 2 ^ 32 := by
  rw [applySlack]
  split_ifs
  all_goals first
    | exact he
    | exact Nat.and_le_left.trans_lt (add32_lt _ _)
    | exact Nat.and_le_left.trans_lt he

/-! ### Events -/

/-- The timer that an event starts: a call that finds nothing to do does not start it. -/
def startsTimer (b : TvecBase) : Event → Option ℕ
  | .addTimer t _ | .addTimerOn t _ => some t
  | .modTimer t e | .modTimerPinned t e =>
    if (b.timer t).pending = true ∧ (b.timer t).expires = e % 2 ^ 32 then none else some t
  | .modTimerPending t _ => if (b.timer t).pending then some t else none
  | _ => none

/-- The timer that an event deletes. -/
def deletesTimer (b : TvecBase) : Event → Option ℕ
  | .delTimer t => some t
  | .tryToDelTimerSync t => if b.runningTimer = some t then none else some t
  | _ => none

/-- The timer whose function an event calls. -/
def runsTimer (b : TvecBase) : Event → Option ℕ
  | .expire => (b.list .workList).head?
  | _ => none

/-- What an event is to the calendar. -/
def actionOf (b b' : TvecBase) (now : ℕ) (ev : Event) : Action ℕ :=
  match startsTimer b ev, deletesTimer b ev, runsTimer b ev with
  | some t, _, _ => .start t (dueOf now (b'.timer t).expires)
  | none, some t, _ => .stop t
  | none, none, some t => .fire t
  | none, none, none => if ev = .nextJiffy then .advance else .skip

/-- The wheel, the number of the next jiffy, and the timers that were run. -/
structure World where
  base : TvecBase
  /-- `timer_jiffies`, without the wrap. -/
  now : ℕ
  /-- Each timer run with the number of the jiffy, the latest last. -/
  ran : List (ℕ × ℕ)

/-- A wheel that starts at any `jiffies`. -/
def World.boot (jiffies : ℕ) (timer : ℕ → TimerList) : World :=
  ⟨initTimersCpu (jiffies % 2 ^ 32) timer, jiffies % 2 ^ 32, []⟩

/-- One event. The jiffy being processed is the one before the next. -/
def World.step (w : World) (ev : Event) : Option World :=
  (Timer.step w.base ev).map fun b =>
    { base := b
      now := if ev = .nextJiffy then w.now + 1 else w.now
      ran := w.ran ++ (runsTimer w.base ev).toList.map fun t => (t, w.now - 1) }

/-- What an event did to the calendar. -/
def Simulates (w : World) (due : ℕ → Option ℕ) (ev : Event) (w' : World) : Prop :=
  ∃ due', Calendar.Step ⟨w.now, due, w.ran⟩ (actionOf w.base w'.base w.now ev)
    ⟨w'.now, due', w'.ran⟩ ∧ Refines w'.base w'.now due'

variable {w w' w1 w2 : World} {ev : Event}

/-- An event that neither runs a timer nor begins a jiffy. -/
theorem World.step_eq (hrun : runsTimer w.base ev = none) (hev : ev ≠ .nextJiffy)
    (hw : w.step ev = some w') :
    ∃ b', Timer.step w.base ev = some b' ∧ w' = { w with base := b' } := by
  rw [World.step, map_eq_some_iff] at hw
  obtain ⟨b', hb', rfl⟩ := hw
  refine ⟨b', hb', ?_⟩
  rw [if_neg hev, hrun]
  simp

theorem simulates_start (hst : startsTimer w.base ev = some t) (h : Started b' w.now due t) :
    Simulates w due ev { w with base := b' } := by
  refine ⟨_, ?_, h⟩
  rw [actionOf, hst]
  exact .start ⟨w.now, due, w.ran⟩ t _ (le_dueOf w.now _)

theorem simulates_stop (hst : startsTimer w.base ev = none)
    (hdel : deletesTimer w.base ev = some t) (h : Refines b' w.now (update due t none)) :
    Simulates w due ev { w with base := b' } := by
  refine ⟨_, ?_, h⟩
  rw [actionOf, hst, hdel]
  exact .stop ⟨w.now, due, w.ran⟩ t

theorem simulates_skip (hst : startsTimer w.base ev = none) (hdel : deletesTimer w.base ev = none)
    (hrun : runsTimer w.base ev = none) (hev : ev ≠ .nextJiffy) (h : Refines b' w.now due) :
    Simulates w due ev { w with base := b' } := by
  refine ⟨due, ?_, h⟩
  rw [actionOf, hst, hdel, hrun]
  rw [if_neg hev]
  exact .skip _

theorem simulates_nextJiffy (h : Refines w.base w.now due) (hw : w.step .nextJiffy = some w') :
    Simulates w due .nextJiffy w' := by
  rw [World.step, map_eq_some_iff] at hw
  obtain ⟨b', hb', rfl⟩ := hw
  obtain ⟨hre, ha⟩ := h.nextJiffy hb'
  refine ⟨due, ?_, hre⟩
  have hsp := Calendar.Step.advance ⟨w.now, due, w.ran⟩ ha
  simpa [actionOf, startsTimer, deletesTimer, runsTimer] using hsp

theorem simulates_expire (h : Refines w.base w.now due) (hw : w.step .expire = some w') :
    Simulates w due .expire w' := by
  rw [World.step, map_eq_some_iff] at hw
  obtain ⟨b', hb', rfl⟩ := hw
  rw [step, expire] at hb'
  cases hwo : w.base.list .workList with
  | nil =>
    rw [hwo] at hb'
    cases hb'
  | cons t rest =>
    rw [hwo] at hb'
    obtain rfl := some.inj hb'
    have ht : t ∈ w.base.list .workList := by simp [hwo]
    obtain ⟨d, hd, hn⟩ := h.work ht
    have hs : SameTimers w.base { w.base with runningTimer := some t } :=
      ⟨rfl, rfl, fun _ _ => rfl, fun _ => rfl⟩
    refine ⟨_, ?_, (h.same hs).detachTimer t⟩
    have hsp := Calendar.Step.fire ⟨w.now, due, w.ran⟩ t d hd hn
    have hd' : w.now - 1 = d := by omega
    simpa [actionOf, startsTimer, deletesTimer, runsTimer, hwo, hd'] using hsp

/-- A caller sets when a timer expires before it is started. -/
theorem Refines.setExpires (h : Refines b now due) (ht : (b.timer t).pending = false) (e : ℕ) :
    Refines (b.setTimer t ({ · with expires := e })) now due :=
  h.same (sameTimers_setTimer (h.apart ht).notListed _ fun _ => rfl)

theorem setExpires_timer (t e : ℕ) :
    (b.setTimer t ({ · with expires := e })).timer t = { b.timer t with expires := e } := by
  rw [setTimer_timer, if_pos rfl]

/-- **Every event** does to the wheel what it is to the calendar. -/
theorem Refines.step (h : Refines w.base w.now due) (hw : w.step ev = some w') :
    Simulates w due ev w' := by
  by_cases hnx : ev = .nextJiffy
  · subst hnx
    exact simulates_nextJiffy h hw
  by_cases hexp : ev = .expire
  · subst hexp
    exact simulates_expire h hw
  have hrun : runsTimer w.base ev = none := by
    cases ev <;> first | rfl | exact absurd rfl hexp
  obtain ⟨b', hb', rfl⟩ := World.step_eq hrun hnx hw
  have he : ∀ e : ℕ, e % 2 ^ 32 < 2 ^ 32 := fun e => Nat.mod_lt _ (Nat.two_pow_pos 32)
  cases ev with
  | nextJiffy => exact absurd rfl hnx
  | expire => exact absurd rfl hexp
  | tick =>
    obtain rfl := some.inj hb'
    exact simulates_skip rfl rfl rfl hnx (h.same ⟨rfl, rfl, fun _ _ => rfl, fun _ => rfl⟩)
  | finish =>
    rw [Timer.step, Timer.finish] at hb'
    split_ifs at hb'
    obtain rfl := some.inj hb'
    exact simulates_skip rfl rfl rfl hnx (h.same ⟨rfl, rfl, fun _ _ => rfl, fun _ => rfl⟩)
  | setTimerSlack t n =>
    obtain rfl := some.inj hb'
    refine simulates_skip rfl rfl rfl hnx (h.same ⟨rfl, rfl, fun u _ => ?_, fun u => ?_⟩)
    · rw [setTimerSlack, setTimer_timer]
      split_ifs with hut
      · rw [hut]
      · rfl
    rw [setTimerSlack, setTimer_timer]
    split_ifs with hut
    · rw [hut]
    · rfl
  | addTimer t e =>
    rw [Timer.step, addTimer, setExpires_timer] at hb'
    split_ifs at hb' with hp
    obtain rfl := some.inj hb'
    have hst := h.setExpires (Bool.not_eq_true _ ▸ hp) (e % 2 ^ 32)
    rw [Timer.modTimer, setExpires_timer, if_neg fun hc => hp hc.1]
    exact simulates_start rfl (hst.doModTimer (applySlack_lt _ _ (he e)) false (by simp))
  | addTimerOn t e =>
    rw [Timer.step, addTimerOn, setExpires_timer] at hb'
    split_ifs at hb' with hp
    obtain rfl := some.inj hb'
    have hst := h.setExpires (Bool.not_eq_true _ ▸ hp) (e % 2 ^ 32)
    apply simulates_start rfl
    apply (hst.apart (by rw [setExpires_timer]; exact Bool.not_eq_true _ ▸ hp)).started
    rw [setExpires_timer]
    exact he e
  | modTimer t e =>
    obtain rfl := some.inj hb'
    rw [Timer.modTimer]
    split_ifs with hsm
    · exact simulates_skip (if_pos hsm) rfl rfl hnx h
    exact simulates_start (if_neg hsm)
      (h.doModTimer (applySlack_lt _ _ (he e)) false (by simp))
  | modTimerPending t e =>
    obtain rfl := some.inj hb'
    rw [modTimerPending]
    by_cases hp : (w.base.timer t).pending = true
    · exact simulates_start (if_pos hp) (h.doModTimer (he e) true fun _ => hp)
    rw [Timer.doModTimer, if_neg hp]
    exact simulates_skip (if_neg hp) rfl rfl hnx h
  | modTimerPinned t e =>
    obtain rfl := some.inj hb'
    rw [modTimerPinned]
    split_ifs with hsm
    · exact simulates_skip (if_pos hsm.symm) rfl rfl hnx h
    · exact simulates_start (if_neg fun hc => hsm hc.symm) (h.doModTimer (he e) false (by simp))
  | delTimer t =>
    obtain rfl := some.inj hb'
    exact simulates_stop rfl rfl (h.delTimer t)
  | tryToDelTimerSync t =>
    obtain rfl := some.inj hb'
    rw [tryToDelTimerSync]
    split_ifs with hr
    · exact simulates_skip rfl (if_pos hr) rfl hnx h
    · exact simulates_stop rfl (if_neg hr) (h.delTimer t)

/-! ### Runs -/

/-- Any number of events that all meet a condition. -/
inductive Run (ok : TvecBase → Event → Prop) : World → World → Prop
  | refl (w : World) : Run ok w w
  | step {w w1 w2 : World} {ev : Event} (h : Run ok w w1) (hok : ok w1.base ev)
      (hstep : w1.step ev = some w2) : Run ok w w2

theorem Run.cons (hok : ok w.base ev) (hsp : w.step ev = some w1)
    (h : Run ok w1 w2) : Run ok w w2 := by
  induction h with
  | refl => exact .step (.refl w) hok hsp
  | step _ hok' hsp' ih => exact .step ih hok' hsp'

def World.exec (w : World) (evs : List Event) : Option World := evs.foldlM World.step w

theorem run_of_exec {evs : List Event}
    (hok : ∀ ev ∈ evs, ∀ b, ok b ev) (h : w.exec evs = some w') : Run ok w w' := by
  induction evs generalizing w with
  | nil =>
    obtain rfl := some.inj h
    exact .refl w
  | cons ev evs ih =>
    rw [List.forall_mem_cons] at hok
    rw [World.exec, List.foldlM_cons] at h
    cases hsp : w.step ev with
    | none =>
      rw [hsp] at h
      cases h
    | some w1 =>
      rw [hsp] at h
      exact .cons (hok.1 w.base) hsp (ih hok.2 h)

/-- What the wheel can come to from its start at any `jiffies`. -/
def Reachable (w : World) : Prop :=
  ∃ jiffies timer, Run (fun _ _ => True) (World.boot jiffies timer) w

/-- **A run of the wheel** is a run of a calendar. -/
theorem Run.calendar (ok' : Action ℕ → Prop) (hr : Run ok w w') (h : Refines w.base w.now due)
    (hok : ∀ b b' now ev, ok b ev → ok' (actionOf b b' now ev)) :
    ∃ due', Calendar.Run ok' ⟨w.now, due, w.ran⟩ ⟨w'.now, due', w'.ran⟩ ∧
      Refines w'.base w'.now due' := by
  induction hr with
  | refl => exact ⟨due, .refl _, h⟩
  | step _ hev hsp ih =>
    obtain ⟨due1, hr1, h1⟩ := ih
    obtain ⟨due2, hsp2, h2⟩ := h1.step hsp
    exact ⟨due2, .step hr1 (hok _ _ _ _ hev) hsp2, h2⟩

theorem refines_boot (jiffies : ℕ) (timer : ℕ → TimerList) :
    Refines (World.boot jiffies timer).base (World.boot jiffies timer).now fun _ => none where
  timerJiffies := (Nat.mod_mod _ _).symm
  vec h := by cases h
  work h := by cases h
  word h := by cases h
  nodup _ := List.nodup_nil
  unique h := by cases h
  pending t := by simp [World.boot, initTimersCpu, Listed]
  listed t d h := by cases h

theorem Reachable.refines (h : Reachable w) : ∃ due, Refines w.base w.now due := by
  obtain ⟨jiffies, timer, hr⟩ := h
  obtain ⟨due, -, hre⟩ :=
    hr.calendar (fun _ => True) (refines_boot jiffies timer) fun _ _ _ _ _ => trivial
  exact ⟨due, hre⟩

/-- The event leaves the timer as it is. -/
def SparesTimer (t : ℕ) (b : TvecBase) (ev : Event) : Prop :=
  startsTimer b ev ≠ some t ∧ deletesTimer b ev ≠ some t

theorem spares_actionOf (h : SparesTimer t b ev) : Calendar.Spares t (actionOf b b' now ev) := by
  rw [actionOf]
  split
  case h_1 _ u hs =>
    rintro rfl
    exact h.1 hs
  case h_2 u _ hd =>
    rintro rfl
    exact h.2 hd
  case h_3 => trivial
  case h_4 =>
    split_ifs <;> trivial

theorem notStarting_actionOf (h : startsTimer b ev ≠ some t) :
    Calendar.NotStarting t (actionOf b b' now ev) := by
  rw [actionOf]
  split
  case h_1 _ u hs =>
    rintro rfl
    exact h hs
  case h_2 => trivial
  case h_3 => trivial
  case h_4 =>
    split_ifs <;> trivial

theorem actionOf_start (h : startsTimer b ev = some t) :
    actionOf b b' now ev = .start t (dueOf now (b'.timer t).expires) := by
  rw [actionOf, h]

theorem actionOf_stop (h : deletesTimer b ev = some t) : actionOf b b' now ev = .stop t := by
  have hs : startsTimer b ev = none := by
    cases ev <;> first | rfl | cases h
  rw [actionOf, hs, h]

/-- A jiffy as a word, for a timer that is not late. -/
theorem dueOf_spec {expires : ℕ} (hexp : expires < 2 ^ 32) :
    if sub32 expires (now % 2 ^ 32) < 2 ^ 31 then
      dueOf now expires % 2 ^ 32 = expires ∧ now ≤ dueOf now expires ∧
        dueOf now expires < now + 2 ^ 31 else dueOf now expires = now := by
  have hm := add_sub32_mod hexp now
  rw [dueOf]
  split_ifs with hfut
  · exact ⟨hm, Nat.le_add_right _ _, Nat.add_lt_add_left hfut now⟩
  · rfl

/-- **Timers are run exactly when they are due.** A timer started by some event of any run is due
in the jiffy whose number is its `expires`, or the next one if that has passed. As long as it is
neither started again nor deleted, it is not run before that jiffy, is in the list of the timers to
be run or was run once while the jiffy is processed, and was run once afterwards. A timer that is
deleted is not run until it is started again. -/
theorem timer_exact (hw : Reachable w) (hstep : w.step ev = some w1) :
    (startsTimer w.base ev = some t → Run (SparesTimer t) w1 w2 → ∃ due,
      (if sub32 (w1.base.timer t).expires w.base.timerJiffies < 2 ^ 31 then
        due % 2 ^ 32 = (w1.base.timer t).expires ∧ w.now ≤ due ∧ due < w.now + 2 ^ 31
      else due = w.now) ∧
      (w2.now ≤ due ∧ Calendar.runsOf t w2.ran = Calendar.runsOf t w.ran ∨
        w2.now = due + 1 ∧ t ∈ w2.base.list .workList ∧
          Calendar.runsOf t w2.ran = Calendar.runsOf t w.ran ∨
        due < w2.now ∧ (w2.base.timer t).pending = false ∧
          Calendar.runsOf t w2.ran = Calendar.runsOf t w.ran ++ [due])) ∧
    (deletesTimer w.base ev = some t → Run (fun b ev => startsTimer b ev ≠ some t) w1 w2 →
      Calendar.runsOf t w2.ran = Calendar.runsOf t w.ran) := by
  obtain ⟨due, hre⟩ := hw.refines
  obtain ⟨due1, hcal, hre1⟩ := hre.step hstep
  constructor
  · intro hstart hrun
    obtain ⟨due2, hrun2, hre2⟩ :=
      hrun.calendar (Calendar.Spares t) hre1 fun _ _ _ _ => spares_actionOf
    rw [actionOf_start hstart] at hcal
    refine ⟨dueOf w.now (w1.base.timer t).expires, ?_, ?_⟩
    · rw [hre.timerJiffies]
      apply dueOf_spec
      have hdue1 : due1 t = some (dueOf w.now (w1.base.timer t).expires) := hcal.due_start
      obtain ⟨head, ht⟩ := hre1.listed t _ hdue1
      exact hre1.word ht
    cases hrun2.exact hcal with
    | waits hdue hnow hran =>
      obtain ⟨head, ht⟩ := hre2.listed t _ hdue
      cases head with
      | vec tv i =>
        obtain ⟨d, hd, hon, -⟩ := hre2.vec ht
        obtain rfl := some.inj (hd.symm.trans hdue)
        exact .inl ⟨hon.le_time, hran⟩
      | workList =>
        obtain ⟨d, hd, hd'⟩ := hre2.work ht
        obtain rfl := some.inj (hd.symm.trans hdue)
        exact .inr (.inl ⟨hd'.symm, ht, hran⟩)
    | served hdue hnow hran =>
      refine .inr (.inr ⟨hnow, ?_, hran⟩)
      by_contra hp
      obtain ⟨d, hd⟩ := hre2.exists_due ((hre2.pending t).1 (Bool.not_eq_false _ ▸ hp))
      cases hd.symm.trans hdue
  · intro hdel hrun
    obtain ⟨due2, hrun2, -⟩ :=
      hrun.calendar (Calendar.NotStarting t) hre1 fun _ _ _ _ => notStarting_actionOf
    rw [actionOf_stop hdel] at hcal
    exact (hrun2.stopped hcal).2

/-- A timer for the jiffy at which the counter wraps, started one jiffy before. -/
theorem timer_exact_wrap :
    ∃ w w1 w2 : World, Reachable w ∧ w.step (.addTimerOn 7 0) = some w1 ∧
      Run (SparesTimer 7) w1 w2 ∧ Calendar.runsOf 7 w2.ran = [2 ^ 32] := by
  have hboot : Reachable (World.boot 0xffffffff fun _ => ⟨0, 0, false, false⟩) :=
    ⟨_, _, .refl _⟩
  have heval : ((World.boot 0xffffffff fun _ => ⟨0, 0, false, false⟩).step (.addTimerOn 7 0)).bind
      (fun w1 => (w1.exec [.nextJiffy, .tick, .nextJiffy, .expire]).map
        fun w => (w.now, w.base.list .workList, (w1.base.timer 7).expires)) =
      some (2 ^ 32 + 1, [], 0) := by decide +kernel
  rw [bind_eq_some_iff] at heval
  obtain ⟨w1, hstep, hmap⟩ := heval
  rw [map_eq_some_iff] at hmap
  obtain ⟨w2, hexec, heq⟩ := hmap
  rw [Prod.mk.injEq, Prod.mk.injEq] at heq
  obtain ⟨hnow, hwork, hexp⟩ := heq
  have hrun : Run (SparesTimer 7) w1 w2 :=
    run_of_exec (by simp [SparesTimer, startsTimer, deletesTimer]) hexec
  have hexact := (timer_exact hboot hstep).1 rfl hrun
  have hfuture : sub32 0 (0xffffffff % 2 ^ 32) < 2 ^ 31 := by decide
  simp only [hexp, World.boot, initTimersCpu, if_pos hfuture] at hexact
  obtain ⟨due, hdue, hcases⟩ := hexact
  refine ⟨_, w1, w2, hboot, hstep, hrun, ?_⟩
  have hdue' : due = 2 ^ 32 := by omega
  subst hdue'
  rw [hnow, hwork] at hcases
  rcases hcases with ⟨h, -⟩ | ⟨-, h, -⟩ | ⟨-, -, h⟩
  · omega
  · cases h
  · exact h

end NestLinux.Timer
