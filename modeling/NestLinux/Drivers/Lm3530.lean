import Mathlib.Data.List.Basic

/-!
# The LM3530 backlight in manual mode

`drivers/video/backlight/lm3530_bl.c`: the chip is configured when it is enabled, by
`lm3530_init_registers`, and then the brightness is set. Each write on the bus succeeds or fails
as an oracle says, by its number in the call. The state also holds the writes that succeeded since
the enable line last rose.
-/

namespace NestLinux.Lm3530

open List

/-- The fields of `struct lm3530_platform_data` that manual mode reads. -/
structure PlatformData where
  maxCurrent : ℕ
  brtRampLaw : Bool
  brtRampFall : ℕ
  brtRampRise : ℕ
  maxBrightness : ℕ

/-- `struct lm3530_data`, the enable line, and what was written. -/
structure Driver where
  enable : Bool := false
  brightness : ℕ := 0
  line : Bool := false
  written : List (ℕ × ℕ) := []

def gpioSetValue (d : Driver) (v : Bool) : Driver :=
  if v && !d.line then { d with line := true, written := [] }
  else { d with line := v }

def lm3530Reg : List ℕ :=
  [0x10, 0x20, 0x30, 0x40, 0x41, 0xA0, 0x60, 0x61, 0x62, 0x63, 0x70, 0x71, 0x72, 0x73, 0x74]

variable (p : PlatformData)

def genConfig : ℕ :=
  (p.brtRampLaw.toNat <<< 1 ||| (p.maxCurrent &&& 7) <<< 2) % 256

def regVal : List ℕ :=
  [genConfig p, 0, (p.brtRampFall ||| p.brtRampRise <<< 3) % 256, 0, 0, 0, 0, 0, 0, 0, 0x7F, 0x66,
    0x4C, 0x33, 0x19]

/-- The loop over the registers: the writes before the first one that fails. -/
def writeRegs (ok : ℕ → Bool) : ℕ → List (ℕ × ℕ) → List (ℕ × ℕ)
  | _, [] => []
  | i, w :: ws => if ok i then w :: writeRegs ok (i + 1) ws else []

/-- What `lm3530_init_registers` writes in its loop. -/
def loopWrites : List (ℕ × ℕ) := lm3530Reg.zip (regVal p)

/-- `lm3530_init_registers`, and whether it returns 0. -/
def lm3530InitRegisters (ok : ℕ → Bool) (d : Driver) : Driver × Bool :=
  let d := if d.enable then d else { gpioSetValue d true with enable := true }
  let done := writeRegs ok 0 (loopWrites p)
  let last := if ok 15 then [(0x10, genConfig p ||| 1)] else []
  ({ d with written := d.written ++ done ++ last }, ok 15)

/-- The brightness is written, and recorded if that succeeds. -/
def setBrightness (ok : ℕ → Bool) (b : ℕ) (d : Driver) : Driver × Bool :=
  if ok 16 then ({ d with brightness := b, written := d.written ++ [(0xA0, b)] }, true)
  else (d, false)

/-- `lm3530_update_status`, and whether it records a brightness; `none` is its `BUG_ON`. -/
def lm3530UpdateStatus (b : ℕ) (blank : Bool) (ok : ℕ → Bool) (d : Driver) :
    Option (Driver × Bool) :=
  let b := if blank then 0 else b
  if p.maxBrightness < b then none
  else if d.enable then some (setBrightness ok b d)
  else
    let r := lm3530InitRegisters p ok d
    some (if r.2 then setBrightness ok b r.1 else (r.1, false))

/-- `lm3530_resume` calls `lm3530_update_status`. -/
inductive Event
  | update (b : ℕ) (blank : Bool) (ok : ℕ → Bool)
  | suspend
  | resume (b : ℕ) (blank : Bool) (ok : ℕ → Bool)

def step (d : Driver) : Event → Option (Driver × Bool)
  | .update b blank ok | .resume b blank ok => lm3530UpdateStatus p b blank ok d
  | .suspend => some ({ gpioSetValue d false with enable := false }, false)

/-- Some events from the probe on: the state, and whether the last event recorded a brightness. -/
def run (es : List Event) : Option (Driver × Bool) :=
  es.foldlM (fun s e => step p s.1 e) ({}, false)

/-- What the bus does in the call that raises the enable line. -/
def enabledBy (o : Option (ℕ → Bool)) : Event → Option (ℕ → Bool)
  | .update _ _ ok | .resume _ _ ok => some (o.getD ok)
  | .suspend => none

variable {p : PlatformData} {d : Driver} {e : Event} {s s' : Driver × Bool} {ok : ℕ → Bool} {b : ℕ}
  {o : Option (ℕ → Bool)}

/-- Every register of `lm3530_init_registers` was written. -/
def Configured (p : PlatformData) (d : Driver) : Prop :=
  ∀ w ∈ loopWrites p ++ [(0x10, genConfig p ||| 1)], w ∈ d.written

instance (p : PlatformData) (d : Driver) : Decidable (Configured p d) :=
  inferInstanceAs (Decidable (∀ w ∈ _, _))

/-- After a failure the last write of the loop or the one after the loop is missing. -/
structure Inv (p : PlatformData) (o : Option (ℕ → Bool)) (s : Driver × Bool) : Prop where
  line : s.1.line = s.1.enable
  enable : s.1.enable = o.isSome
  recorded : s.2 = true → s.1.enable = true
  configured : ∀ ok ∈ o, (∀ i < 16, ok i = true) → Configured p s.1
  missing : ∀ ok ∈ o, (¬ ∀ i < 16, ok i = true) →
    (0x74, 0x19) ∉ s.1.written ∨ (0x10, genConfig p ||| 1) ∉ s.1.written

theorem writeRegs_eq_iff (ws : List (ℕ × ℕ)) :
    ∀ i, writeRegs ok i ws = ws ↔ ∀ j < ws.length, ok (i + j) = true := by
  induction ws with
  | nil => simp [writeRegs]
  | cons w ws ih =>
    intro i
    rw [writeRegs, length_cons, Nat.forall_lt_succ_left]
    cases ok i <;> simp [ih (i + 1), Nat.add_assoc, Nat.add_comm 1]

theorem writeRegs_concat (w : ℕ × ℕ) (ws : List (ℕ × ℕ)) :
    ∀ i, writeRegs ok i (ws ++ [w]) = ws ++ [w] ∨ writeRegs ok i (ws ++ [w]) ⊆ ws := by
  induction ws with
  | nil =>
    intro i
    cases h : ok i <;> simp [writeRegs]
  | cons v ws ih =>
    intro i
    cases h : ok i with
    | false => simp [writeRegs, h]
    | true =>
      simp only [cons_append, writeRegs, h]
      exact (ih (i + 1)).imp (congrArg (v :: ·)) (cons_subset_cons v)

/-- A loop that breaks off does not get to the last register. -/
theorem not_mem_writeRegs (h : writeRegs ok 0 (loopWrites p) ≠ loopWrites p) :
    (0x74, 0x19) ∉ writeRegs ok 0 (loopWrites p) := by
  have hlast : loopWrites p = (loopWrites p).dropLast ++ [(0x74, 0x19)] := rfl
  intro hm
  rw [hlast] at h hm
  have hsub := (writeRegs_concat _ _ 0).resolve_left h hm
  simp [loopWrites, lm3530Reg, regVal] at hsub

theorem not_mem_loopWrites : (0x10, genConfig p ||| 1) ∉ loopWrites p := by
  have hne : genConfig p ||| 1 ≠ genConfig p := fun h => by
    have hb := congrArg (Nat.testBit · 0) h
    simp [genConfig] at hb
  simp [loopWrites, lm3530Reg, regVal, hne]

theorem init_inv (h : Inv p o (d, false)) (hd : d.enable = false) :
    Inv p (some ok) ((lm3530InitRegisters p ok d).1, false) := by
  have hline : d.line = false := h.line.trans hd
  have hall : (∀ i < 16, ok i = true) ↔
      writeRegs ok 0 (loopWrites p) = loopWrites p ∧ ok 15 = true := by
    rw [writeRegs_eq_iff, show (loopWrites p).length = 15 from rfl, Nat.forall_lt_succ_right]
    simp only [Nat.zero_add]
  simp only [lm3530InitRegisters, hd, gpioSetValue, hline, Bool.false_eq_true, if_false,
    Bool.not_false, Bool.and_self, if_true, nil_append]
  refine ⟨rfl, rfl, nofun, ?_, ?_⟩ <;> rintro _ ⟨⟩ hok
  · obtain ⟨hloop, hlast⟩ := hall.1 hok
    simpa only [Configured, hloop, hlast, if_true] using fun w hw => hw
  rw [hall, not_and] at hok
  by_cases hloop : writeRegs ok 0 (loopWrites p) = loopWrites p
  · right
    simpa [hloop, hok hloop] using not_mem_loopWrites
  · cases ok 15 <;> simp [not_mem_writeRegs hloop]

theorem setBrightness_inv (h : Inv p o (d, false)) (hd : d.enable = true) :
    Inv p o (setBrightness ok b d) := by
  unfold setBrightness
  split
  · refine ⟨h.line, h.enable, fun _ => hd, fun ok hok hall w hw => ?_, fun ok hok hnot => ?_⟩
    · exact mem_append_left _ (h.configured ok hok hall w hw)
    · simpa using h.missing ok hok hnot
  · exact h

theorem step_inv (h : Inv p o s) (hs : step p s.1 e = some s') : Inv p (enabledBy o e) s' := by
  have hd : Inv p o (s.1, false) := ⟨h.line, h.enable, nofun, h.configured, h.missing⟩
  have hupd {b blank ok} (hs : lm3530UpdateStatus p b blank ok s.1 = some s') :
      Inv p (some (o.getD ok)) s' := by
    simp only [lm3530UpdateStatus] at hs
    generalize (if blank then 0 else b) = c at hs
    have hen := h.enable
    split_ifs at hs with _ he hret <;> cases hs
    · obtain ⟨ok', rfl⟩ := Option.isSome_iff_exists.1 (hen.symm.trans he)
      exact setBrightness_inv hd he
    all_goals
      have he : s.1.enable = false := by simpa using he
      obtain rfl : o = none := by simpa using hen.symm.trans he
    · exact setBrightness_inv (init_inv hd he) (by simp [lm3530InitRegisters, he])
    · exact init_inv hd he
  cases e with
  | update b blank ok => exact hupd hs
  | resume b blank ok => exact hupd hs
  | suspend =>
    cases hs
    exact ⟨by simp [gpioSetValue], rfl, nofun, nofun, nofun⟩

theorem foldlM_inv (es : List Event) : ∀ {o s}, Inv p o s →
    es.foldlM (fun s e => step p s.1 e) s = some s' → Inv p (es.foldl enabledBy o) s' := by
  induction es with
  | nil =>
    intro o s h hs
    cases hs
    exact h
  | cons e es ih =>
    intro o s h hs
    obtain ⟨t, ht, hs⟩ := Option.bind_eq_some_iff.1 hs
    exact ih (step_inv h ht) hs

/-- Where a brightness is recorded, the chip is configured just if all the sixteen writes of the
configuration succeeded in the call that raised the enable line. -/
theorem configured_iff {es : List Event} (h : run p es = some (d, true)) :
    Configured p d ↔ ∃ ok, es.foldl enabledBy none = some ok ∧ ∀ i < 16, ok i = true := by
  have hinv := foldlM_inv (o := none) es ⟨rfl, rfl, by simp, nofun, nofun⟩ h
  obtain ⟨ok, hok⟩ := Option.isSome_iff_exists.1 (hinv.enable.symm.trans (hinv.recorded rfl))
  rw [hok] at hinv ⊢
  refine ⟨fun hc => ⟨ok, rfl, ?_⟩, fun ⟨_, heq, hall⟩ => hinv.configured _ heq hall⟩
  by_contra hnot
  rcases hinv.missing ok rfl hnot with hm | hm
  · exact hm (hc _ (by simp [loopWrites, lm3530Reg, regVal]))
  · exact hm (hc _ (by simp))

/-- The platform data of a board. -/
def board : PlatformData := ⟨2, false, 0, 0, 127⟩

/-- The fourth write on the bus fails, and the brightness is recorded all the same. -/
theorem configured_fails :
    ∃ d, run board [.update 100 false (· ≠ 3)] = some (d, true) ∧ ¬ Configured board d :=
  ⟨_, rfl, by decide⟩

/-- The call after the failure configures the chip, because it was disabled in between. -/
theorem configured_iff_board :
    ∃ d, run board [.update 100 false (· ≠ 3), .suspend, .resume 100 false fun _ => true] =
      some (d, true) ∧ Configured board d :=
  have hrun : run board [.update 100 false (· ≠ 3), .suspend, .resume 100 false fun _ => true] =
    some (_, true) := rfl
  ⟨_, hrun, (configured_iff hrun).2 ⟨_, rfl, fun _ _ => rfl⟩⟩

end NestLinux.Lm3530
