import Mathlib.Data.Nat.Notation

/-!
# Interpreters that stop

An interpreter takes a state to the next one or stops with a result. `runFor` takes at
most so many steps. The rule for showing that an interpreter stops well
(`runFor_done_of_measure`) asks for an invariant and for a measure that every step
lowers; the run is then no longer than the measure of the state it starts in.
-/

namespace NestLinux.Lib

variable {σ ρ : Type*}

/-- One step goes on in a state or stops with a result. -/
inductive Outcome (σ ρ : Type*)
  | next (s : σ)
  | done (r : ρ)
  deriving DecidableEq, Repr

/-- Up to `n` steps of an interpreter. -/
def runFor (step : σ → Outcome σ ρ) : ℕ → σ → Outcome σ ρ
  | 0, s => .next s
  | n + 1, s =>
    match step s with
    | .next t => runFor step n t
    | .done r => .done r

@[simp] theorem runFor_zero : runFor step 0 s = .next s := rfl

variable {step : σ → Outcome σ ρ} {s : σ} {n : ℕ}

theorem runFor_succ_next {t : σ} (h : step s = .next t) :
    runFor step (n + 1) s = runFor step n t := by
  simp [runFor, h]

theorem runFor_succ_done {r : ρ} (h : step s = .done r) : runFor step (n + 1) s = .done r := by
  simp [runFor, h]

/-- What a step may do from a state of the invariant. -/
def SafeStep (inv : σ → Prop) (measure : σ → ℕ) (good : ρ → Prop) (s : σ) : Outcome σ ρ → Prop
  | .next t => inv t ∧ measure t < measure s
  | .done r => good r

/-- Going on in a state of the invariant, or stopping well. -/
def Keeps (inv : σ → Prop) (good : ρ → Prop) : Outcome σ ρ → Prop
  | .next t => inv t
  | .done r => good r

section Rules

variable {inv : σ → Prop} {measure : σ → ℕ} {good : ρ → Prop}

/-- **The invariant along a run**, however long it is. -/
theorem runFor_keeps (hsp : ∀ s, inv s → Keeps inv good (step s)) (n : ℕ) (hs : inv s) :
    Keeps inv good (runFor step n s) := by
  induction n generalizing s with
  | zero => exact hs
  | succ n ih =>
    have hkp := hsp s hs
    cases hst : step s with
    | next t =>
      rw [hst] at hkp
      rw [runFor_succ_next hst]
      exact ih hkp
    | done r =>
      rw [hst] at hkp
      rw [runFor_succ_done hst]
      exact hkp

theorem SafeStep.keeps {o : Outcome σ ρ} (h : SafeStep inv measure good s o) :
    Keeps inv good o := by
  cases o with
  | next t => exact h.1
  | done r => exact h

/-- **The run stops.** An interpreter whose steps lower a measure stops, with a good
result, in no more steps than the measure of the state it starts in. -/
theorem runFor_done_of_measure (hsp : ∀ s, inv s → SafeStep inv measure good s (step s))
    (hs : inv s) (hn : measure s < n) : ∃ r, runFor step n s = .done r ∧ good r := by
  induction n generalizing s with
  | zero => omega
  | succ n ih =>
    have hsf := hsp s hs
    cases hst : step s with
    | next u =>
      rw [hst] at hsf
      rw [runFor_succ_next hst]
      exact ih hsf.1 (Nat.lt_of_lt_of_le hsf.2 (Nat.lt_succ_iff.1 hn))
    | done r =>
      rw [hst] at hsf
      exact ⟨r, runFor_succ_done hst, hsf⟩

end Rules

theorem runFor_add {t : σ} (h : runFor step n s = .next t)
    (m : ℕ) : runFor step (n + m) s = runFor step m t := by
  induction n generalizing s with
  | zero =>
    cases h
    rw [Nat.zero_add]
  | succ n ih =>
    rw [Nat.add_right_comm]
    cases hst : step s with
    | next u =>
      rw [runFor_succ_next hst] at h ⊢
      exact ih h
    | done r =>
      rw [runFor_succ_done hst] at h
      cases h

theorem runFor_done_mono {m : ℕ} {r : ρ}
    (h : runFor step n s = .done r) (hle : n ≤ m) : runFor step m s = .done r := by
  induction n generalizing s m with
  | zero => cases h
  | succ n ih =>
    obtain ⟨m, rfl⟩ := Nat.exists_eq_add_of_le' (Nat.lt_of_lt_of_le (Nat.succ_pos n) hle)
    cases hst : step s with
    | next t =>
      rw [runFor_succ_next hst] at h ⊢
      exact ih h (by omega)
    | done r' =>
      rw [runFor_succ_done hst] at h ⊢
      exact h

/-- **Two interpreters in step.** Where the first one stops, the second one is in a state that
belongs to the last state of the first. -/
theorem runFor_simulation {σ' ρ' : Type*} {step' : σ' → Outcome σ' ρ'} {rel : σ → σ' → Prop}
    (hsp : ∀ s s' t, rel s s' → step s = .next t → ∃ t', step' s' = .next t' ∧ rel t t')
    {s' : σ'} {r : ρ} (hrel : rel s s') (hr : runFor step n s = .done r) :
    ∃ k t t', k < n ∧ rel t t' ∧ step t = .done r ∧
      ∀ m, runFor step' (k + m) s' = runFor step' m t' := by
  induction n generalizing s s' with
  | zero => cases hr
  | succ n ih =>
    cases hst : step s with
    | next t =>
      obtain ⟨t', hst', hrel'⟩ := hsp s s' t hrel hst
      rw [runFor_succ_next hst] at hr
      obtain ⟨k, u, u', hk, hu, hdn, hrs⟩ := ih hrel' hr
      refine ⟨k + 1, u, u', by omega, hu, hdn, ?_⟩
      intro m
      rw [Nat.add_right_comm, runFor_succ_next hst', hrs m]
    | done r' =>
      rw [runFor_succ_done hst] at hr
      cases hr
      refine ⟨0, s, s', Nat.succ_pos n, hrel, hst, ?_⟩
      intro m
      rw [Nat.zero_add]

end NestLinux.Lib
