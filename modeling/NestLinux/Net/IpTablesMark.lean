import NestLinux.Net.IpTablesRules

/-!
# Marking finds the loops

`mark_source_chains` is a depth-first search of the program of the rules (`flow`), from the
entry of each hook in turn. Its path is in the packet counters, each of which has the
position of the rule before it on the path, and in a bit of `comefrom`; the rules that were
seen have the bit of the hook. Every step of it is a step of the search, so it finds a loop
exactly where there is one, and otherwise leaves in `comefrom` the hooks that reach a rule.
-/

namespace NestLinux.IpTables

open Lib List

variable {c f p q a : ℕ} {rest : List ℕ}

/-- The packet counters lead back along a path; that of its first rule leads to itself. -/
def Linked (b : Buffer) : ℕ → List ℕ → Prop
  | c, [] => pcnt b c = c
  | c, q :: rest => pcnt b c = q ∧ Linked b q rest

theorem Linked.congr {b b' : Buffer} {path : List ℕ} (h : Linked b c path)
    (heq : ∀ x ∈ c :: path, pcnt b' x = pcnt b x) : Linked b' c path := by
  induction path generalizing c with
  | nil =>
    rw [Linked, heq c mem_cons_self]
    exact h
  | cons q rest ih =>
    refine ⟨(heq c mem_cons_self).trans h.1, ih h.2 ?_⟩
    exact fun x hx => heq x (mem_cons_of_mem c hx)

/-- The trace of a search for hook `h` in a block: the bits that were there before are those of
`base`. -/
structure Trace (b0 : Buffer) (rules : Finset ℕ) (h : ℕ) (base : ℕ → ℕ → Prop)
    (s : Flow.Search ℕ) (b : Buffer) : Prop where
  agree : Agree rules b0 b
  bits : ∀ p ∈ rules, ∀ i, (comefrom b p).testBit i = true ↔
    base p i ∨ i = h ∧ p ∈ s.seen ∨ i = numHooks ∧ (p ∈ s.path ∨ s.back = true ∧ p = s.top)
  zero : ∀ p ∈ rules, p ≠ s.top → p ∉ s.path → pcnt b p = 0
  linked : s.top ∉ s.path → Linked b s.top s.path
  bcnt : ∀ p ∈ rules, bcnt b p = bcnt b0 p

/-- A search from the entry of hook `h`, in a block. -/
structure Marking (b0 : Buffer) (rules : Finset ℕ) (h : ℕ) (base : ℕ → ℕ → Prop) (start : ℕ)
    (s : Flow.Search ℕ) (b : Buffer) : Prop extends Trace b0 rules h base s b where
  searched : Flow.Searched (flow b0) start s

def markAt (h : ℕ) (s : Flow.Search ℕ) (b : Buffer) : Mark :=
  if s.back then .back h s.top b else .visit h s.top b

section Step

variable {b0 b : Buffer} {rs : Finset ℕ} {h : ℕ} {base : ℕ → ℕ → Prop} {start : ℕ}
  {s : Flow.Search ℕ}

section

variable (hm : Trace b0 rs h base s b)

include hm

/-- The bit of the way at the rule that is visited. -/
theorem Trace.testBit_way (hh : h < numHooks)
    (hba : ∀ p i, base p i → i < h) (htp : s.top ∈ rs) (hbk : s.back = false) :
    (comefrom b s.top).testBit numHooks = decide (s.top ∈ s.path) := by
  rw [Bool.eq_iff_iff, hm.bits s.top htp, decide_eq_true_eq, hbk]
  constructor
  · intro hor
    rcases hor with hold | hse | hway
    · have := hba _ _ hold
      omega
    · omega
    · exact hway.2.elim id fun hc => absurd hc.1 Bool.false_ne_true
  · exact fun hph => .inr (.inr ⟨rfl, .inl hph⟩)

theorem Trace.testBit_hook (hh : h < numHooks) (hba : ∀ p i, base p i → i < h)
    (htp : s.top ∈ rs) : (comefrom b s.top).testBit h = decide (s.top ∈ s.seen) := by
  rw [Bool.eq_iff_iff, hm.bits s.top htp, decide_eq_true_eq]
  constructor
  · intro hor
    rcases hor with hold | hse | hway
    · have := hba _ _ hold
      omega
    · exact hse.2
    · omega
  · exact fun hse => .inr (.inl ⟨rfl, hse⟩)

section

variable (hr : Rules b0 rs)

include hr

/-- The marking turns back at a rule. -/
theorem Trace.turn (hh : h < numHooks) (hmm : ∀ q ∈ s.top :: s.path, q ∈ rs)
    (hph : s.top ∉ s.path) (hbk : s.back = false) :
    Trace b0 rs h base ⟨insert s.top s.seen, s.path, s.top, true⟩ (marked b h s.top) := by
  have hr' := hr.agree hm.agree
  have htp := hmm s.top mem_cons_self
  refine ⟨hm.agree.trans (marked_agree b h htp), ?_, ?_, ?_, ?_⟩
  · intro p hp i
    rw [comefrom_marked hr' htp hp hh, hm.bits p hp, hbk]
    simp only [Finset.mem_insert, Bool.false_eq_true, false_and, or_false, true_and]
    tauto
  · intro p hp h1 h2
    rw [pcnt_marked hr' htp hp]
    exact hm.zero p hp h1 h2
  · intro _
    exact (hm.linked hph).congr fun x hx => pcnt_marked hr' htp (hmm x hx) h
  intro p hp
  rw [bcnt_marked hr' htp hp]
  exact hm.bcnt p hp

/-- The marking goes on from a rule to another one, and writes the way back. -/
theorem Trace.goOn (hsz : b0.size ≤ 2 ^ 32) (hmm : ∀ q ∈ s.top :: s.path, q ∈ rs)
    (hph : s.top ∉ s.path) (hbk : s.back = true) (hcm : c ∈ rs) :
    Trace b0 rs h base ⟨s.seen, s.top :: s.path, c, false⟩ (b.put (c + 96) 8 s.top) := by
  have hlt : s.top < 2 ^ 64 := by
    have hin := (hr s.top (hmm s.top mem_cons_self)).header
    omega
  refine ⟨hm.agree.put hcm (by omega) (by omega) _, ?_, ?_, ?_, ?_⟩
  · intro p hp i
    rw [comefrom_put hr hcm hp, hm.bits p hp, hbk]
    simp [or_comm]
  · intro p hp h1 h2
    rw [mem_cons, not_or] at h2
    rw [pcnt_put hr hcm hp _ hlt, if_neg h1]
    exact hm.zero p hp h2.1 h2.2
  · intro hcp
    refine ⟨?_, (hm.linked hph).congr ?_⟩
    · rw [pcnt_put hr hcm hcm _ hlt, if_pos rfl]
    intro x hx
    have hxc : x ≠ c := by
      rintro rfl
      exact hcp hx
    rw [pcnt_put hr hcm (hmm x hx) _ hlt, if_neg hxc]
  · intro p hp
    rw [bcnt_put hr hcm hp]
    exact hm.bcnt p hp

/-- On the way back the rule is taken off the way. -/
theorem Trace.bits_unmarked (hh : h < numHooks) (hba : ∀ p i, base p i → i < h)
    (htp : s.top ∈ rs) (hbk : s.back = true) (hn : s.top ∉ s.path) (hp : p ∈ rs) (i : ℕ) :
    (comefrom (unmarked b s.top) p).testBit i = true ↔
      base p i ∨ i = h ∧ p ∈ s.seen ∨ i = numHooks ∧ p ∈ s.path := by
  have hst : (comefrom b s.top).testBit numHooks = true :=
    (hm.bits s.top htp numHooks).2 (.inr (.inr ⟨rfl, .inr ⟨hbk, rfl⟩⟩))
  rw [comefrom_unmarked (hr.agree hm.agree) htp hp hst, hm.bits p hp, hbk]
  by_cases hi : i = numHooks
  · subst hi
    have hold : ¬ base p numHooks := by
      intro hc
      have := hba p numHooks hc
      omega
    have hih : numHooks ≠ h := by omega
    simp only [hold, hih, false_and, false_or, true_and, and_true]
    constructor
    · rintro ⟨hph | heq, hne⟩
      · exact hph
      · exact absurd heq hne
    intro hph
    refine ⟨.inl hph, ?_⟩
    rintro rfl
    exact hn hph
  · simp [hi]

theorem Trace.zero_unmarked (htp : s.top ∈ rs) (hp : p ∈ rs)
    (hph : p ∉ s.path) : pcnt (unmarked b s.top) p = 0 := by
  rw [pcnt_unmarked (hr.agree hm.agree) htp hp]
  split_ifs with hpt
  · rfl
  · exact hm.zero p hp hpt hph

/-- The marking is back at a rule from the one after it on the way. -/
theorem Trace.pop (hh : h < numHooks) (hba : ∀ p i, base p i → i < h)
    (hmm : ∀ q ∈ s.top :: s.path, q ∈ rs) (hbk : s.back = true) (hn : s.top ∉ s.path)
    (hph : s.path = q :: rest) :
    Trace b0 rs h base ⟨s.seen, rest, q, true⟩ (unmarked b s.top) := by
  have htp := hmm s.top mem_cons_self
  have hlnk := hm.linked hn
  rw [hph] at hlnk
  refine ⟨hm.agree.trans (unmarked_agree b htp), ?_, ?_, ?_, ?_⟩
  · intro p hp i
    rw [hm.bits_unmarked hr hh hba htp hbk hn hp, hph]
    simp [or_comm]
  · intro p hp h1 h2
    exact hm.zero_unmarked hr htp hp (by simp [hph, h1, h2])
  · intro _
    refine hlnk.2.congr ?_
    intro x hx
    rw [← hph] at hx
    have hxt : x ≠ s.top := by
      rintro rfl
      exact hn hx
    rw [pcnt_unmarked (hr.agree hm.agree) htp (hmm x (mem_cons_of_mem _ hx)), if_neg hxt]
  · intro p hp
    rw [bcnt_unmarked (hr.agree hm.agree) htp hp]
    exact hm.bcnt p hp

end

end

theorem fall_eq_none_iff {b : Buffer} : (flow b).fall p = none ↔ ends b p = true := by
  simp only [flow]
  split_ifs with hen <;> simp [hen]

theorem fall_eq_some_iff {b : Buffer} :
    (flow b).fall p = some f ↔ ends b p = false ∧ p + nextOffset b p = f := by
  simp only [flow]
  split_ifs with hen <;> simp [hen]

/-- Where the marking writes a back pointer is a rule, and inside of the block. -/
theorem writePcnt_eq (hr : Rules b0 rs) (ha : Agree rs b0 b) (hc : c ∈ rs)
    (v : ℕ) : writePcnt b c v = .ok (b.put (c + 96) 8 v) := by
  have hle := (hr c hc).header
  unfold sizeofEntry at hle
  refine write_eq ?_ v
  rw [ha.size_eq]
  omega

theorem Marking.visit_eq (hm : Marking b0 rs h base start s b) (hr : Rules b0 rs)
    (hh : h < numHooks) (hba : ∀ p i, base p i → i < h) (htp : s.top ∈ rs)
    (hbk : s.back = false) : markVisit h s.top b = if s.top ∈ s.path then .error (.errno .eloop)
      else if ends b0 s.top = true ∨ s.top ∈ s.seen then
        if (flow b0).refuses true s.top then .error (.errno .eloop)
        else .ok (.back h s.top (marked b h s.top))
      else if (flow b0).refuses false s.top then .error (.errno .eloop) else do
        let c := ((flow b0).jump s.top).getD (s.top + nextOffset b0 s.top)
        let b' ← writePcnt (marked b h s.top) c s.top
        return .visit h c b' := by
  rw [markVisit_eq (hr.agree hm.agree) htp, hm.testBit_way hh hba htp hbk,
    hm.testBit_hook hh hba htp, hm.agree.ends_eq (hr s.top htp), hm.agree.refuses_eq (hr s.top htp),
    hm.agree.refuses_eq (hr s.top htp), hm.agree.jump_eq (hr s.top htp),
    hm.agree.nextOffset_eq (hr s.top htp)]
  simp

/-- What a step of the marking is for a step of the search: one that goes on in step, the end
of the hook, or the end of the marking. -/
def Follows (b0 : Buffer) (rules : Finset ℕ) (h : ℕ) (base : ℕ → ℕ → Prop) (start : ℕ)
    (s : Flow.Search ℕ) (b : Buffer) (m : Outcome Mark (Except Fail Buffer)) :
    Outcome (Flow.Search ℕ) (Flow.Found ℕ) → Prop
  | .next t => t.top ∈ rules → ∃ b', m = .next (markAt h t b') ∧ Marking b0 rules h base start t b'
  | .done (.all seen) => seen = s.seen ∧ s.back = true ∧ s.path = [] ∧
      m = .next (.hook (h + 1) (unmarked b s.top))
  | .done _ => m = .done (.error (.errno .eloop))

section

variable (hm : Marking b0 rs h base start s b) (hr : Rules b0 rs) (hsz : b0.size ≤ 2 ^ 32)
  (hh : h < numHooks) (hba : ∀ p i, base p i → i < h) (hmm : ∀ q ∈ s.top :: s.path, q ∈ rs)
  (info : Info) (validHooks : ℕ)

include hm hr hsz hh hba hmm

private theorem step_visit (hbk : s.back = false) :
    Follows b0 rs h base start s b (markStep info validHooks (markAt h s b))
      (Flow.searchStep (flow b0) s) := by
  have htp := hmm s.top mem_cons_self
  unfold Flow.searchStep
  have hvis := hm.visit_eq hr hh hba htp hbk
  rw [markAt, hbk]
  simp only [Bool.false_eq_true, if_false, markStep]
  by_cases hph : s.top ∈ s.path
  · rw [hvis, if_pos hph, if_pos hph]
    rfl
  rw [if_neg hph] at hvis ⊢
  cases hfa : (flow b0).fall s.top with
  | none =>
    rw [if_pos (.inl (fall_eq_none_iff.1 hfa))] at hvis
    simp only
    rw [hvis]
    split_ifs with href
    · rfl
    · exact fun _ => ⟨_, rfl, hm.turn hr hh hmm hph hbk, hm.searched.turn hph (.inl hfa)⟩
  | some f =>
    have hen := fall_eq_some_iff.1 hfa
    simp only
    by_cases hse : s.top ∈ s.seen
    · rw [if_pos (.inr hse)] at hvis
      rw [hvis]
      split_ifs with href
      · rfl
      have htr := hm.turn hr hh hmm hph hbk
      have hsea := hm.searched.turn hph (.inr hse)
      rw [Finset.insert_eq_self.2 hse] at htr hsea
      exact fun _ => ⟨_, rfl, htr, hsea⟩
    rw [if_neg (by simp [hen.1, hse]), hen.2] at hvis
    rw [hvis]
    split_ifs with href
    · rfl
    intro hc
    simp only [bind]
    rw [writePcnt_eq hr (hm.agree.trans (marked_agree b h htp)) hc]
    exact ⟨_, rfl, (hm.turn hr hh hmm hph hbk).goOn hr hsz hmm hph rfl hc,
      hm.searched.push hph hse hfa⟩

private theorem step_back (hbk : s.back = true) :
    Follows b0 rs h base start s b (markStep info validHooks (markAt h s b))
      (Flow.searchStep (flow b0) s) := by
  have htp := hmm s.top mem_cons_self
  unfold Flow.searchStep
  have hn := (hm.searched.back hbk).2
  have hlnk := hm.linked hn
  rw [markAt, hbk]
  simp only [if_true, markStep]
  have hmk {q : ℕ} := markBack_eq (q := q) (hr.agree hm.agree)
    (by rw [hm.agree.size_eq]; exact hsz) htp
  cases hph : s.path with
  | nil =>
    rw [hph] at hlnk
    rw [hmk htp hlnk, if_pos rfl]
    exact ⟨rfl, hbk, hph, rfl⟩
  | cons q rest =>
    have hq : q ∈ s.path := by simp [hph]
    have hqm := hmm q (mem_cons_of_mem _ hq)
    have hqt : q ≠ s.top := by
      rintro rfl
      exact hn hq
    have hpop := hm.pop hr hh hba hmm hbk hn hph
    rw [hph] at hlnk
    rw [hmk hqm hlnk.1, if_neg hqt, hm.agree.nextOffset_eq (hr _ hqm)]
    cases hfa : (flow b0).fall q with
    | none => exact absurd hfa (hm.searched.path_seen q hq).2
    | some f =>
      rw [(fall_eq_some_iff.1 hfa).2]
      simp only [hfa]
      split_ifs with hf
      · exact fun _ => ⟨_, rfl, hpop, hm.searched.pop hbk hph (hf ▸ hfa)⟩
      intro hc
      rw [writePcnt_eq hr (hm.agree.trans (unmarked_agree b htp)) hc]
      have hqn : q ∉ rest := (nodup_cons.1 (hph ▸ hm.searched.nodup)).1
      rw [hph] at hmm
      exact ⟨_, rfl, hpop.goOn hr hsz (fun x hx => hmm x (mem_cons_of_mem _ hx)) hqn rfl hc,
        hm.searched.along hbk hph hfa hf⟩

/-- **A step of the marking** follows one of the search. -/
theorem Marking.step : Follows b0 rs h base start s b (markStep info validHooks (markAt h s b))
    (Flow.searchStep (flow b0) s) := by
  cases hbk : s.back with
  | false => exact step_visit hm hr hsz hh hba hmm info validHooks hbk
  | true => exact step_back hm hr hsz hh hba hmm info validHooks hbk

end

end Step

/-! ## All hooks -/

section Hooks

variable {b0 b : Buffer} {rs : Finset ℕ} {validHooks : ℕ} {info : Info} {h : ℕ}

/-- The hooks before `h` are done: the rules have their bits, and the counters are 0. -/
structure Hooked (b0 : Buffer) (rules : Finset ℕ) (validHooks : ℕ) (entry : ℕ → ℕ) (h : ℕ)
    (b : Buffer) : Prop where
  agree : Agree rules b0 b
  bits : ∀ p ∈ rules, ∀ i, (comefrom b p).testBit i = true ↔
    i < h ∧ validHooks.testBit i = true ∧ (flow b0).Reach (entry i) p
  zero : ∀ p ∈ rules, pcnt b p = 0
  bcnt : ∀ p ∈ rules, bcnt b p = bcnt b0 p

/-- What the marking comes to: the hooks are all done and there is no loop, or a loop or a bad
rule is reached from a hook. -/
def MarkEnd (b0 : Buffer) (rules : Finset ℕ) (validHooks : ℕ) (entry : ℕ → ℕ) :
    Except Fail Buffer → Prop
  | .ok b => Hooked b0 rules validHooks entry numHooks b ∧
      ∀ h < numHooks, validHooks.testBit h = true → ¬ (flow b0).Loops (entry h)
  | .error f => f = .errno .eloop ∧ ∃ h < numHooks, validHooks.testBit h = true ∧
      ((flow b0).Loops (entry h) ∨
        ∃ again p, (flow b0).Reach (entry h) p ∧ (flow b0).refuses again p = true)

/-- The search from a rule meets no loop and no bad rule, and there is no loop. -/
def Passed (b0 : Buffer) (start : ℕ) : Prop := (flow b0).Completes start ∧ ¬ (flow b0).Loops start

/-- What the searches from the valid hooks get to is in a set of rules, up to the first hook whose
search meets a loop or a bad rule. -/
def MarkVisits (b0 : Buffer) (validHooks : ℕ) (entry : ℕ → ℕ) (rules : Finset ℕ) : Prop :=
  ∀ h < numHooks, validHooks.testBit h = true →
    (∀ i < h, validHooks.testBit i = true → (flow b0).Completes (entry i)) →
    ∀ p, (flow b0).Visits (entry h) p → p ∈ rules

section

variable (hk : Hooked b0 rs validHooks info.hookEntry h b)

include hk

/-- A hook that is not valid is passed over. -/
theorem Hooked.skip (hv : validHooks.testBit h = false) :
    Hooked b0 rs validHooks info.hookEntry (h + 1) b := by
  refine ⟨hk.agree, ?_, hk.zero, hk.bcnt⟩
  intro p hp i
  rw [hk.bits p hp]
  constructor
  · intro hi
    exact ⟨by omega, hi.2⟩
  intro hi
  refine ⟨?_, hi.2⟩
  have hne : i ≠ h := by
    rintro rfl
    rw [hv] at hi
    exact absurd hi.2.1 Bool.false_ne_true
  omega

section

variable (hr : Rules b0 rs) (hsz : b0.size ≤ 2 ^ 32)

include hr hsz

theorem Hooked.start (hmm : info.hookEntry h ∈ rs) : Marking b0 rs h
      (fun p i => i < h ∧ validHooks.testBit i = true ∧ (flow b0).Reach (info.hookEntry i) p)
      (info.hookEntry h) (Flow.searchFrom (info.hookEntry h))
      (b.put (info.hookEntry h + 96) 8 (info.hookEntry h)) := by
  have hlt : info.hookEntry h < 2 ^ 64 := by
    have hin := (hr _ hmm).header
    omega
  refine ⟨⟨hk.agree.put hmm (by omega) (by omega) _, ?_, ?_, ?_, ?_⟩, Flow.searched_start _ _⟩
  · intro p hp i
    rw [comefrom_put hr hmm hp, hk.bits p hp]
    simp [Flow.searchFrom]
  · intro p hp hne _
    have hne' : p ≠ info.hookEntry h := hne
    rw [pcnt_put hr hmm hp _ hlt, if_neg hne']
    exact hk.zero p hp
  · intro _
    exact (pcnt_put hr hmm hmm b hlt).trans (if_pos rfl)
  intro p hp
  rw [bcnt_put hr hmm hp]
  exact hk.bcnt p hp

/-- **One hook.** After so many steps the marking has stopped at a loop or a bad rule, or is at
the next hook. -/
theorem Hooked.hook (hh : h < numHooks) (hv : validHooks.testBit h = true)
    (hrh : ∀ p, (flow b0).Visits (info.hookEntry h) p → p ∈ rs) :
    ∃ k ≤ 8 * rs.card + 5, ((∃ b', Hooked b0 rs validHooks info.hookEntry (h + 1) b' ∧
          Passed b0 (info.hookEntry h) ∧
          ∀ m, runFor (markStep info validHooks) (k + m) (.hook h b) =
            runFor (markStep info validHooks) m (.hook (h + 1) b')) ∨
        (((flow b0).Loops (info.hookEntry h) ∨ ∃ again p,
            (flow b0).Reach (info.hookEntry h) p ∧ (flow b0).refuses again p = true) ∧
          ∀ m, runFor (markStep info validHooks) (k + m) (.hook h b) =
            .done (.error (.errno .eloop)))) := by
  have hin (s : Flow.Search ℕ) (hs : (flow b0).ComesTo (info.hookEntry h) s) :
      ∀ q ∈ s.top :: s.path, q ∈ rs := fun q hq => hrh q ⟨s, hs, hq⟩
  have hmm : info.hookEntry h ∈ rs := hin _ (Flow.comesTo_start _ _) _ mem_cons_self
  have hsta := hk.start hr hsz hmm
  have hba (p i : ℕ) (hi : i < h ∧ validHooks.testBit i = true ∧
      (flow b0).Reach (info.hookEntry i) p) : i < h := hi.1
  have hf : markStep info validHooks (.hook h b) =
      .next (markAt h (Flow.searchFrom (info.hookEntry h))
        (b.put (info.hookEntry h + 96) 8 (info.hookEntry h))) := by
    simp only [markStep]
    rw [if_neg (not_le.2 hh), hv, writePcnt_eq hr hk.agree hmm]
    rfl
  obtain ⟨r, hrun, he⟩ := Flow.search_found hrh (Nat.lt_succ_self _)
  obtain ⟨k, s, m', hlt, ⟨hs, b', rfl, hm⟩, hdn, hss⟩ :=
    runFor_simulation
      (fun s m t (hrel : (flow b0).ComesTo (info.hookEntry h) s ∧
          ∃ b, m = markAt h s b ∧ Marking b0 rs h _ _ s b) hst => by
        obtain ⟨hs, b, rfl, hm⟩ := hrel
        have hsp := hm.step hr hsz hh hba (hin s hs) info validHooks
        rw [hst] at hsp
        obtain ⟨b', hnx, hm'⟩ := hsp (hin t (hs.next hst) _ mem_cons_self)
        exact ⟨_, hnx, hs.next hst, b', rfl, hm'⟩)
      ⟨Flow.comesTo_start _ _, _, rfl, hsta⟩ hrun
  have hsto := hm.step hr hsz hh hba (hin s hs) info validHooks
  rw [hdn] at hsto
  have htot (m : ℕ) : runFor (markStep info validHooks) (k + 2 + m) (.hook h b) =
      runFor (markStep info validHooks) (m + 1) (markAt h s b') := by
    have hsm : k + 2 + m = (k + (m + 1)) + 1 := by omega
    rw [hsm, runFor_succ_next hf, hss]
  refine ⟨k + 2, by omega, ?_⟩
  cases r with
  | all seen =>
    obtain ⟨rfl, hbk, hph, hnx⟩ := hsto
    left
    have htp := hin s hs s.top mem_cons_self
    refine ⟨unmarked b' s.top, ⟨hm.agree.trans (unmarked_agree b' htp), ?_, ?_, ?_⟩,
      ⟨⟨_, _, hrun⟩, he.2⟩, ?_⟩
    · intro p hp i
      rw [hm.bits_unmarked hr hh hba htp hbk (hm.searched.back hbk).2 hp, he.1 p, hph]
      simp only [not_mem_nil, and_false, or_false]
      constructor
      · intro hor
        cases hor with
        | inl hold => exact ⟨by omega, hold.2⟩
        | inr hn =>
          rw [hn.1]
          exact ⟨by omega, hv, hn.2⟩
      · intro hi
        by_cases hih : i = h
        · rw [hih] at hi
          exact .inr ⟨hih, hi.2.2⟩
        · exact .inl ⟨by omega, hi.2⟩
    · intro p hp
      exact hm.zero_unmarked hr htp hp (by rw [hph]; exact not_mem_nil)
    · intro p hp
      rw [bcnt_unmarked (hr.agree hm.agree) htp hp]
      exact hm.bcnt p hp
    · intro m
      rw [htot, runFor_succ_next hnx]
  | loop => exact .inr ⟨.inl he, fun m => by rw [htot, runFor_succ_done hsto]⟩
  | refused => exact .inr ⟨.inr he, fun m => by rw [htot, runFor_succ_done hsto]⟩

/-- The hooks from `h` on. -/
theorem Hooked.run (hrh : MarkVisits b0 validHooks info.hookEntry rs)
    (hdn : ∀ i < h, validHooks.testBit i = true → Passed b0 (info.hookEntry i))
    {d : ℕ} (hd : h + d = numHooks) :
    ∃ r, runFor (markStep info validHooks) (d * (8 * rs.card + 5) + 1) (.hook h b) = .done r ∧
      MarkEnd b0 rs validHooks info.hookEntry r := by
  induction d generalizing h b with
  | zero =>
    have hh : h = numHooks := by omega
    subst hh
    exact ⟨.ok b, rfl, hk, fun i hi hv => (hdn i hi hv).2⟩
  | succ d ih =>
    have hh : h < numHooks := by omega
    cases hvl : validHooks.testBit h with
    | false =>
      have hsp : markStep info validHooks (.hook h b) = .next (.hook (h + 1) b) := by
        simp only [markStep]
        rw [if_neg (not_le.2 hh), hvl]
        rfl
      have hdn' (i : ℕ) (hi : i < h + 1) (hv : validHooks.testBit i = true) :
          Passed b0 (info.hookEntry i) := by
        by_cases hih : i = h
        · rw [hih, hvl] at hv
          exact absurd hv Bool.false_ne_true
        · exact hdn i (by omega) hv
      obtain ⟨r, hrun, he⟩ := ih (hk.skip hvl) hdn' (by omega)
      refine ⟨r, ?_, he⟩
      have hsm : (d + 1) * (8 * rs.card + 5) + 1 =
          (d * (8 * rs.card + 5) + 1 + (8 * rs.card + 4)) + 1 := by ring
      rw [runFor_succ_next hsp]
      exact runFor_done_mono hrun (by omega)
    | true =>
      obtain ⟨k, hkle, hcs⟩ := hk.hook hr hsz hh hvl
        (hrh h hh hvl fun i hi hv => (hdn i hi hv).1)
      have hsm : (d + 1) * (8 * rs.card + 5) + 1 =
          k + (d * (8 * rs.card + 5) + 1 + (8 * rs.card + 5 - k)) := by
        rw [add_mul]
        omega
      rw [hsm]
      rcases hcs with ⟨b', hk', hlps, hst⟩ | ⟨hb, hst⟩
      · have hdn' (i : ℕ) (hi : i < h + 1) (hv : validHooks.testBit i = true) :
            Passed b0 (info.hookEntry i) := by
          by_cases hih : i = h
          · rw [hih]
            exact hlps
          · exact hdn i (by omega) hv
        obtain ⟨r, hrun, he⟩ := ih hk' hdn' (by omega)
        refine ⟨r, ?_, he⟩
        rw [hst]
        exact runFor_done_mono hrun (by omega)
      · exact ⟨_, hst _, rfl, h, hh, hvl, hb⟩

end

end

/-- **The marking of a table.** Where the rules that the searches from the valid hooks get to lie
apart in the block, it comes to an end without an access outside of the block, and finds a loop, a
bad rule, or the hooks that reach each rule. -/
theorem markStep_run (hr : Rules b0 rs) (hsz : b0.size ≤ 2 ^ 32)
    (hrh : MarkVisits b0 validHooks info.hookEntry rs)
    (hc : ∀ p ∈ rs, comefrom b0 p = 0 ∧ pcnt b0 p = 0) :
    ∃ r, (∀ n ≥ numHooks * (8 * rs.card + 5) + 1,
        runFor (markStep info validHooks) n (.hook 0 b0) = .done r) ∧
      MarkEnd b0 rs validHooks info.hookEntry r := by
  have hk : Hooked b0 rs validHooks info.hookEntry 0 b0 := by
    refine ⟨Agree.refl rs b0, ?_, fun p hp => (hc p hp).2, fun _ _ => rfl⟩
    intro p hp i
    rw [(hc p hp).1]
    simp
  obtain ⟨r, hrun, he⟩ := hk.run hr hsz hrh nofun
    (zero_add numHooks)
  exact ⟨r, fun n hn => runFor_done_mono hrun hn, he⟩

end Hooks

/-! ## Tables -/

/-- Rules one after the other from a position to the end of the block: each is a header, some
matches and a target. -/
inductive Layout (b : Buffer) : ℕ → List ℕ → Prop
  | nil : Layout b b.size []
  | cons {p : ℕ} {rules : List ℕ} (le_target : sizeofEntry ≤ targetOffset b p)
      (target_le : targetOffset b p + 32 ≤ nextOffset b p)
      (standard_le : isStandard b p = true → targetOffset b p + 36 ≤ nextOffset b p)
      (rest : Layout b (p + nextOffset b p) rules) : Layout b p (p :: rules)

/-- A list of rules, laid out in a block: every jump and every hook leads to a rule, every
verdict is one, a rule that may be passed has a rule after it, and nothing is marked. -/
structure Table (b : Buffer) (info : Info) (validHooks : ℕ) (rules : List ℕ) : Prop where
  layout : Layout b 0 rules
  jumps : ∀ p ∈ rules, isStandard b p = true → 0 ≤ verdict b p → (verdict b p).toNat ∈ rules
  verdicts : ∀ p ∈ rules, isStandard b p = true → verdict b p < 0 → -5 - 1 ≤ verdict b p
  hooks : ∀ h < numHooks, validHooks.testBit h = true → info.hookEntry h ∈ rules
  follows : ∀ p ∈ rules, ends b p = false → p + nextOffset b p ∈ rules
  cleared : ∀ p ∈ rules, comefrom b p = 0 ∧ pcnt b p = 0 ∧ bcnt b p = 0

/-- The edges of the rules: to where a rule jumps, and to the next rule unless it ends its
chain. -/
def Leads (b : Buffer) (p q : ℕ) : Prop :=
  isStandard b p = true ∧ verdict b p = q ∨ ends b p = false ∧ p + nextOffset b p = q

section Tables

variable {b : Buffer} {info : Info} {validHooks : ℕ} {rs : List ℕ}

theorem Layout.mem_bounds (hl : Layout b a rs) : a ≤ b.size ∧ ∀ p ∈ rs,
    a ≤ p ∧ p + nextOffset b p ≤ b.size ∧ sizeofEntry ≤ targetOffset b p ∧
      targetOffset b p + 32 ≤ nextOffset b p ∧
      (isStandard b p = true → targetOffset b p + 36 ≤ nextOffset b p) := by
  induction hl with
  | nil => exact ⟨le_rfl, nofun⟩
  | cons h1 h2 h3 _ ih =>
    refine ⟨by omega, forall_mem_cons.2 ⟨⟨le_rfl, ih.1, h1, h2, h3⟩, fun p hmm => ?_⟩⟩
    have hrs := ih.2 p hmm
    exact ⟨by omega, hrs.2⟩

theorem Layout.apart (hl : Layout b a rs) : ∀ p ∈ rs, ∀ q ∈ rs, p < q → p + nextOffset b p ≤ q := by
  induction hl with
  | nil => nofun
  | @cons p0 ps _ _ _ rest ih =>
    intro p hp q hq hlt
    have hbds := rest.mem_bounds
    cases mem_cons.1 hq with
    | inl heq =>
      cases mem_cons.1 hp with
      | inl heq' => omega
      | inr hmm =>
        have := (hbds.2 p hmm).1
        omega
    | inr hqm =>
      cases mem_cons.1 hp with
      | inl heq' =>
        rw [heq']
        exact (hbds.2 q hqm).1
      | inr hmm => exact ih p hmm q hqm hlt

/-- What lies in a rule after its header is clear of every header. -/
theorem Layout.clear {o k : ℕ} (hl : Layout b a rs) (hp : p ∈ rs) (hq : q ∈ rs)
    (h1 : sizeofEntry ≤ o) (h2 : o + k ≤ nextOffset b p) : Clear q (p + o) k := by
  obtain ⟨-, -, hle, hin, -⟩ := hl.mem_bounds.2 q hq
  unfold Clear
  unfold sizeofEntry at h1 hle
  rcases lt_trichotomy p q with hlt | heq | hgt
  · have hap := hl.apart p hp q hq hlt
    omega
  · omega
  · omega

section

variable (ht : Table b info validHooks rs)

include ht

theorem Table.rules_toFinset : Rules b rs.toFinset := by
  have hbds := ht.layout.mem_bounds
  have hap := ht.layout.apart
  intro p hp
  rw [mem_toFinset] at hp
  obtain ⟨-, he, hle, hin, hsd⟩ := hbds.2 p hp
  refine ⟨by omega, ?_, ?_, ?_, ?_, ?_⟩
  · cases hen : ends b p with
    | true =>
      simp only [ends, Bool.and_eq_true] at hen
      have := hsd hen.1.1.2
      omega
    | false =>
      have hnx := hbds.2 _ (ht.follows p hp hen)
      omega
  · intro q hq hlt
    rw [mem_toFinset] at hq
    have hq' := hbds.2 q hq
    have := hap q hq p hp hlt
    omega
  · intro q hq hlt
    have := hap p hp q (mem_toFinset.1 hq) hlt
    omega
  · intro q hq
    rw [add_assoc]
    exact ht.layout.clear hp (mem_toFinset.1 hq) (by omega) (by omega)
  intro hs q hq
  have := hsd hs
  rw [add_assoc]
  exact ht.layout.clear hp (mem_toFinset.1 hq) (by omega) (by omega)

section

variable (hsz : b.size < 2 ^ 32) (hp : p ∈ rs)

include hsz hp

theorem Table.jumpsTooFar_eq_false (hsd : isStandard b p = true) (hps : 0 ≤ verdict b p) :
    jumpsTooFar b p = false := by
  have hbds := ht.layout.mem_bounds.2 _ (ht.jumps p hp hsd hps)
  have hle : sizeofEntry ≤ b.size := by omega
  rw [jumpsTooFar, decide_eq_false_iff_not, sub32_of_le hle (by omega)]
  omega

/-- The program of the rules is what the edges say. -/
theorem Table.edge_iff : (flow b).Edge p q ↔ Leads b p q := by
  have hjm : (flow b).jump p = some q ↔ isStandard b p = true ∧ verdict b p = q := by
    simp only [flow]
    constructor
    · intro hc
      split_ifs at hc with hcn
      simp only [Bool.and_eq_true, decide_eq_true_eq] at hcn
      rw [Option.some.injEq] at hc
      exact ⟨hcn.1.1, by omega⟩
    intro hc
    have hfar := ht.jumpsTooFar_eq_false hsz hp hc.1 (by omega)
    rw [if_pos, hc.2]
    · rfl
    simp only [hc.1, hfar, Bool.true_and, Bool.not_false, Bool.and_true, decide_eq_true_eq]
    omega
  rw [Flow.Edge, hjm, fall_eq_some_iff, Leads]

omit hsz hp in
theorem Table.leads_mem (hp : p ∈ rs) (hld : Leads b p q) : q ∈ rs := by
  cases hld with
  | inl hjm =>
    have hmm := ht.jumps p hp hjm.1 (by omega)
    rw [hjm.2] at hmm
    exact hmm
  | inr hnx =>
    rw [← hnx.2]
    exact ht.follows p hp hnx.1

theorem Table.refuses_eq_false (again : Bool) : (flow b).refuses again p = false := by
  simp only [flow]
  cases hsd : isStandard b p with
  | false => rfl
  | true =>
    cases again with
    | true =>
      simp only [Bool.true_and, if_true, decide_eq_false_iff_not]
      intro hb
      have := ht.verdicts p hp hsd (by omega)
      omega
    | false =>
      simp only [Bool.true_and, Bool.false_eq_true, if_false]
      by_cases hps : 0 ≤ verdict b p
      · rw [ht.jumpsTooFar_eq_false hsz hp hsd hps, Bool.and_false]
      · simp [hps]

theorem Table.reach_iff : (flow b).Reach p q ↔ Relation.ReflTransGen (Leads b) p q ∧ q ∈ rs := by
  constructor
  · intro hrh
    refine reflTransGen_of_closed ?_ hp hrh
    intro p hp q hed
    have hld := (ht.edge_iff hsz hp).1 hed
    exact ⟨hld, ht.leads_mem hp hld⟩
  · intro hrh
    refine (reflTransGen_of_closed ?_ hp hrh.1).1
    exact fun p hp q hld => ⟨(ht.edge_iff hsz hp).2 hld, ht.leads_mem hp hld⟩

end

theorem Table.loops_iff (hsz : b.size < 2 ^ 32) {start : ℕ}
    (hs : start ∈ rs) : (flow b).Loops start ↔
      ∃ p, Relation.ReflTransGen (Leads b) start p ∧ Relation.TransGen (Leads b) p p := by
  constructor
  · intro hlp
    obtain ⟨p, hrh, hcyc⟩ := hlp
    obtain ⟨hld, hp⟩ := (ht.reach_iff hsz hs).1 hrh
    refine ⟨p, hld, (transGen_of_closed ?_ hp hcyc).1⟩
    intro p hp q hed
    have hld := (ht.edge_iff hsz hp).1 hed
    exact ⟨hld, ht.leads_mem hp hld⟩
  · intro hlp
    obtain ⟨p, hld, hcyc⟩ := hlp
    have hsp (p : ℕ) (hp : p ∈ rs) (q : ℕ) (hld : Leads b p q) :
        (flow b).Edge p q ∧ q ∈ rs := ⟨(ht.edge_iff hsz hp).2 hld, ht.leads_mem hp hld⟩
    obtain ⟨hrh, hp⟩ := reflTransGen_of_closed hsp hs hld
    exact ⟨p, hrh, (transGen_of_closed hsp hp hcyc).1⟩

end

end Tables

/-- **Loop detection is exact.** On a list of rules laid out in a block, `mark_source_chains`
comes to an end. It returns 1 exactly when no loop is reached from the entry of a valid hook,
and then `comefrom` of each rule is the set of the hooks that reach it and all counters
are 0. -/
theorem markSourceChains_exact {b : Buffer} {info : Info} {validHooks : ℕ} {rules : List ℕ}
    (hsz : b.size < 2 ^ 32) (ht : Table b info validHooks rules) :
    ∃ r, (∀ n ≥ numHooks * (8 * rules.length + 5) + 1,
        runFor (markStep info validHooks) n (.hook 0 b) = .done r) ∧
      (r = .error (.errno .eloop) ∨ ∃ b', r = .ok b') ∧
      ((∃ b', r = .ok b') ↔ ∀ h < numHooks, validHooks.testBit h = true →
        ¬ ∃ p, Relation.ReflTransGen (Leads b) (info.hookEntry h) p ∧
          Relation.TransGen (Leads b) p p) ∧
      ∀ b', r = .ok b' → ∀ p ∈ rules,
        (∀ i, (comefrom b' p).testBit i = true ↔ i < numHooks ∧ validHooks.testBit i = true ∧
          Relation.ReflTransGen (Leads b) (info.hookEntry i) p) ∧
        pcnt b' p = 0 ∧ bcnt b' p = 0 := by
  have hr := ht.rules_toFinset
  have hvisits : MarkVisits b validHooks info.hookEntry rules.toFinset := fun h hh hv _ p hp =>
    mem_toFinset.2 ((ht.reach_iff hsz (ht.hooks h hh hv)).1 hp.reach).2
  obtain ⟨r, hrun, hend⟩ := markStep_run hr hsz.le hvisits
    (fun p hp => ⟨(ht.cleared p (mem_toFinset.1 hp)).1, (ht.cleared p (mem_toFinset.1 hp)).2.1⟩)
  refine ⟨r, ?_, ?_⟩
  · intro n hn
    have hcard := toFinset_card_le rules
    refine hrun n ?_
    have hmul := Nat.mul_le_mul_left numHooks (by omega : 8 * rules.toFinset.card + 5 ≤
      8 * rules.length + 5)
    omega
  cases r with
  | error f =>
    obtain ⟨hf, h, hh, hv, hbad⟩ := hend
    have hentry := ht.hooks h hh hv
    refine ⟨Or.inl (congrArg _ hf), ?_, fun b' hb' => by cases hb'⟩
    constructor
    · intro hok
      obtain ⟨b', hb'⟩ := hok
      cases hb'
    intro hno
    cases hbad with
    | inl hloop => exact absurd ((ht.loops_iff hsz hentry).1 hloop) (hno h hh hv)
    | inr hrefused =>
      obtain ⟨again, p, hp, hrefuse⟩ := hrefused
      rw [ht.refuses_eq_false hsz ((ht.reach_iff hsz hentry).1 hp).2] at hrefuse
      cases hrefuse
  | ok b' =>
    obtain ⟨hk, hloops⟩ := hend
    refine ⟨Or.inr ⟨b', rfl⟩, ⟨fun _ h hh hv => ?_, fun _ => ⟨b', rfl⟩⟩, ?_⟩
    · rw [← ht.loops_iff hsz (ht.hooks h hh hv)]
      exact hloops h hh hv
    intro b'' hb'' p hp
    cases hb''
    have hpfin := mem_toFinset.2 hp
    refine ⟨?_, hk.zero p hpfin, ?_⟩
    · intro i
      rw [hk.bits p hpfin]
      refine and_congr_right fun hi => and_congr_right fun hv => ?_
      rw [ht.reach_iff hsz (ht.hooks i hi hv)]
      exact and_iff_left hp
    · rw [hk.bcnt p hpfin]
      exact (ht.cleared p hp).2.2

/-- A block with two rules: the first one jumps to the second, which accepts. -/
def twoRules : Buffer :=
  ((((((⟨304, fun _ => 0⟩ : Buffer).put 88 2 112).put 90 2 152).put 144 4 152).put 240 2 112).put
    242 2 152).put 296 4 0xFFFFFFFE

theorem twoRules_table : Table twoRules { initInfo with hookEntry := fun _ => 0 } 1 [0, 152] where
  layout := by
    have hnx0 : 0 + nextOffset twoRules 0 = 152 := by decide
    have hnx1 : 152 + nextOffset twoRules 152 = twoRules.size := by decide
    refine .cons (by decide) (by decide) (by decide) ?_
    rw [hnx0]
    refine .cons (by decide) (by decide) (by decide) ?_
    exact .nil
  jumps := by decide
  verdicts := by decide
  hooks := fun _ _ _ => mem_cons_self
  follows := by decide +kernel
  cleared := by decide +kernel

/-- The marking of a run that returns 1. -/
def returnsOne (r : Outcome Mark (Except Fail Buffer)) : Bool :=
  match r with
  | .done (.ok _) => true
  | _ => false

/-- The marking ends, and returns 1. -/
theorem markSourceChains_exact_twoRules :
    ∃ b', (∀ n ≥ 106, runFor (markStep { initInfo with hookEntry := fun _ => 0 } 1) n
        (.hook 0 twoRules) = .done (.ok b')) ∧ pcnt b' 152 = 0 := by
  obtain ⟨r, hrun, -, -, hok⟩ :=
    markSourceChains_exact (show twoRules.size < 2 ^ 32 by decide) twoRules_table
  have heval : returnsOne (runFor (markStep { initInfo with hookEntry := fun _ => 0 } 1) 106
      (.hook 0 twoRules)) = true := by decide +kernel
  have hres : returnsOne (.done r) = true :=
    (congrArg returnsOne (hrun 106 (by decide))).symm.trans heval
  cases r with
  | ok b' => exact ⟨b', hrun, (hok b' rfl 152 (by decide)).2.1⟩
  | error f => cases hres

end NestLinux.IpTables
