import NestLinux.Net.IpTablesMark

/-!
# Loading a table stays in its block

`translate_table` walks over the rules and then follows their jumps. The walk checks that
the header of each rule is in the block and how far the next one is, but not where the
target of the rule is, and reads the name of the target; where a hook falls back to the
rule, also its verdict. The marking reads the target again, and jumps as far as the last
header that fits in the block, or to where the last rule of the table ends. So the walk
stays in the block exactly when the targets it reads do, and the marking stays there when
the jumps lead to rules whose targets are in the block and not in the counters that it
writes.
-/

namespace NestLinux.IpTables

open Lib Function List Buffer

variable {a : ℕ} {cs hs : List ℕ} {info : Info} {w : Walk}

/-! ## The walk over the rules -/

/-- The bytes that are compared with a string, up to the first difference, are in the
block. -/
def Comparable (b : Buffer) (a : ℕ) : List ℕ → Prop
  | [] => True
  | c :: cs => a < b.size ∧ (b.get a 1 = c → Comparable b (a + 1) cs)

/-- A valid hook falls back to the rule. -/
def IsUnderflow (repl : Replace) (p : ℕ) : Prop :=
  ∃ h < numHooks, repl.validHooks.testBit h = true ∧ repl.underflow h = p

/-- The rule is a policy: it has no condition, and drops or accepts. -/
def policy (b : Buffer) (p : ℕ) : Bool :=
  decide (b.get p 84 = 0) && isStandard b p && decide (verdict b p = -1 ∨ verdict b p = -2)

/-- The checks of the header of a rule. -/
structure Sized (b : Buffer) (p : ℕ) : Prop where
  aligned : p % 8 = 0
  header : p + sizeofEntry < b.size
  next : 144 ≤ nextOffset b p

structure Passes (repl : Replace) (b : Buffer) (p : ℕ) : Prop extends Sized b p where
  underflow : IsUnderflow repl p → policy b p = true

/-- The block with `comefrom` and the counters of a rule cleared. -/
def cleared (b : Buffer) (p : ℕ) : Buffer := (b.put (p + 96) 16 0).put (p + 92) 4 0

/-- The walk has passed some rules, is at a position and has cleared the block so far. -/
inductive Walked (repl : Replace) (b0 : Buffer) : List ℕ → ℕ → Buffer → Prop
  | start : Walked repl b0 [] 0 b0
  | next {ps : List ℕ} {p : ℕ} {b : Buffer} (walked : Walked repl b0 ps p b)
      (passes : Passes repl b p) : Walked repl b0 (p :: ps) (p + nextOffset b p) (cleared b p)

/-- What is read of the target of a policy is in the block. -/
def PolicyReadable (b : Buffer) (p : ℕ) : Prop :=
  b.get p 84 = 0 → p + targetOffset b p + 3 ≤ b.size ∧
    (isStandard b p = true → p + targetOffset b p + 36 ≤ b.size)

/-- What the walk reads of the target of a rule is in the block. -/
structure Readable (repl : Replace) (b : Buffer) (p : ℕ) : Prop where
  policy : IsUnderflow repl p → PolicyReadable b p
  name : (IsUnderflow repl p → IpTables.policy b p = true) →
    Comparable (cleared b p) (p + targetOffset b p + 2) errorTarget

/-- What the walk reads of the target of each rule it gets to is in the block. -/
def WalkInside (repl : Replace) (b0 : Buffer) : Prop :=
  ∀ ps p b, Walked repl b0 ps p b → Sized b p → Readable repl b p

/-- If the walk comes to its end, what the searches from the hooks get to before the first loop or
bad rule are rules of the table, whose targets are in the block and not in what is written at any of
them. -/
def MarkInside (repl : Replace) (b0 : Buffer) : Prop :=
  ∀ ps p b, Walked repl b0 ps p b → b.size ≤ p → ps.length = repl.numEntries →
    (∀ h < numHooks, repl.validHooks.testBit h = true →
      repl.hookEntry h ∈ ps ∧ repl.underflow h ∈ ps) →
    ∃ rules ⊆ ps.toFinset, Rules b rules ∧ MarkVisits b repl.validHooks repl.hookEntry rules

section Entry

variable {repl : Replace} {b : Buffer} {p : ℕ}

theorem strcmpEq_of_comparable (h : Comparable b a cs) : ∃ equal, strcmpEq b a cs = .ok equal := by
  induction cs generalizing a with
  | nil => exact ⟨true, rfl⟩
  | cons c cs ih =>
    have hin := h.1
    rw [strcmpEq, read_eq (by omega)]
    simp only [bind, Except.bind]
    split_ifs with heq
    · exact ih (h.2 heq)
    · exact ⟨false, rfl⟩

theorem strcmpEq_of_not_comparable (h : ¬ Comparable b a cs) : strcmpEq b a cs = .error .fault := by
  induction cs generalizing a with
  | nil => exact absurd trivial h
  | cons c cs ih =>
    by_cases hin : a < b.size
    · rw [strcmpEq, read_eq (by omega)]
      simp only [bind, Except.bind]
      split_ifs with heq
      · exact ih fun hc => h ⟨hin, fun _ => hc⟩
      · exact absurd ⟨hin, fun hc => absurd hc heq⟩ h
    · rw [strcmpEq, read, load_eq_none (by omega)]
      rfl

theorem read_eq_fault {k : ℕ} (h : b.size < a + k) : read b a k = .error .fault := by
  rw [read, load_eq_none h]

theorem isPolicy_iff {v : ℕ} (hv : v < 2 ^ 32) :
    2 ^ 32 - 1 - v = 0 ∨ 2 ^ 32 - 1 - v = 1 ↔ asInt v = -1 ∨ asInt v = -2 := by
  by_cases hlt : v < 2 ^ 31
  · rw [asInt]
    omega
  rw [asInt]
  omega

theorem checkUnderflow_eq (hp : p + sizeofEntry ≤ b.size) (hrd : PolicyReadable b p) :
    checkUnderflow b p = .ok (policy b p) := by
  unfold sizeofEntry at hp
  rw [checkUnderflow, unconditional, read_eq (by omega)]
  simp only [bind, Except.bind, pure, Except.pure, policy]
  by_cases hz : b.get p 84 = 0
  · obtain ⟨hnm, hver⟩ := hrd hz
    rw [decide_eq_true hz, readTargetOffset, read_eq (by omega), ← targetOffset]
    simp only
    rw [targetIs_standard hnm, ← isStandard]
    cases hsd : isStandard b p with
    | false => simp
    | true =>
      have := hver hsd
      rw [readVerdict, read_eq (by omega)]
      simp only [Bool.not_true, Bool.false_eq_true, if_false, Bool.true_and]
      rw [decide_eq_decide.2 (isPolicy_iff (get_lt b _ 4)), verdict]
  · rw [decide_eq_false hz]
    simp

theorem checkUnderflow_fault (hp : p + sizeofEntry ≤ b.size) (hrd : ¬ PolicyReadable b p) :
    checkUnderflow b p = .error .fault := by
  unfold PolicyReadable at hrd
  push Not at hrd
  obtain ⟨hz, hrd⟩ := hrd
  unfold sizeofEntry at hp
  rw [checkUnderflow, unconditional, read_eq (by omega)]
  simp only [bind, Except.bind]
  rw [decide_eq_true hz, readTargetOffset, read_eq (by omega), ← targetOffset]
  simp only
  by_cases hnm : p + targetOffset b p + 3 ≤ b.size
  · obtain ⟨hsd, hver⟩ := hrd hnm
    rw [targetIs_standard hnm, ← isStandard, hsd, readVerdict, read_eq_fault (by omega)]
    rfl
  · rw [targetIs, standardTarget, strcmpEq, read_eq_fault (by omega)]
    rfl

/-! ## The hooks at a rule -/

/-- A check of a policy that fails ends the loop over the hooks, where some hook falls back to
the rule. -/
theorem checkHooks_error {f : Fail}
    (hb : checkUnderflow b p = .error f ∨ checkUnderflow b p = .ok false ∧ f = .errno .einval)
    (hex : ∃ h ∈ hs, repl.validHooks.testBit h = true ∧ repl.underflow h = p) (info : Info) :
    checkHooks repl b p hs info = .error f := by
  induction hs generalizing info with
  | nil =>
    obtain ⟨h, hm, -⟩ := hex
    exact absurd hm not_mem_nil
  | cons h hs ih =>
    by_cases hchk : repl.validHooks.testBit h = true ∧ p = repl.underflow h
    · rw [checkHooks, hchk.1]
      simp only [Bool.not_true, Bool.false_eq_true, if_false, bind, Except.bind]
      rw [if_pos hchk.2]
      rcases hb with herr | ⟨hno, rfl⟩
      · rw [herr]
      rw [hno]
      rfl
    have hrs : ∃ h ∈ hs, repl.validHooks.testBit h = true ∧ repl.underflow h = p := by
      obtain ⟨h', hm, hv, hu⟩ := hex
      cases mem_cons.1 hm with
      | inl heq =>
        rw [heq] at hv hu
        exact absurd ⟨hv, hu.symm⟩ hchk
      | inr hm => exact ⟨h', hm, hv, hu⟩
    rw [checkHooks]
    cases hv : repl.validHooks.testBit h with
    | false => exact ih hrs info
    | true =>
      rw [if_neg fun hc => hchk ⟨hv, hc⟩]
      exact ih hrs _

/-- Hooks that enter the table at a rule, or fall back to it, are noted. -/
structure Noted (repl : Replace) (p : ℕ) (info info' : Info) : Prop where
  hookEntry : ∀ h, info'.hookEntry h = info.hookEntry h ∨
    info'.hookEntry h = p ∧ repl.hookEntry h = p
  underflow : ∀ h, info'.underflow h = info.underflow h ∨
    info'.underflow h = p ∧ repl.underflow h = p

theorem Noted.trans {info' info'' : Info} (h : Noted repl p info info')
    (h' : Noted repl p info' info'') : Noted repl p info info'' := by
  refine ⟨fun k => ?_, fun k => ?_⟩
  · rcases h'.hookEntry k with heq | hn
    · rw [heq]
      exact h.hookEntry k
    · exact .inr hn
  rcases h'.underflow k with heq | hn
  · rw [heq]
    exact h.underflow k
  · exact .inr hn

theorem update_noted {f g : ℕ → ℕ} {h : ℕ} (heq : p = g h) (k : ℕ) :
    update f h (g h) k = f k ∨ update f h (g h) k = p ∧ g k = p := by
  by_cases hk : k = h
  · rw [hk, update_self, heq]
    exact .inr ⟨rfl, rfl⟩
  · exact .inl (update_of_ne hk _ _)

/-- Where no check of a policy fails, the hooks are noted. -/
theorem checkHooks_ok (hok : (∃ h ∈ hs, repl.validHooks.testBit h = true ∧ repl.underflow h = p) →
      checkUnderflow b p = .ok true) (info : Info) :
    ∃ info', checkHooks repl b p hs info = .ok info' ∧ Noted repl p info info' := by
  induction hs generalizing info with
  | nil => exact ⟨info, rfl, fun _ => .inl rfl, fun _ => .inl rfl⟩
  | cons h hs ih =>
    have hrs : (∃ h ∈ hs, repl.validHooks.testBit h = true ∧ repl.underflow h = p) →
        checkUnderflow b p = .ok true := by
      rintro ⟨h', hm, hv⟩
      exact hok ⟨h', mem_cons_of_mem h hm, hv⟩
    rw [checkHooks]
    cases hv : repl.validHooks.testBit h with
    | false => exact ih hrs info
    | true =>
      simp only [Bool.not_true, Bool.false_eq_true, if_false]
      generalize hin : (if p = repl.hookEntry h then
        { info with hookEntry := update info.hookEntry h (repl.hookEntry h) } else info) = info1
      have hent : Noted repl p info info1 := by
        rw [← hin]
        split_ifs with he
        · exact ⟨update_noted he, fun _ => .inl rfl⟩
        · exact ⟨fun _ => .inl rfl, fun _ => .inl rfl⟩
      split_ifs with hu
      · rw [hok ⟨h, mem_cons_self, hv, hu.symm⟩]
        obtain ⟨info', hr, hntd⟩ := ih hrs
          { info1 with underflow := update info1.underflow h (repl.underflow h) }
        have hund : Noted repl p info1
            { info1 with underflow := update info1.underflow h (repl.underflow h) } :=
          ⟨fun _ => .inl rfl, update_noted hu⟩
        exact ⟨info', hr, (hent.trans hund).trans hntd⟩
      · obtain ⟨info', hr, hntd⟩ := ih hrs info1
        exact ⟨info', hr, hent.trans hntd⟩

theorem isUnderflow_iff : IsUnderflow repl p ↔
    ∃ h ∈ range numHooks, repl.validHooks.testBit h = true ∧ repl.underflow h = p := by
  simp [IsUnderflow]

/-! ## One rule -/

theorem checkEntrySizeAndHooks_of_not_sized (h : ¬ Sized b p) :
    checkEntrySizeAndHooks repl b info p = .error (.errno .einval) := by
  rw [checkEntrySizeAndHooks]
  split_ifs with hb
  · rfl
  push Not at hb
  unfold sizeofEntry at hb
  rw [readNextOffset, read_eq (by omega)]
  simp only [bind, Except.bind]
  rw [if_pos]
  by_contra hc
  exact h ⟨hb.1, hb.2, not_lt.1 hc⟩

/-- The header is read; what is left are the hooks, and clearing the counters. -/
theorem checkEntrySizeAndHooks_of_sized (h : Sized b p) (info : Info) :
    checkEntrySizeAndHooks repl b info p =
      (checkHooks repl b p (range numHooks) info).map fun info => (cleared b p, info) := by
  have hin := h.header
  have hgood : ¬ (p % 8 ≠ 0 ∨ b.size ≤ p + sizeofEntry) := by
    have := h.aligned
    omega
  unfold sizeofEntry at hin
  rw [checkEntrySizeAndHooks, if_neg hgood, readNextOffset, read_eq (by omega), ← nextOffset]
  simp only [bind, Except.bind]
  rw [if_neg (not_lt.2 h.next)]
  cases checkHooks repl b p (range numHooks) info with
  | error f => rfl
  | ok info =>
    rw [write_eq (by omega)]
    simp only
    rw [writeComefrom, write_eq (by simp only [put_size]; omega)]
    rfl

/-- **What the walk does at a rule**: it refuses a rule that does not pass, faults at a target
that is not in the block, and otherwise clears the counters and goes on. -/
theorem walkEntry_cases :
    (walkEntry repl w = .error (.errno .einval) ∧ ¬ Passes repl w.block w.pos ∧
      (Sized w.block w.pos → Readable repl w.block w.pos)) ∨
    (walkEntry repl w = .error .fault ∧ Sized w.block w.pos ∧ ¬ Readable repl w.block w.pos) ∨
    (Passes repl w.block w.pos ∧ Readable repl w.block w.pos ∧ ∃ info,
      walkEntry repl w = .ok ⟨cleared w.block w.pos, info, w.i + 1,
        w.pos + nextOffset w.block w.pos⟩ ∧ Noted repl w.pos w.info info) := by
  obtain ⟨b, info, i, p⟩ := w
  by_cases hsz : Sized b p
  · have hin := hsz.header
    rw [walkEntry]
    simp only [bind, Except.bind]
    rw [checkEntrySizeAndHooks_of_sized hsz]
    by_cases hflt : IsUnderflow repl p ∧ ¬ PolicyReadable b p
    · have herr := checkHooks_error (.inl (checkUnderflow_fault hin.le hflt.2))
        (isUnderflow_iff.1 hflt.1) info
      rw [herr]
      exact .inr (.inl ⟨rfl, hsz, fun hc => hflt.2 (hc.policy hflt.1)⟩)
    have hrd : IsUnderflow repl p → PolicyReadable b p := by
      intro hu
      by_contra hc
      exact hflt ⟨hu, hc⟩
    by_cases hpol : IsUnderflow repl p → policy b p = true
    · obtain ⟨info', hr, hntd⟩ := checkHooks_ok (fun hex => by
        have hu := isUnderflow_iff.2 hex
        rw [checkUnderflow_eq hin.le (hrd hu), hpol hu]) info
      -- the offsets are not cleared
      have hof (o : ℕ) (ho : o + 2 ≤ 92) : read (cleared b p) (p + o) 2 =
          .ok (b.get (p + o) 2) := by
        unfold sizeofEntry at hin
        rw [read_eq (by simp only [cleared, put_size]; omega), cleared,
          get_put_of_disjoint (.inl (by omega)),
          get_put_of_disjoint (.inl (by omega))]
      rw [hr]
      simp only [Except.map]
      rw [readTargetOffset, hof 88 (by omega), ← targetOffset]
      simp only
      by_cases hnm : Comparable (cleared b p) (p + targetOffset b p + 2) errorTarget
      · obtain ⟨equal, hcmp⟩ := strcmpEq_of_comparable hnm
        rw [targetIs, hcmp, readNextOffset, hof 90 (by omega)]
        refine .inr (.inr ⟨⟨hsz, hpol⟩, ⟨hrd, fun _ => hnm⟩, _, rfl, ?_⟩)
        cases equal with
        | false => exact hntd
        | true => exact ⟨hntd.hookEntry, hntd.underflow⟩
      · rw [targetIs, strcmpEq_of_not_comparable hnm]
        exact .inr (.inl ⟨rfl, hsz, fun hc => hnm (hc.name hpol)⟩)
    · push Not at hpol
      have herr := checkHooks_error (.inr ⟨by
        rw [checkUnderflow_eq hin.le (hrd hpol.1), Bool.eq_false_iff.2 hpol.2], rfl⟩)
        (isUnderflow_iff.1 hpol.1) info
      rw [herr]
      exact .inl ⟨rfl, fun hc => hpol.2 (hc.underflow hpol.1),
        fun _ => ⟨hrd, fun hc => absurd (hc hpol.1) hpol.2⟩⟩
  · rw [walkEntry]
    rw [checkEntrySizeAndHooks_of_not_sized hsz]
    exact .inl ⟨rfl, fun hc => hsz hc.toSized, fun hc => absurd hc hsz⟩

end Entry

/-! ## The whole walk -/

section Run

variable {repl : Replace} {b0 b : Buffer} {ps : List ℕ} {p : ℕ}

/-- The rules that were passed lie apart, below the position, and are cleared. -/
theorem Walked.mem (hw : Walked repl b0 ps p b) : b.size = b0.size ∧ ∀ q ∈ ps,
    q + 144 ≤ p ∧ comefrom b q = 0 ∧ pcnt b q = 0 := by
  induction hw with
  | start => exact ⟨rfl, nofun⟩
  | @next ps p b _ passes ih =>
    refine ⟨ih.1, fun q hq => ?_⟩
    have hnx := passes.next
    rcases mem_cons.1 hq with rfl | hq
    · refine ⟨by omega, get_put (by decide), ?_⟩
      rw [pcnt, cleared, get_put_of_disjoint (.inr (by omega))]
      exact get_put_zero le_rfl (by omega)
    obtain ⟨hle, hbt, hz⟩ := ih.2 q hq
    refine ⟨by omega, ?_, ?_⟩
    · rw [comefrom, cleared, get_put_of_disjoint (.inl (by omega)),
        get_put_of_disjoint (.inl (by omega))]
      exact hbt
    rw [pcnt, cleared, get_put_of_disjoint (.inl (by omega)), get_put_of_disjoint (.inl (by omega))]
    exact hz

/-- What the walk has noted: a hook is at a rule that was passed, or not yet assigned. -/
structure Walking (repl : Replace) (b0 : Buffer) (ps : List ℕ) (w : Walk) : Prop where
  walked : Walked repl b0 ps w.pos w.block
  count : w.i = ps.length
  hookEntry : ∀ h, w.info.hookEntry h = 0xFFFFFFFF ∨
    w.info.hookEntry h = repl.hookEntry h ∧ repl.hookEntry h ∈ ps
  underflow : ∀ h, w.info.underflow h = 0xFFFFFFFF ∨
    w.info.underflow h = repl.underflow h ∧ repl.underflow h ∈ ps

theorem Walking.next (hw : Walking repl b0 ps w)
    (hps : Passes repl w.block w.pos) (hntd : Noted repl w.pos w.info info) :
    Walking repl b0 (w.pos :: ps)
      ⟨cleared w.block w.pos, info, w.i + 1, w.pos + nextOffset w.block w.pos⟩ := by
  have hkp {f f' g : ℕ → ℕ} (hold : ∀ h, f h = 0xFFFFFFFF ∨ f h = g h ∧ g h ∈ ps)
      (hn : ∀ h, f' h = f h ∨ f' h = w.pos ∧ g h = w.pos) (h : ℕ) :
      f' h = 0xFFFFFFFF ∨ f' h = g h ∧ g h ∈ w.pos :: ps := by
    rcases hn h with heq | ⟨heq, hp⟩
    · rw [heq]
      exact (hold h).imp_right fun hin => ⟨hin.1, mem_cons_of_mem _ hin.2⟩
    rw [heq, hp]
    exact .inr ⟨rfl, mem_cons_self⟩
  refine ⟨hw.walked.next hps, ?_, hkp hw.hookEntry hntd.hookEntry,
    hkp hw.underflow hntd.underflow⟩
  rw [length_cons, ← hw.count]

/-- The walk has come to its end, and all hooks are assigned. -/
structure Finished (repl : Replace) (b0 : Buffer) (ps : List ℕ) (b : Buffer) (info : Info) :
    Prop where
  walked : ∃ p, Walked repl b0 ps p b ∧ b.size ≤ p
  count : ps.length = repl.numEntries
  hooks : ∀ h < numHooks, repl.validHooks.testBit h = true →
    repl.hookEntry h ∈ ps ∧ repl.underflow h ∈ ps
  info_eq : ∀ h < numHooks, repl.validHooks.testBit h = true →
    info.hookEntry h = repl.hookEntry h ∧ info.underflow h = repl.underflow h

theorem Walking.finished (hw : Walking repl b0 ps w) (hov : w.block.size ≤ w.pos)
    (hasg : checkAssigned repl w = true) : Finished repl b0 ps w.block w.info := by
  simp only [checkAssigned, Bool.and_eq_true, decide_eq_true_eq, all_eq_true, mem_range,
    Bool.or_eq_true] at hasg
  have hbt (h : ℕ) (hh : h < numHooks) (hv : repl.validHooks.testBit h = true) :
      (w.info.hookEntry h = repl.hookEntry h ∧ repl.hookEntry h ∈ ps) ∧
        w.info.underflow h = repl.underflow h ∧ repl.underflow h ∈ ps := by
    rcases hasg.2 h hh with hno | ⟨hent, hund⟩
    · rw [hv] at hno
      cases hno
    · exact ⟨(hw.hookEntry h).resolve_left hent, (hw.underflow h).resolve_left hund⟩
  refine ⟨⟨w.pos, hw.walked, hov⟩, hw.count ▸ hasg.1, ?_, ?_⟩
  · exact fun h hh hv => ⟨(hbt h hh hv).1.2, (hbt h hh hv).2.2⟩
  · exact fun h hh hv => ⟨(hbt h hh hv).1.1, (hbt h hh hv).2.1⟩

/-- Where a run is: on the walk, or at some step of the marking of the block it left. -/
def Loading (repl : Replace) (b0 : Buffer) : Stage → Prop
  | .walk w => ∃ ps, Walking repl b0 ps w
  | .mark info m => ∃ ps b, Finished repl b0 ps b info ∧ ∃ k, ∀ n,
      runFor (markStep info repl.validHooks) (k + n) (.hook 0 b) =
        runFor (markStep info repl.validHooks) n m

def LoadEnd (repl : Replace) (b0 : Buffer) : Except Fail (Buffer × Info) → Prop
  | .error .fault => (∃ ps p b, Walked repl b0 ps p b ∧ Sized b p ∧ ¬ Readable repl b p) ∨
      ∃ ps b info, Finished repl b0 ps b info ∧
        ∃ n, runFor (markStep info repl.validHooks) n (.hook 0 b) = .done (.error .fault)
  | .error (.errno _) => True
  | .ok (b', info) => ∃ ps b, Finished repl b0 ps b info ∧
      ∃ n, runFor (markStep info repl.validHooks) n (.hook 0 b) = .done (.ok b')

theorem Walking.step (hw : Walking repl b0 ps w) : Keeps (fun w' => ∃ ps, Walking repl b0 ps w')
      (fun r => match r with
        | .ok w' => w' = w ∧ w.block.size ≤ w.pos
        | .error f => f = .fault → Sized w.block w.pos ∧ ¬ Readable repl w.block w.pos)
      (walkStep repl w) := by
  by_cases hov : w.block.size ≤ w.pos
  · rw [walkStep, if_pos hov]
    exact ⟨rfl, hov⟩
  rw [walkStep, if_neg hov]
  rcases walkEntry_cases with ⟨hr, -⟩ | ⟨hr, hb⟩ | ⟨hp, -, info, hr, hn⟩
  · rw [hr]
    exact fun hc => by cases hc
  · rw [hr]
    exact fun _ => hb
  rw [hr]
  exact ⟨_, hw.next hp hn⟩

theorem Loading.step {s : Stage} (hs : Loading repl b0 s) :
    Keeps (Loading repl b0) (LoadEnd repl b0) (loadStep repl s) := by
  cases s with
  | walk w =>
    obtain ⟨ps, hw⟩ := hs
    have hkp := hw.step
    rw [loadStep]
    generalize walkStep repl w = r at hkp
    rcases r with w' | ⟨f | w'⟩
    · exact hkp
    · cases f with
      | fault => exact .inl ⟨ps, _, _, hw.walked, hkp rfl⟩
      | errno e => trivial
    obtain ⟨rfl, hov⟩ := hkp
    simp only
    split_ifs with hasg
    · trivial
    rw [Bool.not_eq_true', Bool.not_eq_false] at hasg
    exact ⟨ps, _, hw.finished hov hasg, 0, fun n => by rw [zero_add]⟩
  | mark info m =>
    obtain ⟨ps, b, hfin, k, hk⟩ := hs
    rw [loadStep]
    cases hst : markStep info repl.validHooks m with
    | next m' =>
      refine ⟨ps, b, hfin, k + 1, fun n => ?_⟩
      rw [add_assoc, add_comm 1, hk, runFor_succ_next hst]
    | done r =>
      have he := (hk 1).trans (runFor_succ_done hst)
      rcases r with ⟨- | e⟩ | b'
      · exact .inr ⟨ps, b, info, hfin, k + 1, he⟩
      · trivial
      · exact ⟨ps, b, hfin, k + 1, he⟩

/-- **A run of `translate_table`**, up to the checks of the matches and targets: it faults on
the walk only at a target that is not in the block. -/
theorem load_done {n : ℕ} {r : Except Fail (Buffer × Info)}
    (hr : runFor (loadStep repl) n (loadStart b0) = .done r) : LoadEnd repl b0 r := by
  have hst : Loading repl b0 (loadStart b0) :=
    ⟨[], .start, rfl, fun _ => .inl rfl, fun _ => .inl rfl⟩
  have hkp := runFor_keeps (fun _ => Loading.step) n hst
  rw [hr] at hkp
  exact hkp

theorem loadStep_walk (hs : Sized w.block w.pos) : loadStep repl (.walk w) =
    match walkEntry repl w with
    | .error f => .done (.error f)
    | .ok w => .next (.walk w) := by
  have := hs.header
  rw [loadStep, walkStep, if_neg (by omega)]
  cases walkEntry repl w with
  | error f => rfl
  | ok w => rfl

/-- Where no run faults, the walk gets to where it may, and can read what it gets to. -/
theorem Walked.run (hw : Walked repl b0 ps p b)
    (hno : ∀ n, runFor (loadStep repl) n (loadStart b0) ≠ .done (.error .fault)) :
    (∃ n w, runFor (loadStep repl) n (loadStart b0) = .next (.walk w) ∧ w.pos = p ∧
      w.block = b) ∧ (Sized b p → Readable repl b p) := by
  have hrd {n : ℕ} {w : Walk} (hrun : runFor (loadStep repl) n (loadStart b0) = .next (.walk w))
      (hs : Sized w.block w.pos) : Readable repl w.block w.pos := by
    rcases walkEntry_cases with ⟨-, -, hr⟩ | ⟨hflt, -⟩ | ⟨-, hr, -⟩
    · exact hr hs
    · refine absurd ?_ (hno (n + 1))
      rw [runFor_add hrun, runFor_succ_done]
      rw [loadStep_walk hs, hflt]
    · exact hr
  induction hw with
  | start => exact ⟨⟨0, _, rfl, rfl, rfl⟩, hrd (n := 0) rfl⟩
  | next _ passes ih =>
    obtain ⟨⟨n, w, hrun, rfl, rfl⟩, -⟩ := ih
    have hnx : ∃ w', runFor (loadStep repl) (n + 1) (loadStart b0) = .next (.walk w') ∧
        w'.pos = w.pos + nextOffset w.block w.pos ∧ w'.block = cleared w.block w.pos := by
      rcases walkEntry_cases with ⟨-, hb, -⟩ | ⟨-, hs, hb⟩ | ⟨-, -, info, hok, -⟩
      · exact absurd passes hb
      · exact absurd (hrd hrun hs) hb
      refine ⟨⟨cleared w.block w.pos, info, w.i + 1, _⟩, ?_, rfl, rfl⟩
      rw [runFor_add hrun, runFor_succ_next, runFor_zero]
      rw [loadStep_walk passes.toSized, hok]
    obtain ⟨w', hr', hp, hbk⟩ := hnx
    rw [← hp, ← hbk]
    exact ⟨⟨n + 1, w', hr', rfl, rfl⟩, hrd hr'⟩

/-- Where the condition holds, the marking does not fault. -/
theorem Finished.mark_ne_fault (hfin : Finished repl b0 ps b info)
    (hsi : b0.size < 2 ^ 32) (hmk : MarkInside repl b0) (n : ℕ) :
    runFor (markStep info repl.validHooks) n (.hook 0 b) ≠ .done (.error .fault) := by
  obtain ⟨p, hw, hov⟩ := hfin.walked
  obtain ⟨hsz, hm⟩ := hw.mem
  obtain ⟨rules, hsub, hr, hvisits⟩ := hmk ps p b hw hov hfin.count hfin.hooks
  have hvisits' : MarkVisits b repl.validHooks info.hookEntry rules := by
    intro h hh hv hdone q hq
    rw [(hfin.info_eq h hh hv).1] at hq
    refine hvisits h hh hv (fun i hi hvi => ?_) q hq
    rw [← (hfin.info_eq i (hi.trans hh) hvi).1]
    exact hdone i hi hvi
  obtain ⟨r, hrun, he⟩ := markStep_run hr (by rw [hsz]; exact hsi.le) hvisits'
    (fun q hq => (hm q (mem_toFinset.1 (hsub hq))).2)
  intro hflt
  have heq := (runFor_done_mono hflt (Nat.le_add_right n _)).symm.trans
    (hrun (n + _) (Nat.le_add_left _ n))
  cases heq
  cases he.1

end Run

/-- **Loading a table stays in its block** on the walk exactly when the targets that it reads
do; it then stays there on the marking as well, where the rules lead to rules with targets
in the block. -/
theorem load_inside {repl : Replace} {b0 : Buffer} (hsize : b0.size < 2 ^ 32) :
    ((∀ n, runFor (loadStep repl) n (loadStart b0) ≠ .done (.error .fault)) →
      WalkInside repl b0) ∧
    (WalkInside repl b0 ∧ MarkInside repl b0 →
      ∀ n, runFor (loadStep repl) n (loadStart b0) ≠ .done (.error .fault)) := by
  refine ⟨fun hno ps p b hw => (hw.run hno).2, fun hin n hrun => ?_⟩
  rcases load_done hrun with ⟨ps, p, b, hw, hs, hbad⟩ | ⟨ps, b, info, hfin, n, hfault⟩
  · exact hbad (hin.1 ps p b hw hs)
  · exact hfin.mark_ne_fault hsize hin.2 n hfault

/-- A block of one rule, which accepts. -/
def oneRule : Buffer :=
  (((⟨152, fun _ => 0⟩ : Buffer).put 88 2 112).put 90 2 152).put 144 4 0xFFFFFFFE

/-- The first hook enters the table at the rule, and falls back to it. -/
theorem load_inside_oneRule : oneRule.size < 2 ^ 32 ∧
    ∀ n, runFor (loadStep ⟨1, fun _ => 0, fun _ => 0, 1⟩) n (loadStart oneRule) ≠
      .done (.error .fault) := by
  refine ⟨by decide, (load_inside (by decide)).2 ⟨?_, ?_⟩⟩
  · intro ps p b hw hs
    have hsz := hw.mem.1
    cases hw with
    | start =>
      exact ⟨fun _ _ => ⟨by decide, fun _ => by decide⟩,
        fun _ => ⟨by decide, fun hc => absurd hc (by decide)⟩⟩
    | next _ passes =>
      have hheader : _ < oneRule.size := hsz ▸ hs.header
      have hnext := passes.next
      unfold oneRule at hheader
      simp only [put_size, sizeofEntry] at hheader
      omega
  intro ps p b hw _ hcount _
  cases hw with
  | start => cases hcount
  | @next ps p b walked _ =>
    obtain rfl : ps = [] := length_eq_zero_iff.1 (Nat.succ.inj hcount)
    cases walked
    have hends : (flow (cleared oneRule 0)).fall 0 = none := by decide +kernel
    refine ⟨{0}, by decide, fun q hq => ?_, fun h _ _ _ q hq => ?_⟩
    · rw [Finset.mem_singleton.1 hq]
      exact ⟨by decide, by decide, by decide, by decide, by decide, by decide⟩
    · rcases hq.reach.cases_head with rfl | ⟨c, hedge, -⟩
      · exact Finset.mem_singleton_self _
      · exact absurd hedge (Flow.not_edge_of_fall_eq_none hends)

/-- A block of one rule, whose target is far behind it. -/
def farTarget : Buffer := ((⟨152, fun _ => 0⟩ : Buffer).put 88 2 65535).put 90 2 152

theorem load_far_target :
    runFor (loadStep ⟨1, fun _ => 0, fun _ => 0, 0⟩) 1 (loadStart farTarget) =
      .done (.error .fault) := by
  rfl

end NestLinux.IpTables
