import NestLinux.Net.IpTables
import NestLinux.Lib.FlowSearch

/-!
# Rules in a block

What the marking of a table does at a rule depends on a few fields of the rule, and it
changes two of them, `comefrom` and a counter. As long as it stays on rules whose
headers and targets do not overlap, the other fields are what they were, so the jumps it
follows are those of the block it started with (`flow`).
-/

namespace NestLinux.IpTables

open Lib Buffer

/-! ## Fields -/

variable (b : Buffer)

/-- The offset of the target in its rule. -/
def targetOffset (p : ℕ) : ℕ := b.get (p + 88) 2

def nextOffset (p : ℕ) : ℕ := b.get (p + 90) 2

/-- The hooks that lead to a rule, and the bit for a rule on the way. -/
def comefrom (p : ℕ) : ℕ := b.get (p + 92) 4

def pcnt (p : ℕ) : ℕ := b.get (p + 96) 8

def bcnt (p : ℕ) : ℕ := b.get (p + 104) 8

/-- The target is the standard one: its name is empty. -/
def isStandard (p : ℕ) : Bool := decide (b.get (p + targetOffset b p + 2) 1 = 0)

/-- The verdict of a standard target, or the rule it jumps to. -/
def verdict (p : ℕ) : ℤ := asInt (b.get (p + targetOffset b p + 32) 4)

/-- The rule always ends its chain: it has no condition and no matches, and a verdict. -/
def ends (p : ℕ) : Bool :=
  decide (targetOffset b p = sizeofEntry) && isStandard b p && decide (verdict b p < 0) &&
    decide (b.get p 84 = 0)

/-- The jump of a rule is too far for the block. -/
def jumpsTooFar (p : ℕ) : Bool :=
  decide (sub32 b.size sizeofEntry < (verdict b p).toNat)

/-- The rules of a block as a program. From a rule there is a way to where it jumps, and to the
next rule unless it ends its chain; a rule with a bad verdict, and one that jumps too far, is
refused. -/
def flow : Flow ℕ where
  jump p :=
    if isStandard b p && decide (0 ≤ verdict b p) && !jumpsTooFar b p then some (verdict b p).toNat
    else none
  fall p := if ends b p then none else some (p + nextOffset b p)
  refuses again p :=
    isStandard b p && if again then decide (verdict b p < -5 - 1)
      else decide (0 ≤ verdict b p) && jumpsTooFar b p
  jump_eq_none := by
    intro p hfa
    refine if_neg ?_
    intro hjump
    have hen : ends b p = true := by
      by_contra hc
      rw [if_neg hc] at hfa
      cases hfa
    simp only [ends, Bool.and_eq_true, decide_eq_true_eq] at hen hjump
    omega

/-! ## Rules that lie apart -/

/-- `k` bytes that are not in `comefrom` and the counters of a rule. -/
def Clear (q a k : ℕ) : Prop := a + k ≤ q + 92 ∨ q + 112 ≤ a

instance (q a k : ℕ) : Decidable (Clear q a k) := inferInstanceAs (Decidable (_ ∨ _))

/-- A rule that can be read, and whose header and target are not where `comefrom` and the
counters of other rules are; its target may be anywhere else. -/
structure RuleAt (b : Buffer) (rules : Finset ℕ) (p : ℕ) : Prop where
  header : p + sizeofEntry ≤ b.size
  target : p + targetOffset b p + 36 ≤ b.size
  apart : ∀ q ∈ rules, q < p → q + sizeofEntry ≤ p
  apart' : ∀ q ∈ rules, p < q → p + sizeofEntry ≤ q
  name : ∀ q ∈ rules, Clear q (p + targetOffset b p + 2) 1
  verdict : isStandard b p = true → ∀ q ∈ rules, Clear q (p + targetOffset b p + 32) 4

def Rules (rules : Finset ℕ) : Prop := ∀ p ∈ rules, RuleAt b rules p

/-- The blocks differ in `comefrom` and the counters of the rules at most. -/
structure Agree (rules : Finset ℕ) (b b' : Buffer) : Prop where
  size_eq : b'.size = b.size
  byte_eq : ∀ i, (∀ q ∈ rules, ¬ (q + 92 ≤ i ∧ i < q + 112)) → b'.byte i = b.byte i

theorem Agree.refl (rs : Finset ℕ) (b : Buffer) : Agree rs b b :=
  ⟨rfl, fun _ _ => rfl⟩

variable {rs : Finset ℕ} {a k q : ℕ}

theorem Agree.trans {b b' b'' : Buffer} (h : Agree rs b b')
    (h' : Agree rs b' b'') : Agree rs b b'' :=
  ⟨h'.size_eq.trans h.size_eq, fun i hi => (h'.byte_eq i hi).trans (h.byte_eq i hi)⟩

section Fields

variable {b b' : Buffer} {p v : ℕ}

theorem Agree.put (h : Agree rs b b') (hp : p ∈ rs) (h1 : p + 92 ≤ a)
    (h2 : a + k ≤ p + 112) (v : ℕ) : Agree rs b (b'.put a k v) := by
  refine ⟨h.size_eq, ?_⟩
  intro i hi
  rw [put_byte_of_not_mem, h.byte_eq i hi]
  have hpi := hi p hp
  omega

/-- A field that is clear of `comefrom` and the counters of all rules. -/
theorem Agree.get_eq (h : Agree rs b b') (hc : ∀ q ∈ rs, Clear q a k) :
    b'.get a k = b.get a k := by
  refine get_congr ?_
  intro i hi1 hi2
  refine h.byte_eq i ?_
  intro q hq hm
  have hq := hc q hq
  unfold Clear at hq
  omega

/-- The header of a rule before `comefrom`. -/
theorem RuleAt.clear_header (hp : RuleAt b rs p) (h1 : p ≤ a)
    (h2 : a + k ≤ p + 92) : ∀ q ∈ rs, Clear q a k := by
  intro q hq
  have hb := hp.apart q hq
  have habv := hp.apart' q hq
  unfold Clear
  unfold sizeofEntry at hb habv
  omega

section

variable (h : Agree rs b b') (hp : RuleAt b rs p)

include h hp

theorem Agree.targetOffset_eq : targetOffset b' p = targetOffset b p :=
  h.get_eq (hp.clear_header (by omega) (by omega))

theorem Agree.nextOffset_eq : nextOffset b' p = nextOffset b p :=
  h.get_eq (hp.clear_header (by omega) (by omega))

theorem Agree.isStandard_eq : isStandard b' p = isStandard b p := by
  rw [isStandard, isStandard, h.targetOffset_eq hp, h.get_eq hp.name]

theorem Agree.verdict_eq (hsd : isStandard b p = true) : verdict b' p = verdict b p := by
  rw [IpTables.verdict, IpTables.verdict, h.targetOffset_eq hp, h.get_eq (hp.verdict hsd)]

theorem Agree.ends_eq : ends b' p = ends b p := by
  rw [ends, ends, h.targetOffset_eq hp, h.isStandard_eq hp,
    h.get_eq (hp.clear_header (le_refl p) (by omega))]
  cases hsd : isStandard b p with
  | false => simp
  | true => rw [h.verdict_eq hp hsd]

theorem Agree.jumpsTooFar_eq (hsd : isStandard b p = true) :
    jumpsTooFar b' p = jumpsTooFar b p := by
  rw [jumpsTooFar, jumpsTooFar, h.size_eq, h.verdict_eq hp hsd]

end

theorem RuleAt.agree (hp : RuleAt b rs p) (h : Agree rs b b') : RuleAt b' rs p := by
  refine ⟨?_, ?_, hp.apart, hp.apart', ?_, ?_⟩
  · rw [h.size_eq]
    exact hp.header
  · rw [h.targetOffset_eq hp, h.size_eq]
    exact hp.target
  · rw [h.targetOffset_eq hp]
    exact hp.name
  rw [h.targetOffset_eq hp, h.isStandard_eq hp]
  exact hp.verdict

theorem Rules.agree (hr : Rules b rs) (h : Agree rs b b') : Rules b' rs :=
  fun p hp => (hr p hp).agree h

theorem Agree.jump_eq (h : Agree rs b b') (hp : RuleAt b rs p) :
    (flow b').jump p = (flow b).jump p := by
  simp only [flow, h.isStandard_eq hp]
  cases hsd : isStandard b p with
  | false => simp
  | true => rw [h.verdict_eq hp hsd, h.jumpsTooFar_eq hp hsd]

theorem Agree.refuses_eq (h : Agree rs b b') (hp : RuleAt b rs p) (again : Bool) :
    (flow b').refuses again p = (flow b).refuses again p := by
  simp only [flow, h.isStandard_eq hp]
  cases hsd : isStandard b p with
  | false => simp
  | true => rw [h.verdict_eq hp hsd, h.jumpsTooFar_eq hp hsd]

end Fields

/-! ## The marking at a rule -/

section Exec

variable {b : Buffer} {p : ℕ}

theorem read_eq (h : a + k ≤ b.size) : read b a k = .ok (b.get a k) := by
  rw [read, load_eq h]

theorem write_eq (h : a + k ≤ b.size) (v : ℕ) : write b a k v = .ok (b.put a k v) := by
  rw [write, store_eq h]

theorem targetIs_standard {t : ℕ} (h : t + 3 ≤ b.size) :
    targetIs b t standardTarget = .ok (decide (b.get (t + 2) 1 = 0)) := by
  rw [targetIs, standardTarget, strcmpEq, read_eq (by omega)]
  simp only [bind, Except.bind, strcmpEq]
  split_ifs with hz
  · rw [decide_eq_true hz]
  · rw [decide_eq_false hz]

theorem endsChain_eq (h : RuleAt b rs p) : endsChain b p = .ok (ends b p) := by
  have hle := h.header
  have hin := h.target
  unfold sizeofEntry at hle
  rw [endsChain, readTargetOffset, read_eq (by omega)]
  simp only [bind, Except.bind, pure, Except.pure, ends]
  rw [← targetOffset]
  by_cases htgt : targetOffset b p = sizeofEntry
  · rw [if_neg (not_not_intro htgt), targetIs_standard (by omega), decide_eq_true htgt]
    rw [← isStandard]
    cases hsd : isStandard b p with
    | false => simp
    | true =>
      rw [readVerdict, read_eq (by omega)]
      simp only [Bool.not_true, Bool.false_eq_true, if_false, Bool.true_and]
      rw [← verdict, unconditional, read_eq (by omega)]
      simp only [bind, Except.bind, pure, Except.pure]
      by_cases hps : 0 ≤ verdict b p
      · rw [if_pos hps, decide_eq_false (not_lt.2 hps), Bool.false_and]
      · rw [if_neg hps, decide_eq_true (not_le.1 hps), Bool.true_and]
  · rw [if_pos htgt, decide_eq_false htgt]
    simp

theorem asInt_toNat {v : ℕ} (h : 0 ≤ asInt v) (hv : v < 2 ^ 32) : (asInt v).toNat = v := by
  unfold asInt at h ⊢
  split_ifs at h ⊢ with hlt
  · rfl
  · omega

/-- The rule with the bits of a hook and of the way set in `comefrom`. -/
def marked (b : Buffer) (h p : ℕ) : Buffer :=
  b.put (p + 92) 4 (comefrom b p ||| (1 <<< h ||| 1 <<< numHooks))

theorem marked_agree (b : Buffer) (h : ℕ) (hp : p ∈ rs) : Agree rs b (marked b h p) :=
  (Agree.refl rs b).put hp le_rfl (by omega) _

/-- **A visit of a rule.** A rule on the way is a loop; one that ends its chain or was visited
is the end of the way there; otherwise the way goes on, to where the rule jumps if it does
and to the next rule if it does not. -/
theorem markVisit_eq (hr : Rules b rs) (hp : p ∈ rs) (h : ℕ) : markVisit h p b =
      if (comefrom b p).testBit numHooks then .error (.errno .eloop)
      else if ends b p || (comefrom b p).testBit h then
        if (flow b).refuses true p then .error (.errno .eloop) else .ok (.back h p (marked b h p))
      else if (flow b).refuses false p then .error (.errno .eloop) else do
        let c := ((flow b).jump p).getD (p + nextOffset b p)
        let b' ← writePcnt (marked b h p) c p
        return .visit h c b' := by
  have hat := hr p hp
  have hle := hat.header
  have ha := marked_agree b h hp
  have hat' := hat.agree ha
  have hin' := hat'.target
  unfold sizeofEntry at hle
  rw [markVisit, readTargetOffset, read_eq (by omega)]
  simp only [bind, Except.bind, pure, Except.pure]
  rw [readComefrom, read_eq (by omega), ← targetOffset]
  simp only
  rw [← comefrom]
  cases hph : (comefrom b p).testBit numHooks with
  | true => rfl
  | false =>
    rw [writeComefrom, write_eq (by omega), ← marked]
    simp only
    rw [endsChain_eq hat', ha.ends_eq hat]
    simp only
    have htgt : targetIs (marked b h p) (p + targetOffset b p) standardTarget =
        .ok (isStandard b p) := by
      rw [← ha.targetOffset_eq hat, targetIs_standard (by omega), ← isStandard,
        ha.isStandard_eq hat]
    have hver : readVerdict (marked b h p) (p + targetOffset b p) =
        .ok ((marked b h p).get (p + targetOffset b p + 32) 4) := by
      rw [← ha.targetOffset_eq hat]
      exact read_eq (by omega)
    have hint (hsd : isStandard b p = true) :
        asInt ((marked b h p).get (p + targetOffset b p + 32) 4) = verdict b p := by
      rw [← ha.targetOffset_eq hat, ← ha.verdict_eq hat hsd, verdict]
    have hnx : readNextOffset (marked b h p) p = .ok (nextOffset b p) := by
      rw [← ha.nextOffset_eq hat]
      exact read_eq (by rw [ha.size_eq]; omega)
    have hsz : (marked b h p).size = b.size := rfl
    rw [htgt, hver]
    by_cases hbk : (ends b p || (comefrom b p).testBit h) = true
    · rw [if_pos hbk, if_pos hbk]
      cases hsd : isStandard b p with
      | false => simp [flow, hsd]
      | true =>
        simp [hint hsd, flow, hsd]
    cases hsd : isStandard b p with
    | false => simp [flow, hsd, hnx]
    | true =>
      simp only [hint hsd, flow, hsd, hsz]
      by_cases hps : 0 ≤ verdict b p
      · have hv : (marked b h p).get (p + targetOffset b p + 32) 4 = (verdict b p).toNat := by
          rw [← hint hsd, asInt_toNat]
          · rw [hint hsd]
            exact hps
          · exact get_lt _ _ 4
        rw [hv]
        by_cases hfar : sub32 b.size sizeofEntry < (verdict b p).toNat
        · simp [hps, hfar, jumpsTooFar]
        · simp [hps, hfar, jumpsTooFar]
      · rw [hnx]
        simp [hps]

/-- The rule with the bit of the way flipped and its packet counter 0. -/
def unmarked (b : Buffer) (p : ℕ) : Buffer :=
  (b.put (p + 92) 4 (comefrom b p ^^^ (1 <<< numHooks))).put (p + 96) 8 0

theorem unmarked_agree (b : Buffer) (hp : p ∈ rs) : Agree rs b (unmarked b p) := by
  have hf : Agree rs b (b.put (p + 92) 4 (comefrom b p ^^^ (1 <<< numHooks))) :=
    (Agree.refl rs b).put hp le_rfl (by omega) _
  exact hf.put hp (by omega) (by omega) _

/-- **The way back from a rule** leads to the rule in its packet counter. -/
theorem markBack_eq (hr : Rules b rs) (hsz : b.size ≤ 2 ^ 32) (hp : p ∈ rs)
    (hq : q ∈ rs) (hpc : pcnt b p = q) (h : ℕ) : markBack h p b =
      if q = p then .ok (.hook (h + 1) (unmarked b p))
      else if q + nextOffset b q = p then .ok (.back h q (unmarked b p)) else do
        let b' ← writePcnt (unmarked b p) (q + nextOffset b q) q
        return .visit h (q + nextOffset b q) b' := by
  have hle := (hr p hp).header
  have hqle := (hr q hq).header
  unfold sizeofEntry at hle hqle
  have ha := unmarked_agree b hp
  rw [markBack, readComefrom, read_eq (by omega)]
  simp only [bind, Except.bind]
  rw [writeComefrom, write_eq (by omega), ← comefrom]
  simp only
  rw [readPcnt, read_eq (by simp only [put_size]; omega)]
  simp only [bind, Except.bind, pure, Except.pure]
  rw [get_put_of_disjoint (.inr (by omega)), ← pcnt, hpc, Nat.mod_eq_of_lt (by omega), writePcnt,
    write_eq (by simp only [put_size]; omega), ← unmarked]
  simp only
  have hnx : readNextOffset (unmarked b p) q = .ok (nextOffset b q) := by
    rw [← ha.nextOffset_eq (hr q hq)]
    exact read_eq (by rw [ha.size_eq]; omega)
  by_cases hqp : q = p
  · rw [if_pos hqp, if_pos hqp]
  rw [if_neg hqp, if_neg hqp, hnx]
  simp only
  by_cases hfa : q + nextOffset b q = p
  · rw [if_pos hfa.symm, if_pos hfa]
  · rw [if_neg (fun hc => hfa hc.symm), if_neg hfa]

/-! ## What is written -/

/-- The fields of two rules do not overlap. -/
theorem Rules.get_put_of_ne (hr : Rules b rs) (hp : p ∈ rs) (hq : q ∈ rs) (hne : q ≠ p)
    {o o' k' v : ℕ} {b' : Buffer} (h1 : o + k ≤ 112) (h2 : o' + k' ≤ 112) :
    (b'.put (p + o) k v).get (q + o') k' = b'.get (q + o') k' := by
  refine get_put_of_disjoint ?_
  rcases lt_or_gt_of_ne hne with hlt | hgt
  · have hap := (hr p hp).apart q hq hlt
    unfold sizeofEntry at hap
    exact .inl (by omega)
  have hap := (hr p hp).apart' q hq hgt
  unfold sizeofEntry at hap
  exact .inr (by omega)

/-- Nor do two fields of which one ends where the other begins, or before. -/
theorem Rules.get_put_field (hr : Rules b rs) (hp : p ∈ rs) (hq : q ∈ rs) {o o' k' v : ℕ}
    {b' : Buffer} (h1 : o + k ≤ 112) (h2 : o' + k' ≤ 112) (h : o' + k' ≤ o ∨ o + k ≤ o') :
    (b'.put (p + o) k v).get (q + o') k' = b'.get (q + o') k' := by
  by_cases hqp : q = p
  · exact get_put_of_disjoint (by omega)
  · exact hr.get_put_of_ne hp hq hqp h1 h2

theorem one_shiftLeft_lt {h : ℕ} (hh : h ≤ numHooks) : 1 <<< h < 2 ^ 32 := by
  rw [Nat.one_shiftLeft]
  unfold numHooks at hh
  exact Nat.pow_lt_pow_right (by decide) (by omega)

theorem testBit_one_shiftLeft (h i : ℕ) : (1 <<< h).testBit i = decide (i = h) := by
  rw [Nat.one_shiftLeft, Nat.testBit_two_pow]
  exact decide_eq_decide.2 eq_comm

section

variable (hr : Rules b rs) (hp : p ∈ rs) (hq : q ∈ rs)

include hr hp hq

theorem comefrom_marked {h : ℕ} (hh : h < numHooks) (i : ℕ) :
    (comefrom (marked b h p) q).testBit i = true ↔
      (comefrom b q).testBit i = true ∨ q = p ∧ (i = h ∨ i = numHooks) := by
  by_cases hqp : q = p
  · subst hqp
    have hold : comefrom b q < 2 ^ 32 := get_lt b _ 4
    have hv : comefrom b q ||| (1 <<< h ||| 1 <<< numHooks) < 256 ^ 4 :=
      Nat.or_lt_two_pow hold
        (Nat.or_lt_two_pow (one_shiftLeft_lt hh.le) (one_shiftLeft_lt le_rfl))
    rw [comefrom, marked, get_put hv]
    simp only [Nat.testBit_or, testBit_one_shiftLeft, Bool.or_eq_true, decide_eq_true_eq, true_and]
  · rw [comefrom, marked, hr.get_put_of_ne hp hq hqp (by omega) (by omega), ← comefrom]
    simp [hqp]

theorem pcnt_marked (h : ℕ) : pcnt (marked b h p) q = pcnt b q :=
  hr.get_put_field hp hq (by omega) (by omega) (.inr (by omega))

theorem bcnt_marked (h : ℕ) : bcnt (marked b h p) q = bcnt b q :=
  hr.get_put_field hp hq (by omega) (by omega) (.inr (by omega))

theorem comefrom_unmarked (hst : (comefrom b p).testBit numHooks = true) (i : ℕ) :
    (comefrom (unmarked b p) q).testBit i = true ↔
      (comefrom b q).testBit i = true ∧ ¬ (q = p ∧ i = numHooks) := by
  by_cases hqp : q = p
  · subst hqp
    have hold : comefrom b q < 2 ^ 32 := get_lt b _ 4
    have hv : comefrom b q ^^^ (1 <<< numHooks) < 256 ^ 4 :=
      Nat.xor_lt_two_pow hold (one_shiftLeft_lt le_rfl)
    rw [comefrom, unmarked, get_put_of_disjoint (.inl (by omega)), get_put hv, Nat.testBit_xor,
      testBit_one_shiftLeft]
    by_cases hi : i = numHooks
    · subst hi
      simp [hst]
    · simp [hi]
  · rw [comefrom, unmarked, hr.get_put_of_ne hp hq hqp (by omega) (by omega),
      hr.get_put_of_ne hp hq hqp (by omega) (by omega), ← comefrom]
    simp [hqp]

theorem pcnt_unmarked : pcnt (unmarked b p) q = if q = p then 0 else pcnt b q := by
  by_cases hqp : q = p
  · subst hqp
    rw [if_pos rfl]
    exact get_put (by decide)
  · rw [if_neg hqp, pcnt, unmarked, hr.get_put_of_ne hp hq hqp (by omega) (by omega),
      hr.get_put_of_ne hp hq hqp (by omega) (by omega), ← pcnt]

theorem bcnt_put (b' : Buffer) (v : ℕ) : bcnt (b'.put (p + 96) 8 v) q = bcnt b' q :=
  hr.get_put_field hp hq (by omega) (by omega) (.inr (by omega))

theorem bcnt_unmarked : bcnt (unmarked b p) q = bcnt b q := by
  rw [unmarked, bcnt_put hr hp hq]
  exact hr.get_put_field hp hq (by omega) (by omega) (.inr (by omega))

theorem comefrom_put (b' : Buffer) (v : ℕ) : comefrom (b'.put (p + 96) 8 v) q = comefrom b' q :=
  hr.get_put_field hp hq (by omega) (by omega) (.inl (by omega))

theorem pcnt_put (b' : Buffer)
    {v : ℕ} (hv : v < 2 ^ 64) : pcnt (b'.put (p + 96) 8 v) q = if q = p then v else pcnt b' q := by
  by_cases hqp : q = p
  · subst hqp
    rw [if_pos rfl]
    exact get_put hv
  · rw [if_neg hqp]
    exact hr.get_put_of_ne hp hq hqp (by omega) (by omega)

end

end Exec

end NestLinux.IpTables
