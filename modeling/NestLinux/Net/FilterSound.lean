import NestLinux.Net.Filter

/-!
# The socket filter checker is sound

A program that `sk_chk_filter` accepts runs to a return on every packet. The checker
leaves in every place an instruction whose code the interpreter knows and whose operands
are in range (`Checked`). Such an instruction goes on only further down the program, and
never past its end, because the last one is a return; so the distance to the end is a
measure for the run.
-/

namespace NestLinux.Filter

open Lib

/-! ## What the checker leaves -/

@[simp] theorem Opcode.ofNumber_number (op : Opcode) : Opcode.ofNumber op.number = some op := by
  cases op <;> rfl

/-- The instruction has a code of the interpreter, and its operands were checked. -/
def Checked (pc flen : ℕ) (e : SockFilter) (op : Opcode) : Prop :=
  Opcode.ofNumber e.code = some op ∧ chkOperands op e pc flen = true

theorem chkInsn_checked {pc flen : ℕ} {e e' : SockFilter} (h : chkInsn pc flen e = (true, e')) :
    ∃ op, Checked pc flen e' op := by
  unfold chkInsn at h
  cases hop : Opcode.ofRawCode e.code with
  | none => simp [hop] at h
  | some op =>
    simp only [hop] at h
    by_cases hc : chkOperands op e pc flen = true
    · rw [if_pos hc] at h
      cases h
      refine ⟨op, Opcode.ofNumber_number op, ?_⟩
      cases op <;> exact hc
    · rw [if_neg hc] at h
      cases op <;> simp at h

/-- The loop of the checker keeps the length and checks every place. -/
theorem chkInsns_checked {flen pc : ℕ} {l l' : List SockFilter}
    (h : chkInsns flen pc l = (true, l')) :
    l'.length = l.length ∧ ∀ i e, l'[i]? = some e → ∃ op, Checked (pc + i) flen e op := by
  induction l generalizing pc l' with
  | nil =>
    cases h
    simp
  | cons e rest ih =>
    simp only [chkInsns] at h
    rcases he : chkInsn pc flen e with ⟨ok, e'⟩
    cases ok with
    | false => simp [he] at h
    | true =>
      rcases hrs : chkInsns flen (pc + 1) rest with ⟨ok', rest'⟩
      rw [he] at h
      simp only [hrs, Prod.mk.injEq] at h
      cases h.1
      cases h.2
      have htl := ih hrs
      refine ⟨by simp [htl.1], ?_⟩
      intro i f hf
      cases i with
      | zero =>
        cases hf
        exact chkInsn_checked he
      | succ i =>
        have hi := htl.2 i f hf
        rwa [Nat.add_assoc, Nat.add_comm 1 i] at hi

def Opcode.IsRet (op : Opcode) : Prop := op = .retK ∨ op = .retA

/-- What `sk_chk_filter` knows of a program it accepts. -/
structure Accepted (filter : List SockFilter) : Prop where
  pos : 0 < filter.length
  le_max : filter.length ≤ bpfMaxInsns
  checked : ∀ pc e, filter[pc]? = some e → ∃ op, Checked pc filter.length e op
  last : ∀ e op, filter[filter.length - 1]? = some e → Opcode.ofNumber e.code = some op → op.IsRet

theorem skChkFilter_accepted {filter filter' : List SockFilter}
    (h : skChkFilter filter = (0, filter')) :
    Accepted filter' ∧ filter'.length = filter.length := by
  unfold skChkFilter at h
  by_cases hl : filter.length = 0 ∨ bpfMaxInsns < filter.length
  · simp only [if_pos hl] at h
    exact absurd (Prod.mk.inj h).1 (by decide)
  simp only [if_neg hl] at h
  rcases hchk : chkInsns filter.length 0 filter with ⟨ok, l⟩
  cases ok with
  | false => simp [hchk, einval] at h
  | true =>
    rw [hchk] at h
    have hsc := chkInsns_checked hchk
    -- the last switch tells which array was returned, and what its last code is
    have hla : l = filter' ∧ ∀ op,
        ((l[filter.length - 1]?).bind fun e => Opcode.ofNumber e.code) = some op →
          op.IsRet := by
      revert h
      simp only
      split
      · rename_i heq
        intro h
        refine ⟨(Prod.mk.inj h).2, fun op hop => Or.inl ?_⟩
        exact Option.some.inj (hop.symm.trans heq)
      · rename_i heq
        intro h
        refine ⟨(Prod.mk.inj h).2, fun op hop => Or.inr ?_⟩
        exact Option.some.inj (hop.symm.trans heq)
      · intro h
        exact absurd (Prod.mk.inj h).1 (by decide)
    cases hla.1
    refine ⟨⟨by omega, by omega, ?_, ?_⟩, hsc.1⟩
    · intro pc e he
      have := hsc.2 pc e he
      rwa [Nat.zero_add, ← hsc.1] at this
    intro e op he hop
    rw [hsc.1] at he
    exact hla.2 op (by rw [he]; exact hop)

/-! ## What an instruction does -/

/-- The program counter is inside the program. -/
def InRange (flen : ℕ) (s : Regs) : Prop := 0 ≤ s.pc ∧ s.pc < flen

/-- The instructions after the one at the program counter. -/
def toEnd (flen : ℕ) (s : Regs) : ℕ := (flen - 1 - s.pc).toNat

/-- The interpreter left through a `return`. -/
def Returns (r : Exit) : Prop := ∃ v, r = .ret v

abbrev SafeExec (flen : ℕ) : Regs → Outcome Regs Exit → Prop :=
  SafeStep (InRange flen) (toEnd flen) Returns

namespace Regs

section Safe

variable {flen : ℕ} {s : Regs} {skb : SkBuff}

theorem safe_ret (v : UInt32) : SafeExec flen s (.done (.ret v)) :=
  ⟨v, rfl⟩

theorem safe_loadMem {k : UInt32} (hk : k.toNat < bpfMemWords) {set : UInt32 → Outcome Regs Exit}
    (hst : ∀ v, SafeExec flen s (set v)) : SafeExec flen s (s.loadMem k set) := by
  rw [loadMem, if_pos hk]
  exact hst _

variable (hpc : 0 ≤ s.pc) (hnx : s.pc + 1 < flen)

include hpc hnx

theorem safe_next {t : Regs} (ht : t.pc = s.pc) : SafeExec flen s t.next := by
  refine ⟨⟨?_, ?_⟩, ?_⟩
  · simp only [ht]
    omega
  · simpa [ht] using hnx
  simp only [toEnd]
  omega

theorem safe_setA (v : UInt32) : SafeExec flen s (s.setA v) :=
  safe_next hpc hnx rfl

theorem safe_setX (v : UInt32) : SafeExec flen s (s.setX v) :=
  safe_next hpc hnx rfl

theorem safe_divide {v : UInt32} (hv : v ≠ 0) : SafeExec flen s (s.divide v) := by
  rw [divide, if_neg hv]
  exact safe_setA hpc hnx _

theorem safe_storeMem {k : UInt32} (hk : k.toNat < bpfMemWords) (v : UInt32) :
    SafeExec flen s (s.storeMem k v) := by
  rw [storeMem, if_pos hk]
  exact safe_next hpc hnx rfl

theorem safe_nlattr : SafeExec flen s (s.nlattr skb) := by
  unfold nlattr
  simp only
  split_ifs
  · exact safe_ret 0
  · exact safe_ret 0
  · split <;> exact safe_setA hpc hnx _

theorem safe_nlattrNest : SafeExec flen s (s.nlattrNest skb) := by
  unfold nlattrNest
  simp only
  split_ifs
  · exact safe_ret 0
  · exact safe_ret 0
  · exact safe_ret 0
  · split <;> exact safe_setA hpc hnx _

theorem safe_ancillary (k : ℤ) : SafeExec flen s (s.ancillary skb k) := by
  unfold ancillary
  split
  · exact safe_setA hpc hnx _
  · exact safe_setA hpc hnx _
  · split
    · exact safe_ret 0
    · exact safe_setA hpc hnx _
  · exact safe_nlattr hpc hnx
  · exact safe_nlattrNest hpc hnx
  · exact safe_setA hpc hnx _
  · exact safe_setA hpc hnx _
  · split
    · exact safe_ret 0
    · exact safe_setA hpc hnx _
  · exact safe_ret 0

theorem safe_load (k : UInt32) (size : ℕ) : SafeExec flen s (s.load skb k size) := by
  unfold load
  split
  · exact safe_setA hpc hnx _
  · exact safe_ancillary hpc hnx _

theorem safe_loadMsh (k : UInt32) : SafeExec flen s (s.loadMsh skb k) := by
  unfold loadMsh
  split
  · exact safe_setX hpc hnx _
  · exact safe_ret 0

end Safe

/-- A sum below `2 ^ 31` is the same as an `int`. -/
theorem toInt_add {pc : ℤ} {offset : UInt32} (hpc : 0 ≤ pc) (h : pc + offset.toNat < 2 ^ 31) :
    toInt (UInt32.ofInt pc + offset) = pc + offset.toNat := by
  lift pc to ℕ using hpc
  have hsm : (UInt32.ofInt pc + offset).toBitVec.toNat = pc + offset.toNat := by
    rw [UInt32.toNat_toBitVec, UInt32.toNat_add, UInt32.ofInt, UInt32.toNat_ofNat']
    omega
  rw [toInt, BitVec.toInt_eq_toNat_of_lt (by omega), hsm]
  rfl

theorem safe_jump {flen : ℕ} {s : Regs} {offset : UInt32} (hm : flen ≤ bpfMaxInsns)
    (hpc : 0 ≤ s.pc) (h : s.pc + offset.toNat + 1 < flen) : SafeExec flen s (s.jump offset) := by
  have hm' : flen ≤ 4096 := hm
  have hto := @toInt_add s.pc offset hpc (by omega)
  refine ⟨⟨?_, ?_⟩, ?_⟩
  · simp only [hto]
    omega
  · simp only [hto]
    omega
  simp only [toEnd]
  omega

/-- **A checked instruction is safe.** It returns, or goes on further down. -/
theorem exec_safe {flen pc : ℕ} {e : SockFilter} {op : Opcode} {s : Regs}
    (hm : flen ≤ bpfMaxInsns) (hs : s.pc = pc) (hpc : pc < flen) (he : Checked pc flen e op)
    (hla : ¬ op.IsRet → pc + 1 < flen) : SafeExec flen s (s.exec skb e) := by
  have hp : 0 ≤ s.pc := by omega
  have hm' : flen ≤ 4096 := hm
  have hop := he.1
  have hchk := he.2
  have hnx (h : ¬ op.IsRet) : s.pc + 1 < flen := by
    have := hla h
    omega
  have hbr (c : Bool) (h : pc + e.jt.toNat + 1 < flen ∧ pc + e.jf.toNat + 1 < flen) :
      SafeExec flen s (s.branch e c) := by
    cases c with
    | false => exact safe_jump hm hp (by simp; omega)
    | true => exact safe_jump hm hp (by simp; omega)
  unfold exec
  rw [hop]
  cases op with
  | retK | retA => exact safe_ret _
  | aluDivX =>
    simp only
    split_ifs with hx
    · exact safe_ret 0
    · exact safe_divide hp (hnx (by simp [Opcode.IsRet])) hx
  | aluDivK =>
    exact safe_divide hp (hnx (by simp [Opcode.IsRet])) (by simpa [chkOperands] using hchk)
  | ldMem =>
    exact safe_loadMem (by simpa [chkOperands] using hchk)
      (safe_setA hp (hnx (by simp [Opcode.IsRet])))
  | ldxMem =>
    exact safe_loadMem (by simpa [chkOperands] using hchk)
      (safe_setX hp (hnx (by simp [Opcode.IsRet])))
  | st | stx =>
    exact safe_storeMem hp (hnx (by simp [Opcode.IsRet])) (by simpa [chkOperands] using hchk) _
  | jmpJa =>
    have hk : e.k.toNat < (flen - pc - 1) % 2 ^ 32 := by simpa [chkOperands] using hchk
    exact safe_jump hm hp (by omega)
  | jmpJeqK | jmpJeqX | jmpJgeK | jmpJgeX | jmpJgtK | jmpJgtX | jmpJsetK | jmpJsetX =>
    exact hbr _ (by simpa [chkOperands] using hchk)
  | ldWAbs | ldHAbs | ldBAbs | ldWInd | ldHInd | ldBInd =>
    exact safe_load hp (hnx (by simp [Opcode.IsRet])) _ _
  | ldxBMsh => exact safe_loadMsh hp (hnx (by simp [Opcode.IsRet])) _
  | ldxWLen | ldxImm | miscTax => exact safe_setX hp (hnx (by simp [Opcode.IsRet])) _
  | _ => exact safe_setA hp (hnx (by simp [Opcode.IsRet])) _

/-- One turn of the loop on an accepted program. -/
theorem step_safe {filter : List SockFilter} (hacc : Accepted filter) (skb : SkBuff) (s : Regs)
    (hs : InRange filter.length s) : SafeExec filter.length s (s.step skb filter) := by
  unfold step
  rw [if_pos hs.2]
  cases hpc : s.pc with
  | negSucc n =>
    have := hs.1
    omega
  | ofNat pc =>
    have hlt : pc < filter.length := by
      have := hs.2
      rw [hpc] at this
      simpa using this
    have hg := List.getElem?_eq_getElem hlt
    obtain ⟨op, hop⟩ := hacc.checked pc filter[pc] hg
    simp only [hg]
    refine exec_safe hacc.le_max hpc hlt hop ?_
    intro hret
    by_contra he
    have hla : pc = filter.length - 1 := by omega
    refine hret (hacc.last filter[pc] op ?_ hop.1)
    rw [← hla]
    exact hg

end Regs

/-! ## The run -/

/-- **The checker is sound.** On every packet, and whatever the scratch memory holds, a
program that `sk_chk_filter` accepts leaves through a `return` after no more turns of the
loop than it has instructions, and the program counter is inside the program before
every turn. So no turn ends in the default branch, at the end of the loop, outside the
program, outside the scratch memory or in a division by zero, which are other exits. -/
theorem skRunFilter_returns {filter filter' : List SockFilter}
    (h : skChkFilter filter = (0, filter')) (skb : SkBuff) (mem : List UInt32) :
    (∃ v, skRunFilter skb filter' mem filter.length = .done (.ret v)) ∧
      ∀ n s, skRunFilter skb filter' mem n = .next s → 0 ≤ s.pc ∧ s.pc < filter.length := by
  have hspec := skChkFilter_accepted h
  have hacc := hspec.1
  have hstart : InRange filter'.length (startRegs mem) := by
    refine ⟨Int.le_refl 0, ?_⟩
    have := hacc.pos
    simp only [startRegs]
    omega
  rw [← hspec.2]
  constructor
  · have hmeasure : toEnd filter'.length (startRegs mem) < filter'.length := by
      have := hacc.pos
      simp only [toEnd, startRegs]
      omega
    obtain ⟨r, hr⟩ := runFor_done_of_measure (Regs.step_safe hacc skb) hstart hmeasure
    obtain ⟨v, hv⟩ := hr.2
    exact ⟨v, by rw [← hv]; exact hr.1⟩
  · intro n s hn
    have hkeeps := runFor_keeps (fun s hs => (Regs.step_safe hacc skb s hs).keeps) n hstart
    rwa [← skRunFilter, hn] at hkeeps

/-- A program that keeps a word in the scratch memory and divides by a constant. -/
def sampleFilter : List SockFilter :=
  [⟨bpfLd ||| bpfImm, 0, 0, 40⟩, ⟨bpfSt, 0, 0, 15⟩, ⟨bpfJmp ||| bpfJeq ||| bpfK, 1, 0, 0⟩,
   ⟨bpfAlu ||| bpfDiv ||| bpfK, 0, 0, 2⟩, ⟨bpfRet ||| bpfA, 0, 0, 0⟩]

theorem skRunFilter_returns_sample :
    (skChkFilter sampleFilter).1 = 0 ∧
      ∃ v, skRunFilter (linearPacket []) (skChkFilter sampleFilter).2 [] sampleFilter.length =
        .done (.ret v) :=
  ⟨by decide, (@skRunFilter_returns sampleFilter _ (by rfl) (linearPacket []) []).1⟩

end NestLinux.Filter
