import NestLinux.Fs.Jffs2.WbufWrite

/-!
# Runs of the JFFS2 write buffer

Writing begins at the start of an erased block and goes on behind what was written there,
or on the next page after a padded flush. In every state of such a run a read returns what
was written, and the flash saw whole pages only, each of them once between two erasures.
-/

namespace NestLinux.Wbuf

open Lib List

variable {g : Geometry} {c : SbInfo} {m : ℕ → Option Byte} {block : ℕ} {ofs len i x : ℕ}
  {last : Option Last} {invecs : List (List Byte)}

/-! ## Read -/

/-- **Read.** A byte of a range inside one block comes from the buffer if it is there, and
from the flash otherwise. -/
theorem flashRead_getElem (hi : i < len) (hp : ∀ a, InBuf c a →
      sectorAddr g ofs = sectorAddr g c.ofs ∨ a < ofs ∨ ofs + len ≤ a) :
    (InBuf c (ofs + i) → (flashRead g c ofs len)[i]? = some (c.buf (ofs + i - c.ofs))) ∧
      (¬ InBuf c (ofs + i) → (flashRead g c ofs len)[i]? = some (c.data (ofs + i))) := by
  have hg (f : ℕ → Byte) : ((range len).map f)[i]? = some (f i) := by
    rw [getElem?_map, getElem?_range hi, Option.map_some]
  have hcp (orbf owbf n : ℕ) (hle : orbf ≤ i) (hlt : i < orbf + n) (f : ℕ → Byte) :
      overlay f orbf ((range n).map fun j => c.buf (owbf + j)) i = c.buf (owbf + (i - orbf)) := by
    have hm := overlay_of_mem (f := f) (v := (range n).map fun j => c.buf (owbf + j)) hle
      (by rw [length_map, length_range]; exact hlt)
    rw [getElem?_map, getElem?_range (by omega), Option.map_some, Option.some_inj] at hm
    exact hm.symm
  have hkp (orbf owbf n : ℕ) (ho : i < orbf ∨ orbf + n ≤ i) (f : ℕ → Byte) :
      overlay f orbf ((range n).map fun j => c.buf (owbf + j)) i = f i := by
    cases ho with
    | inl h => exact overlay_of_lt h
    | inr h => exact overlay_of_le (by rw [length_map, length_range]; exact h)
  have hz (n : ℕ) : ((range n).map fun j => c.buf j) =
      (range n).map fun j => c.buf (0 + j) := by simp
  unfold flashRead
  simp only
  rw [hg]
  constructor
  · intro hin
    have hsec : sectorAddr g ofs = sectorAddr g c.ofs := (hp _ hin).resolve_right (by omega)
    obtain ⟨h1, h2⟩ := hin
    rw [if_neg (by omega), if_neg (not_not_intro hsec)]
    by_cases hle : c.ofs ≤ ofs
    · rw [if_pos hle, if_neg (by omega), hcp _ _ _ (Nat.zero_le _) (by omega)]
      congr 2
      omega
    rw [if_neg hle, if_neg (by omega), hz, hcp _ _ _ (by omega) (by omega)]
    congr 2
    omega
  · intro ho
    rw [InBuf] at ho
    split_ifs with h1 h2 h3 h4 h4
    · rfl
    · rfl
    · rfl
    · rw [hkp _ _ _ (by omega)]
    · rfl
    · rw [hz, hkp _ _ _ (by omega)]

/-! ## Runs -/

/-- The previous write: its block, its end, and whether the buffer was flushed since. -/
structure Last where
  block : ℕ
  fin : ℕ
  flushed : Bool

/-- Where the next write into the block goes: to the 4-aligned end of the previous one, or,
after a padded flush, to the next page. -/
def nextWrite (g : Geometry) (l : Last) : ℕ :=
  if l.flushed then (l.fin + (g.pagesize - 1)) / g.pagesize * g.pagesize else (l.fin + 3) / 4 * 4

/-- What was written, without what was in a block that is erased. -/
def forget (g : Geometry) (m : ℕ → Option Byte) (block a : ℕ) : Option Byte :=
  if block ≤ a ∧ a < block + g.sectorSize then none else m a

/-- A run of writes and padded flushes, with what was written into blocks not erased since. A
write is the first one into an erased block, or goes on behind the previous one. Reads change
nothing. -/
inductive WbufRun (g : Geometry) : SbInfo → (ℕ → Option Byte) → Option Last → Prop
  | mount {c : SbInfo} (hofs : c.ofs = noOfs) (hlen : c.len = 0) (hlog : c.log = [])
      (honce : ∀ p, c.programmed p ≤ 1) : WbufRun g c (fun _ => none) none
  | erase {c : SbInfo} {m : ℕ → Option Byte} {last : Option Last} (run : WbufRun g c m last)
      {block : ℕ} (hblock : IsBlock g block) :
      WbufRun g (eraseBlock g c block) (forget g m block) last
  | first {c c' : SbInfo} {m : ℕ → Option Byte} {last : Option Last} (run : WbufRun g c m last)
      {block : ℕ} (hblock : IsBlock g block) (herased : Fresh g c block (block + g.sectorSize))
      {invecs : List (List Byte)} (hfit : total invecs ≤ g.sectorSize)
      (hres : flashWritev g (findNextblock g c) invecs block = some c') :
      WbufRun g c' (record m block invecs.flatten) (some ⟨block, block + total invecs, false⟩)
  | later {c c' : SbInfo} {m : ℕ → Option Byte} {l : Last} (run : WbufRun g c m (some l))
      {invecs : List (List Byte)} (hin : nextWrite g l < l.block + g.sectorSize)
      (hfit : nextWrite g l + total invecs ≤ l.block + g.sectorSize)
      (hres : flashWritev g c invecs (nextWrite g l) = some c') :
      WbufRun g c' (record m (nextWrite g l) invecs.flatten)
        (some ⟨l.block, nextWrite g l + total invecs, false⟩)
  | flush {c : SbInfo} {m : ℕ → Option Byte} {last : Option Last} (run : WbufRun g c m last) :
      WbufRun g (flushWbufPad g c) m (last.map fun l => { l with flushed := true })

/-- Where the buffer is between operations. -/
def State (g : Geometry) (c : SbInfo) (m : ℕ → Option Byte) : Option Last → Prop
  | none => Holds g c m ∧ c.ofs = noOfs ∧ c.len = 0
  | some l => InBlock g c m l.block ∧ c.len < g.pagesize ∧
      if l.flushed then c.len = 0 ∧ c.ofs = nextWrite g l else c.ofs + c.len = l.fin

theorem State.holds (hs : State g c m last) : Holds g c m := by
  cases last with
  | none => exact hs.1
  | some l => exact hs.1.holds

theorem Holds.erase (hh : Holds g c m) (hb : IsBlock g block) :
    Holds g (eraseBlock g c block) (forget g m block) := by
  have hpg : g.pagesize ∣ block := g.page_dvd.trans hb.1
  refine ⟨?_, hh.aligned, ?_, ?_⟩
  · intro p
    simp only [eraseBlock]
    split_ifs
    · exact Nat.zero_le 1
    · exact hh.once p
  · intro a v hm hin
    rw [forget] at hm
    split_ifs at hm
    exact hh.inBuf a v hm hin
  intro a v hm ho
  rw [forget] at hm
  split_ifs at hm with hin
  have hle : block ≤ a / g.pagesize * g.pagesize → block ≤ a := by
    intro h
    exact h.trans (Nat.div_mul_le_self a g.pagesize)
  have hpin : ¬ (block ≤ a / g.pagesize * g.pagesize ∧
      a / g.pagesize * g.pagesize < block + g.sectorSize) := by
    rw [page_lt_iff (Nat.dvd_add hpg g.page_dvd)]
    exact fun hc => hin ⟨hle hc.1, hc.2⟩
  simp only [eraseBlock]
  rw [if_neg hin, if_neg hpin]
  exact hh.onFlash a v hm ho

theorem Fresh.erase {lo hi : ℕ} (hf : Fresh g c lo hi) (block : ℕ) :
    Fresh g (eraseBlock g c block) lo hi := by
  intro a h1 h2
  have ha := hf a h1 h2
  simp only [eraseBlock]
  split_ifs <;> simp [ha.1, ha.2]

theorem State.erase (hs : State g c m last) (hbk : IsBlock g block) :
    State g (eraseBlock g c block) (forget g m block) last := by
  cases last with
  | none => exact ⟨hs.1.erase hbk, hs.2⟩
  | some l =>
    obtain ⟨hb, hrs⟩ := hs
    refine ⟨⟨hb.holds.erase hbk, hb.sector, hb.inFlash, hb.ofs_dvd, hb.len_le, hb.le_ofs,
      hb.end_le, hb.fresh.erase block, ?_⟩, hrs⟩
    intro a h1 h2
    rw [forget, hb.free a h1 h2, ite_self]

theorem pageMod_of_dvd (h : g.pagesize ∣ x) : pageMod g x = 0 := Nat.mod_eq_zero_of_dvd h

theorem pageDiv_of_dvd (h : g.pagesize ∣ x) : pageDiv g x = x := Nat.div_mul_cancel h

/-- Once the buffer is at the address, the write goes through. -/
theorem flashWritev_of_switched {dst : ℕ} {c' : SbInfo}
    (hsw : switchBlock g (initWbuf g c dst) dst = c') (hb : InBlock g c' m block)
    (hlt : c'.len < g.pagesize) (hdst : dst = (c'.ofs + c'.len + 3) / 4 * 4)
    (hin : dst < block + g.sectorSize) (hf : dst + total invecs ≤ block + g.sectorSize) :
    ∃ c', flashWritev g c invecs dst = some c' ∧
      State g c' (record m dst invecs.flatten) (some ⟨block, dst + total invecs, false⟩) := by
  have hsz := g.flashSize_lt
  have hfla := hb.inFlash
  have hpad : pad (add32 c'.ofs c'.len) = dst := by
    rw [add32_of_lt (by omega), pad_of_lt (by omega), ← hdst]
  unfold flashWritev
  rw [hsw, if_neg (not_not_intro hpad.symm)]
  obtain ⟨h1, h2, h3⟩ := alignWbuf_inBlock hb hlt hdst hin
  have hwr := writeVecs_inBlock h1 h2 invecs (by omega)
  rw [h3] at hwr
  exact ⟨_, rfl, hwr.1, hwr.2.1, hwr.2.2⟩

/-- The buffer is empty, and moves to the start of an erased block. -/
theorem Holds.first {c' : SbInfo} {buf : ℕ → Byte} (hh : Holds g c' m) (he : c'.len = 0)
    (hbk : IsBlock g block) (hera : Fresh g c' block (block + g.sectorSize))
    (hft : total invecs ≤ g.sectorSize)
    (hsw : switchBlock g (initWbuf g c block) block =
      { c' with ofs := block, len := 0, buf := buf }) :
    ∃ c', flashWritev g c invecs block = some c' ∧
      State g c' (record m block invecs.flatten) (some ⟨block, block + total invecs, false⟩) := by
  have hfour := four_dvd_of_page (g.page_dvd.trans hbk.1)
  have hpos := g.sectorSize_pos
  exact flashWritev_of_switched hsw (hh.move he hbk hera buf) g.pagesize_pos (by simp only; omega)
    (by omega) (by omega)

theorem switchBlock_unset (hpg : g.pagesize ∣ block) :
    switchBlock g (initWbuf g { c with ofs := noOfs } block) block =
      { c with ofs := block, len := 0, buf := fun _ => 0xff } := by
  rw [initWbuf, if_pos rfl, pageDiv_of_dvd hpg, pageMod_of_dvd hpg]
  exact if_neg (not_not_intro rfl)

section Switch

variable (hb : InBlock g c m block) (hr : ¬ (c.ofs % g.sectorSize = 0 ∧ c.len = 0))
include hb hr

/-- A buffer that `jffs2_find_nextblock` leaves as it is lies inside of its block. -/
theorem InBlock.sectorAddr_ofs : sectorAddr g c.ofs = block := by
  refine sectorAddr_eq hb.sector hb.le_ofs ?_
  have he := hb.end_le
  by_contra hc
  have heq : c.ofs = block + g.sectorSize := by omega
  refine hr ⟨?_, by omega⟩
  rw [heq]
  exact Nat.mod_eq_zero_of_dvd (Nat.dvd_add hb.sector (dvd_refl _))

/-- A write to the start of the buffer's own block meets the `BUG()`. -/
theorem InBlock.flashWritev_start : flashWritev g c invecs block = none := by
  have hsw : switchBlock g (initWbuf g c block) block = c := by
    rw [initWbuf, if_neg (ofs_ne_noOfs hb.ofs_dvd), switchBlock, hb.sectorAddr_ofs hr,
      sectorAddr_eq hb.sector le_rfl (by have := g.sectorSize_pos; omega)]
    exact if_neg (not_not_intro rfl)
  have he := hb.end_le
  have hle := hb.le_ofs
  have hfla := hb.inFlash
  have hsz := g.flashSize_lt
  have hen : 4 ∣ block + g.sectorSize :=
    four_dvd_of_page (Nat.dvd_add (g.page_dvd.trans hb.sector) g.page_dvd)
  unfold flashWritev
  rw [hsw]
  refine if_pos fun heq => ?_
  rw [add32_of_lt (by omega), pad_of_lt (by omega)] at heq
  have hat : c.ofs = block ∧ c.len = 0 := by omega
  refine hr ⟨?_, hat.2⟩
  rw [hat.1]
  exact Nat.mod_eq_zero_of_dvd hb.sector

/-- A write to another block flushes the buffer. -/
theorem InBlock.switchBlock_other {other : ℕ} (hbk : IsBlock g other) (hne : other ≠ block) :
    switchBlock g (initWbuf g c other) other =
      { flushWbuf g .padNoaccount c with ofs := other, len := 0 } := by
  have hpg : g.pagesize ∣ other := g.page_dvd.trans hbk.1
  rw [initWbuf, if_neg (ofs_ne_noOfs hb.ofs_dvd), switchBlock, hb.sectorAddr_ofs hr,
    sectorAddr_eq hbk.1 le_rfl (by have := g.sectorSize_pos; omega), if_pos hne,
    pageDiv_of_dvd hpg, pageMod_of_dvd hpg]
  by_cases hl : c.len = 0
  · rw [if_neg (not_not_intro hl), flushWbuf, if_pos hl]
  · rw [if_pos hl]

end Switch

/-- **The first write into a block** that is erased. It goes through, unless the buffer is
still in that very block. -/
theorem State.first (hs : State g c m last) (hbk : IsBlock g block)
    (hera : Fresh g c block (block + g.sectorSize)) (hft : total invecs ≤ g.sectorSize) :
    (∃ c', flashWritev g (findNextblock g c) invecs block = some c' ∧
      State g c' (record m block invecs.flatten) (some ⟨block, block + total invecs, false⟩)) ∨
    flashWritev g (findNextblock g c) invecs block = none ∧
      ∃ l, last = some l ∧ l.block = block := by
  have hpg : g.pagesize ∣ block := g.page_dvd.trans hbk.1
  cases last with
  | none =>
    obtain ⟨hh, ho, hl⟩ := hs
    have hnx : findNextblock g c = { c with ofs := noOfs } := by
      rw [findNextblock, ← ho]
      exact ite_self c
    rw [hnx]
    exact .inl (hh.first hl hbk hera hft (switchBlock_unset hpg))
  | some l =>
    obtain ⟨hb, -, -⟩ := hs
    by_cases hr : c.ofs % g.sectorSize = 0 ∧ c.len = 0
    · have hnx : findNextblock g c = { c with ofs := noOfs } := if_pos hr
      rw [hnx]
      exact .inl (hb.holds.first hr.2 hbk hera hft (switchBlock_unset hpg))
    have hnx : findNextblock g c = c := if_neg hr
    rw [hnx]
    by_cases hsm : l.block = block
    · exact .inr ⟨hsm ▸ hb.flashWritev_start hr, l, rfl, hsm⟩
    have hap : block + g.sectorSize ≤ l.block ∨ l.block + g.sectorSize ≤ block := by
      by_contra hc
      exact hsm (le_antisymm (Nat.le_of_lt_add_of_dvd (by omega) hb.sector hbk.1)
        (Nat.le_of_lt_add_of_dvd (by omega) hbk.1 hb.sector))
    have hfls := flushWbuf_inBlock hb .padNoaccount
    exact .inl (hfls.1.holds.first hfls.2.1 hbk (hfls.2.2.2 _ _ hera hap) hft
      (hb.switchBlock_other hr hbk (Ne.symm hsm)))

/-- **A later write into the block.** -/
theorem State.later {l : Last} (hs : State g c m (some l))
    (hin : nextWrite g l < l.block + g.sectorSize)
    (hf : nextWrite g l + total invecs ≤ l.block + g.sectorSize) :
    ∃ c', flashWritev g c invecs (nextWrite g l) = some c' ∧
      State g c' (record m (nextWrite g l) invecs.flatten)
        (some ⟨l.block, nextWrite g l + total invecs, false⟩) := by
  obtain ⟨hb, hlt, hcur⟩ := hs
  have hfr := four_dvd_of_page hb.ofs_dvd
  have hdst : nextWrite g l = (c.ofs + c.len + 3) / 4 * 4 := by
    cases hfl : l.flushed with
    | false =>
      simp only [hfl] at hcur
      rw [nextWrite, hfl, hcur]
      rfl
    | true =>
      simp only [hfl, if_true] at hcur
      omega
  have hle := hb.le_ofs
  have hsw : switchBlock g (initWbuf g c (nextWrite g l)) (nextWrite g l) = c := by
    rw [initWbuf, if_neg (ofs_ne_noOfs hb.ofs_dvd), switchBlock,
      sectorAddr_eq hb.sector (by omega) hin, sectorAddr_eq hb.sector hle (by omega)]
    exact if_neg (not_not_intro rfl)
  exact flashWritev_of_switched hsw hb hlt hdst hin hf

theorem State.flush (hs : State g c m last) :
    State g (flushWbufPad g c) m (last.map fun l => { l with flushed := true }) := by
  cases last with
  | none =>
    have hsm : flushWbufPad g c = c := if_pos hs.2.2
    rw [hsm]
    exact hs
  | some l =>
    obtain ⟨hb, hlt, hcur⟩ := hs
    have hfls := flushWbuf_inBlock hb .padNoaccount
    have hp := g.pagesize_pos
    refine ⟨hfls.1, by rw [flushWbufPad, hfls.2.1]; exact hp, hfls.2.1, ?_⟩
    rw [flushWbufPad, hfls.2.2.1, nextWrite, if_pos rfl]
    cases hfl : l.flushed with
    | true =>
      simp only [hfl, if_true, nextWrite] at hcur
      rw [if_pos hcur.1, hcur.2]
    | false =>
      simp only [hfl, Bool.false_eq_true, if_false] at hcur
      obtain ⟨k, hk⟩ := hb.ofs_dvd
      have hsl : l.fin + (g.pagesize - 1) = g.pagesize * k + (c.len + (g.pagesize - 1)) := by
        omega
      rw [hsl, Nat.mul_add_div hp, add_mul, mul_comm k]
      by_cases hl : c.len = 0
      · rw [if_pos hl, hl, Nat.div_eq_of_lt (by omega)]
        omega
      have ho : (c.len + (g.pagesize - 1)) / g.pagesize = 1 :=
        Nat.div_eq_of_lt_le (by omega) (by omega)
      rw [if_neg hl, ho]
      omega

theorem WbufRun.state (hr : WbufRun g c m last) : State g c m last := by
  induction hr with
  | mount ho hl hlog hon =>
    refine ⟨⟨hon, ?_, ?_, ?_⟩, ho, hl⟩
    · intro w hw
      rw [hlog] at hw
      cases hw
    · intro a v hm
      cases hm
    intro a v hm
    cases hm
  | erase _ hb ih => exact ih.erase hb
  | first _ hb hera hf hrs ih =>
    cases ih.first hb hera hf with
    | inl h =>
      obtain ⟨c'', hc, hs⟩ := h
      rw [hrs] at hc
      cases hc
      exact hs
    | inr h =>
      rw [hrs] at h
      cases h.1
  | later _ hin hf hrs ih =>
    obtain ⟨c'', hc, hs⟩ := ih.later hin hf
    rw [hrs] at hc
    cases hc
    exact hs
  | flush _ ih => exact ih.flush

theorem State.read (hs : State g c m last) (hd : g.sectorSize ∣ block) (hlo : block ≤ ofs)
    (hhi : ofs + len ≤ block + g.sectorSize) (hi : i < len) {v : Byte} (hm : m (ofs + i) = some v) :
    (flashRead g c ofs len)[i]? = some v := by
  have hp : ∀ a, InBuf c a → sectorAddr g ofs = sectorAddr g c.ofs ∨ a < ofs ∨ ofs + len ≤ a := by
    intro a ha
    cases last with
    | none =>
      have := hs.2.2
      have := ha.1
      have := ha.2
      omega
    | some l =>
      have hb := hs.1
      have h1 := ha.1
      have h2 := ha.2
      have hle := hb.le_ofs
      have he := hb.end_le
      have hcs := sectorAddr_eq hb.sector hle (by omega)
      have has := sectorAddr_eq (a := a) hb.sector (by omega) (by omega)
      by_cases ho : a < ofs ∨ ofs + len ≤ a
      · exact .inr ho
      left
      rw [hcs, ← has, sectorAddr_eq hd hlo (by omega),
        sectorAddr_eq hd (by omega) (by omega)]
  have hg := flashRead_getElem hi hp
  by_cases hin : InBuf c (ofs + i)
  · rw [hg.1 hin, hs.holds.inBuf _ v hm hin]
  · rw [hg.2 hin, (hs.holds.onFlash _ v hm hin).1]

/-- **The write buffer.** In every state of a run: all writes to the flash were of whole pages
at addresses of pages, no page was programmed twice between two erasures, and a read of a
range inside one block returns what was written. The next write goes through: into an erased
block other than that of the previous write, or on behind the previous write. -/
theorem wbufRun_correct {last : Option Last} (hrun : WbufRun g c m last) :
    (∀ w ∈ c.log, g.pagesize ∣ w.1 ∧ g.pagesize ∣ w.2) ∧
    (∀ p, c.programmed p ≤ 1) ∧
    (∀ block ofs len, g.sectorSize ∣ block → block ≤ ofs → ofs + len ≤ block + g.sectorSize →
      ∀ i < len, ∀ v, m (ofs + i) = some v → (flashRead g c ofs len)[i]? = some v) ∧
    (∀ block invecs, IsBlock g block → Fresh g c block (block + g.sectorSize) →
      total invecs ≤ g.sectorSize → (∀ l, last = some l → l.block ≠ block) →
      ∃ c', flashWritev g (findNextblock g c) invecs block = some c') ∧
    (∀ l invecs, last = some l → nextWrite g l < l.block + g.sectorSize →
      nextWrite g l + total invecs ≤ l.block + g.sectorSize →
      ∃ c', flashWritev g c invecs (nextWrite g l) = some c') := by
  have hs := hrun.state
  refine ⟨hs.holds.aligned, hs.holds.once, ?_, ?_, ?_⟩
  · intro block ofs len hdvd hlo hhi i hi v hm
    exact hs.read hdvd hlo hhi hi hm
  · intro block invecs hblock herased hfit hother
    cases hs.first hblock herased hfit with
    | inl h =>
      obtain ⟨c', hc, -⟩ := h
      exact ⟨c', hc⟩
    | inr h =>
      obtain ⟨-, l, hl, heq⟩ := h
      exact absurd heq (hother l hl)
  · intro l invecs hl hin hfit
    subst hl
    obtain ⟨c', hc, -⟩ := hs.later hin hfit
    exact ⟨c', hc⟩

/-- Two blocks of two pages of four bytes. -/
def twoBlocks : Geometry where
  pagesize := 4
  sectorSize := 8
  flashSize := 16
  pagesize_pos := by decide
  four_dvd := by decide
  page_dvd := by decide
  sectorSize_pos := by decide
  flashSize_lt := by decide

/-- An erased flash, just mounted. -/
def blank : SbInfo where
  ofs := noOfs
  len := 0
  buf := fun _ => 0xff
  data := fun _ => 0xff
  programmed := fun _ => 0
  log := []

/-- The flash after a write of five bytes, in two vectors. -/
def fiveBytes : SbInfo :=
  (flashWritev twoBlocks (findNextblock twoBlocks blank) [[1, 2, 3], [4, 5]] 8).getD blank

theorem wbufRun_correct_fiveBytes :
    WbufRun twoBlocks fiveBytes (record (fun _ => none) 8 [1, 2, 3, 4, 5]) (some ⟨8, 13, false⟩) ∧
      fiveBytes.log = [(8, 4)] ∧ (∀ p, fiveBytes.programmed p ≤ 1) ∧
      (flashRead twoBlocks fiveBytes 8 8)[4]? = some 5 := by
  have hrun : WbufRun twoBlocks fiveBytes (record (fun _ => none) 8 [1, 2, 3, 4, 5])
      (some ⟨8, 13, false⟩) := by
    have hmount : WbufRun twoBlocks blank (fun _ => none) none :=
      WbufRun.mount rfl rfl rfl (fun _ => Nat.zero_le 1)
    have hres : flashWritev twoBlocks (findNextblock twoBlocks blank) [[1, 2, 3], [4, 5]] 8 =
        some fiveBytes := rfl
    exact WbufRun.first hmount ⟨by decide, by decide⟩ (fun _ _ _ => ⟨rfl, rfl⟩) (by decide) hres
  have hspec := wbufRun_correct hrun
  refine ⟨hrun, rfl, hspec.2.1, ?_⟩
  exact hspec.2.2.1 8 8 8 (by decide) (by decide) (by decide) 4 (by decide) 5 rfl

end NestLinux.Wbuf
