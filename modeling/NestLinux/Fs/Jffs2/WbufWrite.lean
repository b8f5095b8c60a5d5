import NestLinux.Fs.Jffs2.Wbuf
import Mathlib.Tactic.Ring

/-!
# Writing through the JFFS2 write buffer

While writing goes on in a block, the pages from the buffer on are still erased, and
nothing was written behind the part of the buffer in use. What was written is in the
buffer, or on a page that was programmed. So the buffer only ever goes to an erased page,
and what was written is found there.
-/

namespace NestLinux.Wbuf

open Lib List

variable {g : Geometry} {c : SbInfo} {m : ℕ → Option Byte} {block : ℕ} {x dst len : ℕ} {c' : SbInfo}
  {bytes : ℕ → Byte} {v : List Byte}

/-! ## The flash -/

/-- The addresses are on erased pages. -/
def Fresh (g : Geometry) (c : SbInfo) (lo hi : ℕ) : Prop :=
  ∀ a, lo ≤ a → a < hi → c.data a = 0xff ∧ c.programmed (a / g.pagesize) = 0

/-- An address is behind an address that is a page's, if its page is. -/
theorem lt_page_iff (hx : g.pagesize ∣ x) (a : ℕ) :
    x < (a / g.pagesize + 1) * g.pagesize ↔ x ≤ a := by
  obtain ⟨k, rfl⟩ := hx
  rw [mul_comm, Nat.mul_lt_mul_right g.pagesize_pos, Nat.lt_succ_iff,
    Nat.le_div_iff_mul_le g.pagesize_pos]

theorem page_lt_iff (hx : g.pagesize ∣ x) (a : ℕ) : a / g.pagesize * g.pagesize < x ↔ a < x := by
  obtain ⟨k, rfl⟩ := hx
  rw [mul_comm g.pagesize k, Nat.mul_lt_mul_right g.pagesize_pos,
    Nat.div_lt_iff_lt_mul g.pagesize_pos]

theorem ff_and (b : Byte) : 0xff &&& b = b := by
  revert b
  decide

/-- What writing whole erased pages does. -/
structure Wrote (g : Geometry) (c c' : SbInfo) (dst len : ℕ) (bytes : ℕ → Byte) : Prop where
  once : (∀ p, c.programmed p ≤ 1) → ∀ p, c'.programmed p ≤ 1
  log : c'.log = c.log ++ [(dst, len)]
  inside : ∀ a, dst ≤ a → a < dst + len →
    c'.data a = bytes (a - dst) ∧ c'.programmed (a / g.pagesize) ≠ 0
  outside : ∀ a, ¬ (dst ≤ a ∧ a < dst + len) →
    c'.data a = c.data a ∧ c'.programmed (a / g.pagesize) = c.programmed (a / g.pagesize)

/-- The buffer can be moved and filled. -/
theorem Wrote.moved {bytes buf : ℕ → Byte} {y : ℕ} (h : Wrote g c c' dst len bytes) :
    Wrote g c { c' with ofs := x, len := y, buf := buf } dst len bytes :=
  ⟨h.once, h.log, h.inside, h.outside⟩

theorem mtdWrite_wrote (bytes : ℕ → Byte) (hdst : g.pagesize ∣ dst) (hl : g.pagesize ∣ len)
    (hfr : Fresh g c dst (dst + len)) : Wrote g c (mtdWrite g c dst len bytes) dst len bytes := by
  have he : g.pagesize ∣ dst + len := Nat.dvd_add hdst hl
  refine ⟨?_, rfl, ?_, ?_⟩
  · intro hon p
    simp only [mtdWrite]
    split_ifs with hp
    · have hps := g.pagesize_pos
      have hpg : p * g.pagesize / g.pagesize = p := Nat.mul_div_cancel p hps
      have hlo : dst ≤ p * g.pagesize := by
        rw [← lt_page_iff hdst, hpg]
        exact hp.1
      have hz := (hfr (p * g.pagesize) hlo hp.2).2
      rw [hpg] at hz
      omega
    · exact hon p
  · intro a h1 h2
    simp only [mtdWrite]
    rw [if_pos ⟨h1, h2⟩, (hfr a h1 h2).1, ff_and,
      if_pos ⟨(lt_page_iff hdst a).2 h1, (page_lt_iff he a).2 h2⟩]
    exact ⟨rfl, Nat.succ_ne_zero _⟩
  intro a ho
  simp only [mtdWrite]
  have hpg : ¬ (dst < (a / g.pagesize + 1) * g.pagesize ∧
      a / g.pagesize * g.pagesize < dst + len) := by
    rw [lt_page_iff hdst, page_lt_iff he]
    exact ho
  rw [if_neg ho, if_neg hpg]
  exact ⟨rfl, rfl⟩

/-- Erased pages that are not written stay erased. -/
theorem Wrote.fresh {lo hi : ℕ} (hw : Wrote g c c' dst len bytes) (hle : dst + len ≤ lo)
    (hf : Fresh g c lo hi) : Fresh g c' lo hi := by
  intro a h1 h2
  have ho := hw.outside a (by omega)
  rw [ho.1, ho.2]
  exact hf a h1 h2

/-! ## What the buffer and the flash hold -/

/-- The address is in the part of the buffer in use. -/
def InBuf (c : SbInfo) (a : ℕ) : Prop := c.ofs ≤ a ∧ a < c.ofs + c.len

/-- What was written is in the buffer or on the flash, no page was programmed twice, and all
writes were of whole pages. -/
structure Holds (g : Geometry) (c : SbInfo) (m : ℕ → Option Byte) : Prop where
  once : ∀ p, c.programmed p ≤ 1
  aligned : ∀ w ∈ c.log, g.pagesize ∣ w.1 ∧ g.pagesize ∣ w.2
  inBuf : ∀ a v, m a = some v → InBuf c a → c.buf (a - c.ofs) = v
  onFlash : ∀ a v, m a = some v → ¬ InBuf c a →
    c.data a = v ∧ c.programmed (a / g.pagesize) ≠ 0

/-- The buffer is in a block: the pages from it on are erased, and nothing was written behind
the part of it in use. -/
structure InBlock (g : Geometry) (c : SbInfo) (m : ℕ → Option Byte) (block : ℕ) : Prop where
  holds : Holds g c m
  sector : g.sectorSize ∣ block
  inFlash : block + g.sectorSize ≤ g.flashSize
  ofs_dvd : g.pagesize ∣ c.ofs
  len_le : c.len ≤ g.pagesize
  le_ofs : block ≤ c.ofs
  end_le : c.ofs + c.len ≤ block + g.sectorSize
  fresh : Fresh g c c.ofs (block + g.sectorSize)
  free : ∀ a, c.ofs + c.len ≤ a → a < block + g.sectorSize → m a = none

/-- A buffer that is in use is inside of the block as a whole. -/
theorem InBlock.page_le (hb : InBlock g c m block) (hl : c.len ≠ 0) :
    c.ofs + g.pagesize ≤ block + g.sectorSize := by
  have he : g.pagesize ∣ block + g.sectorSize :=
    Nat.dvd_add (g.page_dvd.trans hb.sector) g.page_dvd
  have hle := hb.end_le
  by_contra hc
  have := Nat.le_of_lt_add_of_dvd (not_le.1 hc) he hb.ofs_dvd
  omega

/-- **Pages go to the flash** from the buffer's address on: what was in the buffer, or a
vector, or both. What is written afterwards is on the flash. -/
theorem InBlock.wrote (hb : InBlock g c m block) {m' : ℕ → Option Byte}
    (hw : Wrote g c c' c.ofs len bytes) (hl : g.pagesize ∣ len)
    (hle : c.ofs + len ≤ block + g.sectorSize) (hc : c.len ≤ len) (ho : c'.ofs = c.ofs + len)
    (hz : c'.len = 0)
    (hn : ∀ a v, m' a = some v → c.ofs ≤ a → a < c.ofs + len → bytes (a - c.ofs) = v)
    (hold : ∀ a, ¬ (c.ofs ≤ a ∧ a < c.ofs + len) → m' a = m a) : InBlock g c' m' block := by
  refine ⟨⟨hw.once hb.holds.once, ?_, ?_, ?_⟩, hb.sector, hb.inFlash, ?_, by omega, ?_, by omega,
    ?_, ?_⟩
  · intro w hmm
    rw [hw.log, mem_append, mem_singleton] at hmm
    cases hmm with
    | inl hm => exact hb.holds.aligned w hm
    | inr heq =>
      rw [heq]
      exact ⟨hb.ofs_dvd, hl⟩
  · intro a v _ hin
    rw [InBuf] at hin
    omega
  · intro a v hm _
    by_cases hin : c.ofs ≤ a ∧ a < c.ofs + len
    · have hwr := hw.inside a hin.1 hin.2
      rw [hwr.1]
      exact ⟨hn a v hm hin.1 hin.2, hwr.2⟩
    rw [hold a hin] at hm
    have hot := hw.outside a hin
    rw [hot.1, hot.2]
    refine hb.holds.onFlash a v hm ?_
    intro hbuf
    exact hin ⟨hbuf.1, by have := hbuf.2; omega⟩
  · rw [ho]
    exact Nat.dvd_add hb.ofs_dvd hl
  · have := hb.le_ofs
    omega
  · rw [ho]
    refine hw.fresh le_rfl ?_
    intro a h1 h2
    exact hb.fresh a (by omega) h2
  · intro a h1 h2
    rw [hold a (by omega)]
    exact hb.free a (by omega) h2

theorem pad_of_lt (h : x + 3 < 2 ^ 32) : pad x = (x + 3) / 4 * 4 := by
  rw [pad, add32_of_lt h]

/-- Padding the buffer keeps what is in use of it. -/
theorem padded_spec (g : Geometry) (c : SbInfo) (mode : PadMode) (hl : c.len + 3 < 2 ^ 32) :
    ∃ n buf, (if mode = .noPad then c else padWbuf g c) = { c with len := n, buf := buf } ∧
      ∀ i < c.len, buf i = c.buf i := by
  split_ifs
  · exact ⟨_, _, rfl, fun _ _ => rfl⟩
  refine ⟨_, _, rfl, fun i hi => ?_⟩
  have hpad := pad_of_lt hl
  have hlt : i < pad c.len := by omega
  have hbuf : (if pad c.len ≤ i ∧ i < g.pagesize then 0 else c.buf i) = c.buf i :=
    if_neg (by omega)
  split_ifs
  · rw [overlay_of_lt hlt]
    exact hbuf
  · exact hbuf

/-- **Flush.** Erased pages stay erased, apart from that of the buffer. -/
theorem flushWbuf_inBlock (hb : InBlock g c m block) (mode : PadMode) :
    InBlock g (flushWbuf g mode c) m block ∧ (flushWbuf g mode c).len = 0 ∧
      ((flushWbuf g mode c).ofs = if c.len = 0 then c.ofs else c.ofs + g.pagesize) ∧
      ∀ lo hi, Fresh g c lo hi → hi ≤ block ∨ block + g.sectorSize ≤ lo →
        Fresh g (flushWbuf g mode c) lo hi := by
  unfold flushWbuf
  by_cases hl : c.len = 0
  · rw [if_pos hl, if_pos hl]
    exact ⟨hb, hl, rfl, fun _ _ hf _ => hf⟩
  rw [if_neg hl, if_neg hl]
  have hpg := hb.page_le hl
  have hfla := hb.inFlash
  have hsz := g.flashSize_lt
  have hln := hb.len_le
  have hfo := g.four_dvd
  have ho : add32 c.ofs g.pagesize = c.ofs + g.pagesize := add32_of_lt (by omega)
  have hfr : Fresh g c c.ofs (c.ofs + g.pagesize) := by
    intro a h1 h2
    exact hb.fresh a h1 (by omega)
  obtain ⟨n, buf, hpad, hbuf⟩ := padded_spec g c mode (by omega)
  rw [hpad]
  have hw := mtdWrite_wrote buf hb.ofs_dvd (dvd_refl _) hfr
  refine ⟨?_, rfl, ho, ?_⟩
  · refine hb.wrote hw.moved (dvd_refl _) hpg hln ho rfl ?_ (fun _ _ => rfl)
    intro a v hm h1 h2
    have hin : a < c.ofs + c.len := by
      by_contra hc
      rw [hb.free a (not_lt.1 hc) (by omega)] at hm
      cases hm
    rw [hbuf _ (by omega)]
    exact hb.holds.inBuf a v hm ⟨h1, hin⟩
  · intro lo hi hf hot a h1 h2
    have hle := hb.le_ofs
    have ha := hw.outside a (by omega)
    rw [← (hf a h1 h2).1, ← (hf a h1 h2).2]
    exact ha

/-! ## Write -/

/-- What was written, with bytes written from an address on. -/
def record (m : ℕ → Option Byte) (lo : ℕ) (v : List Byte) : ℕ → Option Byte :=
  overlay m lo (v.map some)

@[simp] theorem record_nil (lo : ℕ) : record m lo [] = m := overlay_nil

theorem record_append (m : ℕ → Option Byte) (lo : ℕ) (v w : List Byte) :
    record (record m lo v) (lo + v.length) w = record m lo (v ++ w) := by
  have h := overlay_append m lo (v.map some) (w.map some)
  rw [length_map, ← map_append] at h
  exact h

theorem record_take_drop (m : ℕ → Option Byte) (lo n : ℕ) (v : List Byte) (hn : n ≤ v.length) :
    record (record m lo (v.take n)) (lo + n) (v.drop n) = record m lo v := by
  have h := record_append m lo (v.take n) (v.drop n)
  rwa [length_take, min_eq_left hn, take_append_drop] at h

theorem record_cases (m : ℕ → Option Byte) (lo : ℕ) (v : List Byte) (a : ℕ) :
    (lo ≤ a ∧ a < lo + v.length ∧ record m lo v a = v[a - lo]?) ∨
      (¬ (lo ≤ a ∧ a < lo + v.length) ∧ record m lo v a = m a) := by
  cases overlay_cases with
  | inl h =>
    obtain ⟨h1, h2, h3⟩ := h
    rw [length_map] at h2
    refine .inl ⟨h1, h2, ?_⟩
    rw [getElem?_map] at h3
    cases hv : v[a - lo]? with
    | none => simp [hv] at h3
    | some b =>
      rw [hv, Option.map_some, Option.some_inj] at h3
      exact h3.symm
  | inr h =>
    rw [length_map] at h
    exact .inr h

section

variable (hb : InBlock g c m block) (hlt : c.len < g.pagesize)
  (hft : c.ofs + c.len + v.length ≤ block + g.sectorSize) {r : ℕ × SbInfo}

include hb hlt hft

/-- **Filling the buffer.** Where a vector does not fit, the buffer is full after it, or was
empty and stays so. -/
theorem fillWbuf_inBlock (hr : fillWbuf g c v = r) :
    InBlock g r.2 (record m (c.ofs + c.len) (v.take r.1)) block ∧ r.2.ofs = c.ofs ∧
      r.2.len = c.len + r.1 ∧ r.1 ≤ v.length ∧
      (r.1 < v.length → r.2.len = g.pagesize ∨ r.2.len = 0) ∧
      (c.len + v.length < g.pagesize → r.1 = v.length) := by
  subst hr
  unfold fillWbuf
  by_cases hbg : v.length ≠ 0 ∧ c.len = 0 ∧ g.pagesize ≤ v.length
  · rw [if_pos hbg]
    refine ⟨by simpa using hb, rfl, rfl, Nat.zero_le _, fun _ => .inr hbg.2.1, ?_⟩
    omega
  rw [if_neg hbg]
  simp only
  generalize hn : (if g.pagesize - c.len < v.length then g.pagesize - c.len else v.length) = n
  have hle : n ≤ v.length ∧ c.len + n ≤ g.pagesize ∧
      (n < v.length → c.len + n = g.pagesize) ∧ (c.len + v.length < g.pagesize → n = v.length) := by
    split_ifs at hn <;> omega
  have hl : (v.take n).length = n := by
    rw [length_take]
    omega
  refine ⟨?_, trivial, trivial, hle.1, fun h => .inl (hle.2.2.1 h), hle.2.2.2⟩
  have hcases := record_cases m (c.ofs + c.len) (v.take n)
  refine ⟨⟨hb.holds.once, hb.holds.aligned, ?_, ?_⟩, hb.sector, hb.inFlash, hb.ofs_dvd, hle.2.1,
    hb.le_ofs, by simp only; omega, hb.fresh, ?_⟩
  · intro a x hm hin
    simp only [InBuf] at hin ⊢
    cases hcases a with
    | inl h =>
      have hmm : (v.take n)[a - c.ofs - c.len]? =
          some (overlay c.buf c.len (v.take n) (a - c.ofs)) :=
        overlay_of_mem (by omega) (by omega)
      have hsub : a - c.ofs - c.len = a - (c.ofs + c.len) := by omega
      rw [h.2.2] at hm
      rw [hsub, hm, Option.some_inj] at hmm
      exact hmm.symm
    | inr h =>
      rw [h.2] at hm
      rw [overlay_of_lt (by omega)]
      exact hb.holds.inBuf a x hm ⟨hin.1, by omega⟩
  · intro a x hm ho
    simp only [InBuf] at ho
    cases hcases a with
    | inl h => omega
    | inr h =>
      rw [h.2] at hm
      exact hb.holds.onFlash a x hm (fun hc => ho ⟨hc.1, by have := hc.2; omega⟩)
  intro a h1 h2
  simp only at h1
  cases hcases a with
  | inl h => omega
  | inr h =>
    rw [h.2]
    exact hb.free a (by omega) h2

/-- Filling the buffer, and flushing it where it is full. -/
theorem fillFlush_inBlock (hr : fillFlush g c v = r) :
    InBlock g r.2 (record m (c.ofs + c.len) (v.take r.1)) block ∧ r.2.len < g.pagesize ∧
      r.2.ofs + r.2.len = c.ofs + c.len + r.1 ∧ r.1 ≤ v.length ∧
      (r.1 < v.length → r.2.len = 0) ∧ (c.len + v.length < g.pagesize → r.1 = v.length) := by
  subst hr
  unfold fillFlush
  simp only
  generalize hr : fillWbuf g c v = r
  obtain ⟨h1, h2, h3, h4, h5, h6⟩ := fillWbuf_inBlock hb hlt hft hr
  by_cases hfu : r.2.len = g.pagesize
  · rw [if_pos hfu]
    have hfls := flushWbuf_inBlock h1 .noPad
    rw [if_neg (by omega)] at hfls
    refine ⟨hfls.1, by omega, by omega, h4, fun _ => hfls.2.1, h6⟩
  · rw [if_neg hfu]
    have hle := h1.len_le
    exact ⟨h1, by omega, by omega, h4, fun h => (h5 h).resolve_left hfu, h6⟩

/-- **Whole pages** of a vector, where the buffer is empty. -/
theorem writePages_inBlock (he : v ≠ [] → c.len = 0) (hr : writePages g c (c.ofs + c.len) v = r) :
    InBlock g r.2 (record m (c.ofs + c.len) (v.take r.1)) block ∧ r.2.len = c.len ∧
      r.2.ofs = c.ofs + r.1 ∧ r.1 ≤ v.length ∧ v.length < r.1 + g.pagesize := by
  subst hr
  unfold writePages
  by_cases hpgs : g.pagesize ≤ v.length
  · rw [if_pos hpgs]
    have hp := g.pagesize_pos
    have hz : c.len = 0 := by
      refine he ?_
      intro hn
      rw [hn, length_nil] at hpgs
      omega
    have hle : pageDiv g v.length ≤ v.length := Nat.div_mul_le_self _ _
    have hmd : v.length < pageDiv g v.length + g.pagesize := Nat.lt_div_mul_add hp
    have hd : g.pagesize ∣ pageDiv g v.length := Dvd.intro_left _ rfl
    have hfla := hb.inFlash
    have hsz := g.flashSize_lt
    have hcur : c.ofs + c.len = c.ofs := by omega
    rw [hcur] at hft ⊢
    have ho : add32 c.ofs (pageDiv g v.length) = c.ofs + pageDiv g v.length :=
      add32_of_lt (by omega)
    refine ⟨?_, rfl, ho, hle, hmd⟩
    have hfr : Fresh g c c.ofs (c.ofs + pageDiv g v.length) := by
      intro a h1 h2
      exact hb.fresh a h1 (by omega)
    have hw := mtdWrite_wrote (fun i => v.getD i 0) hb.ofs_dvd hd hfr
    have hl : (v.take (pageDiv g v.length)).length = pageDiv g v.length := by
      rw [length_take]
      omega
    have hcases := record_cases m c.ofs (v.take (pageDiv g v.length))
    rw [hl] at hcases
    refine hb.wrote hw.moved hd (by omega) (by omega) ho hz ?_ ?_
    · intro a x hm h1 h2
      cases hcases a with
      | inl h =>
        rw [h.2.2, getElem?_take_of_lt (by omega)] at hm
        simp [hm]
      | inr h => exact absurd ⟨h1, h2⟩ h.1
    · intro a hot
      cases hcases a with
      | inl h => exact absurd ⟨h.1, h.2.1⟩ hot
      | inr h => exact h.2
  · rw [if_neg hpgs]
    exact ⟨by simpa using hb, rfl, rfl, Nat.zero_le _, by omega⟩

/-- **One vector.** -/
theorem writeVec_inBlock (hr : writeVec g (c.ofs + c.len) c v = r) :
    InBlock g r.2 (record m (c.ofs + c.len) v) block ∧ r.2.len < g.pagesize ∧
      r.1 = c.ofs + c.len + v.length ∧ r.2.ofs + r.2.len = c.ofs + c.len + v.length := by
  subst hr
  have hfla := hb.inFlash
  have hsz := g.flashSize_lt
  unfold writeVec
  simp only
  generalize hr1 : fillFlush g c v = r1
  obtain ⟨a1, a2, a3, a4, a5, -⟩ := fillFlush_inBlock hb hlt hft hr1
  have hto1 : add32 (c.ofs + c.len) r1.1 = r1.2.ofs + r1.2.len := by
    rw [add32_of_lt (by omega), a3]
  have hl1 : (v.drop r1.1).length = v.length - r1.1 := length_drop
  rw [hto1]
  -- what is left of the vector finds an empty buffer
  generalize hr2 : writePages g r1.2 (r1.2.ofs + r1.2.len) (v.drop r1.1) = r2
  obtain ⟨b1, b2, b3, b4, b5⟩ := writePages_inBlock a1 a2 (by omega) (by
    intro hne
    refine a5 ?_
    by_contra hc
    exact hne (drop_eq_nil_of_le (Nat.not_lt.1 hc))) hr2
  have hto2 : add32 (r1.2.ofs + r1.2.len) r2.1 = r2.2.ofs + r2.2.len := by
    rw [add32_of_lt (by omega)]
    omega
  have hl2 : ((v.drop r1.1).drop r2.1).length = v.length - r1.1 - r2.1 := by
    rw [length_drop, hl1]
  rw [hto2]
  generalize hr3 : fillFlush g r2.2 ((v.drop r1.1).drop r2.1) = r3
  obtain ⟨d1, d2, d3, d4, -, d6⟩ := fillFlush_inBlock b1 (by omega) (by omega) hr3
  have ha : r3.1 = v.length - r1.1 - r2.1 := by
    rw [← hl2]
    refine d6 ?_
    by_cases hlf : r1.1 < v.length
    · have := a5 hlf
      omega
    · omega
  refine ⟨?_, d2, ?_, by omega⟩
  · rw [ha, ← hl2, take_length] at d1
    have hcur2 : r2.2.ofs + r2.2.len = r1.2.ofs + r1.2.len + r2.1 := by omega
    rw [hcur2, record_take_drop _ _ _ _ b4, a3, record_take_drop _ _ _ _ a4] at d1
    exact d1
  · rw [add32_of_lt (by omega)]
    omega

end

/-- The number of bytes of some vectors. -/
def total (invecs : List (List Byte)) : ℕ := invecs.flatten.length

/-- **The loop over the vectors.** -/
theorem writeVecs_inBlock (hb : InBlock g c m block) (hlt : c.len < g.pagesize)
    (invecs : List (List Byte)) (hft : c.ofs + c.len + total invecs ≤ block + g.sectorSize) :
    InBlock g (writeVecs g (c.ofs + c.len) c invecs) (record m (c.ofs + c.len) invecs.flatten)
        block ∧ (writeVecs g (c.ofs + c.len) c invecs).len < g.pagesize ∧
      (writeVecs g (c.ofs + c.len) c invecs).ofs + (writeVecs g (c.ofs + c.len) c invecs).len =
        c.ofs + c.len + total invecs := by
  induction invecs generalizing c m with
  | nil => exact ⟨by simpa [writeVecs] using hb, hlt, rfl⟩
  | cons v invecs ih =>
    have htot : total (v :: invecs) = v.length + total invecs := by
      simp [total]
    obtain ⟨h1, h2, h3, h4⟩ := writeVec_inBlock hb hlt (v := v) (by omega) rfl
    rw [writeVecs, h3, ← h4]
    have hrs := ih h1 h2 (by omega)
    rw [h4] at hrs ⊢
    rw [record_append] at hrs
    refine ⟨by simpa using hrs.1, hrs.2.1, ?_⟩
    rw [hrs.2.2, htot, add_assoc]

/-! ## Where a write goes -/

/-- The address of an erase block of the flash. -/
def IsBlock (g : Geometry) (block : ℕ) : Prop :=
  g.sectorSize ∣ block ∧ block + g.sectorSize ≤ g.flashSize

theorem sectorAddr_eq {a : ℕ} (hd : g.sectorSize ∣ block) (h1 : block ≤ a)
    (h2 : a < block + g.sectorSize) : sectorAddr g a = block := by
  obtain ⟨k, rfl⟩ := hd
  have hdv : a / g.sectorSize = k := by
    refine Nat.div_eq_of_lt_le ?_ ?_
    · rw [mul_comm]
      exact h1
    rw [add_mul, one_mul, mul_comm]
    exact h2
  rw [sectorAddr, hdv, mul_comm]

theorem four_dvd_of_page (h : g.pagesize ∣ x) : 4 ∣ x := g.four_dvd.trans h

theorem ofs_ne_noOfs (h : g.pagesize ∣ c.ofs) : c.ofs ≠ noOfs := by
  have hfr := four_dvd_of_page h
  have hno : noOfs = 4294967295 := rfl
  omega

/-- The buffer is empty, and moves to an erased block. -/
theorem Holds.move (hh : Holds g c m) (he : c.len = 0) (hbk : IsBlock g block)
    (hfr : Fresh g c block (block + g.sectorSize)) (buf : ℕ → Byte) :
    InBlock g { c with ofs := block, len := 0, buf := buf } m block := by
  have hn (a : ℕ) : ¬ InBuf c a := by
    intro hin
    have := hin.1
    have := hin.2
    omega
  refine ⟨⟨hh.once, hh.aligned, ?_, ?_⟩, hbk.1, hbk.2, g.page_dvd.trans hbk.1, Nat.zero_le _,
    le_rfl, by simp, hfr, ?_⟩
  · intro a v _ hin
    simp only [InBuf] at hin
    omega
  · intro a v hm _
    exact hh.onFlash a v hm (hn a)
  intro a h1 h2
  cases hm : m a with
  | none => rfl
  | some v => exact absurd (hfr a h1 h2).2 (hh.onFlash a v hm (hn a)).2

theorem InBlock.extend (hb : InBlock g c m block) {n : ℕ} (h1 : c.len ≤ n) (h2 : n ≤ g.pagesize)
    (he : c.ofs + n ≤ block + g.sectorSize) : InBlock g { c with len := n } m block := by
  have hin {a : ℕ} {v : Byte} (hm : m a = some v) (ha : c.ofs ≤ a) (ha' : a < c.ofs + n) :
      a < c.ofs + c.len := by
    by_contra hc
    rw [hb.free a (not_lt.1 hc) (by omega)] at hm
    cases hm
  refine ⟨⟨hb.holds.once, hb.holds.aligned, ?_, ?_⟩, hb.sector, hb.inFlash, hb.ofs_dvd, h2,
    hb.le_ofs, he, hb.fresh, ?_⟩
  · intro a v hm hbuf
    exact hb.holds.inBuf a v hm ⟨hbuf.1, hin hm hbuf.1 hbuf.2⟩
  · intro a v hm hbuf
    refine hb.holds.onFlash a v hm ?_
    intro hc
    exact hbuf ⟨hc.1, lt_of_lt_of_le hc.2 (Nat.add_le_add_left h1 _)⟩
  · intro a ha ha'
    exact hb.free a (by simp only at ha; omega) ha'

/-- **The write goes on behind the buffer**, after a gap of at most three bytes. -/
theorem alignWbuf_inBlock (hb : InBlock g c m block) (hlt : c.len < g.pagesize)
    (hdst : dst = (c.ofs + c.len + 3) / 4 * 4) (hin : dst < block + g.sectorSize) :
    InBlock g (alignWbuf g c dst) m block ∧ (alignWbuf g c dst).len < g.pagesize ∧
      (alignWbuf g c dst).ofs + (alignWbuf g c dst).len = dst := by
  have hfr := g.four_dvd
  have ho4 := four_dvd_of_page hb.ofs_dvd
  have hp := g.pagesize_pos
  have hle : c.ofs + c.len ≤ dst ∧ dst ≤ c.ofs + g.pagesize := by omega
  obtain ⟨k, hk⟩ := hb.ofs_dvd
  have hm : pageMod g dst = if dst = c.ofs + g.pagesize then 0 else dst - c.ofs := by
    rw [pageMod]
    split_ifs with heq
    · rw [heq, hk, Nat.add_mod_right, Nat.mul_mod_right]
    have hsl : dst = g.pagesize * k + (dst - c.ofs) := by omega
    rw [hsl, Nat.mul_add_mod, Nat.mod_eq_of_lt (by omega), ← hsl]
  unfold alignWbuf
  by_cases hsm : c.len = pageMod g dst
  · rw [if_neg (not_not_intro hsm)]
    refine ⟨hb, hlt, ?_⟩
    rw [hm] at hsm
    split_ifs at hsm with heq <;> omega
  rw [if_pos hsm, hm]
  rw [hm] at hsm
  by_cases hfu : dst = c.ofs + g.pagesize
  · rw [if_pos hfu] at hsm ⊢
    rw [if_pos rfl]
    have hext := hb.extend hlt.le (le_refl _) (hb.page_le hsm)
    have hfls := flushWbuf_inBlock hext .noPad
    simp only at hfls
    rw [if_neg (by omega)] at hfls
    exact ⟨hfls.1, by omega, by omega⟩
  rw [if_neg hfu] at hsm ⊢
  rw [if_neg (by omega)]
  refine ⟨hb.extend (by omega) (by omega) (by omega), ?_, ?_⟩
  · simp only
    omega
  simp only
  omega

end NestLinux.Wbuf
