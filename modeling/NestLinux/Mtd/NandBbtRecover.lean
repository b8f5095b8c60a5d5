import NestLinux.Mtd.NandBbtTable

/-!
# Bad block tables and power cuts

An update of the tables erases and programs the main table, then the mirror. The power can
be cut after any of these operations; the next scan finds what is left of the tables. It
ends with two equal tables, the old ones or the new ones, unless the new table says that the
block of the mirror is bad: that block is not erased any more, by the update or by the scan,
and the mirror stays behind.
-/

namespace NestLinux.NandBbt

open Lib Function List

variable {g : Chip} {td md d d' : Descr} {flash flash' : Flash} {bbt : ℕ → Mark} {T T' : ℕ → Bool}
  {a b c : ℕ} {v v' : Byte} {page i : ℕ} {ops : List FlashOp}

/-- A descriptor that a scan can use: its pattern is not that of an erased block, and the
version is not in the pattern. Reserved blocks are not recorded. -/
structure Descr.Usable (g : Chip) (d : Descr) : Prop where
  written : ∃ i < d.pattern.length, d.pattern.getD i 0 ≠ 0xff
  veroffs : d.veroffs < d.offs ∨ d.offs + d.pattern.length ≤ d.veroffs
  code : d.reservedBlockCode = 0
  maxblocks : d.maxblocks ≤ g.numblocks

/-- Two mirrored descriptors: they differ in their pattern only. -/
structure Mirrored (g : Chip) (td md : Descr) : Prop where
  td_usable : td.Usable g
  md_usable : md.Usable g
  offs : td.offs = md.offs
  length : td.pattern.length = md.pattern.length
  pattern : td.pattern ≠ md.pattern
  maxblocks : td.maxblocks = md.maxblocks
  -- the table fills whole bytes
  bytes : 8 ∣ g.numblocks

theorem Mirrored.symm (h : Mirrored g td md) : Mirrored g md td where
  td_usable := h.md_usable
  md_usable := h.td_usable
  offs := h.offs.symm
  length := h.length.symm
  pattern := h.pattern.symm
  maxblocks := h.maxblocks.symm
  bytes := h.bytes

/-- The descriptors of the driver are mirrored on every chip. -/
theorem bbtDescr_mirrored (hbl : 4 ≤ g.numblocks) (hbyt : 8 ∣ g.numblocks) :
    Mirrored g bbtMainDescr bbtMirrorDescr where
  td_usable := ⟨⟨0, by decide, by decide⟩, by decide, rfl, hbl⟩
  md_usable := ⟨⟨0, by decide, by decide⟩, by decide, rfl, hbl⟩
  offs := rfl
  length := rfl
  pattern := by decide
  maxblocks := rfl
  bytes := hbyt

/-- One of the last blocks of the chip, where a table may be. -/
def InRegion (g : Chip) (d : Descr) (block : ℕ) : Prop :=
  g.numblocks - d.maxblocks ≤ block ∧ block < g.numblocks
  deriving Decidable

/-- The page of a block that holds its table. -/
abbrev firstPage (g : Chip) (block : ℕ) : ℕ := block * g.pagesPerBlock

/-- The flash holds one table for a descriptor: where it is, its version, and the blocks that
it says are bad. -/
structure CopyAt (g : Chip) (d : Descr) (flash : Flash) (block : ℕ) (version : Byte)
    (T : ℕ → Bool) : Prop where
  region : InRegion g d block
  found : ∀ b, InRegion g d b → (checkPattern (flash (firstPage g b)) d = true ↔ b = block)
  version : (flash (firstPage g block)).oob d.veroffs = version
  table : ∀ b < g.numblocks, isBad (readBbt g flash (firstPage g block) d (fun _ => 0) b) = T b

/-- The flash holds no table for a descriptor. -/
def NoCopy (g : Chip) (d : Descr) (flash : Flash) : Prop :=
  ∀ b, InRegion g d b → checkPattern (flash (firstPage g b)) d = false

/-- Two of the last blocks are good. -/
def TwoGood (g : Chip) (d : Descr) (T : ℕ → Bool) : Prop :=
  ∃ b c, b ≠ c ∧ InRegion g d b ∧ InRegion g d c ∧ T b = false ∧ T c = false

/-- What a scan is to end with: the memory and both tables on the flash say the same of every
block, the old state or the new one, and the versions are equal. -/
def Recovered (g : Chip) (td md : Descr) (told : ℕ → Bool) (tnew : ℕ → Mark)
    (r : Flash × Mem × Option Errno) : Prop :=
  ∃ T : ℕ → Bool, ((∀ b < g.numblocks, T b = told b) ∨ (∀ b < g.numblocks, T b = isBad (tnew b))) ∧
    (∀ b < g.numblocks, isBad (r.2.1.bbt b) = T b) ∧
    ∃ a b version, CopyAt g td r.1 a version T ∧ CopyAt g md r.1 b version T

/-! ## Patterns -/

theorem checkPattern_iff {page : Page} : checkPattern page d = true ↔
      ∀ i < d.pattern.length, page.oob (d.offs + i) = d.pattern.getD i 0 := by
  simp [checkPattern]

theorem checkPattern_erased (hd : d.Usable g) : checkPattern Page.erased d = false := by
  obtain ⟨i, hi, hne⟩ := hd.written
  rw [Bool.eq_false_iff, ne_eq, checkPattern_iff]
  intro h
  exact hne (h i hi).symm

theorem tableOob_pattern (hd : d.Usable g) (version : Byte) (hi : i < d.pattern.length) :
    tableOob d version (d.offs + i) = d.pattern.getD i 0 := by
  have hv := hd.veroffs
  have hne : d.offs + i ≠ d.veroffs := by omega
  have hov := overlay_of_mem (f := fun _ => (0xff : Byte))
    (Nat.le_add_right d.offs i) (Nat.add_lt_add_left hi d.offs)
  rw [Nat.add_sub_cancel_left] at hov
  rw [tableOob, update_of_ne hne, getD_eq_getElem?_getD, hov, Option.getD_some]

/-- A table has the pattern of its descriptor. -/
theorem checkPattern_table (hd : d.Usable g) (data : ℕ → Byte) (version : Byte) :
    checkPattern ⟨data, tableOob d version⟩ d = true := by
  rw [checkPattern_iff]
  intro i hi
  exact tableOob_pattern hd version hi

/-- A page has the pattern of one of the descriptors at most. -/
theorem Mirrored.checkPattern_false (h : Mirrored g d d') {page : Page}
    (hd : checkPattern page d = true) : checkPattern page d' = false := by
  rw [Bool.eq_false_iff, ne_eq, checkPattern_iff]
  rw [checkPattern_iff] at hd
  intro hd'
  refine h.pattern (ext_getElem h.length ?_)
  intro i hi hi'
  have hby := (hd i hi).symm.trans (h.offs ▸ hd' i hi')
  rw [getD_eq_getElem?_getD, getD_eq_getElem?_getD, getElem?_eq_getElem hi,
    getElem?_eq_getElem hi'] at hby
  exact hby

/-! ## The flash after some operations -/

theorem firstPage_div (g : Chip) (b : ℕ) : firstPage g b / g.pagesPerBlock = b :=
  Nat.mul_div_cancel b g.pagesPerBlock_pos

theorem applyOp_erase_firstPage (flash : Flash) (b c : ℕ) :
    applyOp g flash (.erase (firstPage g b)) (firstPage g c) =
      if c = b then Page.erased else flash (firstPage g c) := by
  simp only [applyOp]
  rw [firstPage_div, firstPage_div]

theorem applyOps_write_firstPage (flash : Flash) (content : Page) (b c : ℕ) :
    applyOps g flash [.erase (firstPage g b), .program (firstPage g b) content] (firstPage g c) =
      if c = b then content else flash (firstPage g c) := by
  have hand : ∀ x : Byte, (0xff : Byte) &&& x = x := by decide
  have hsp : applyOps g flash [.erase (firstPage g b), .program (firstPage g b) content] =
      update (applyOp g flash (.erase (firstPage g b))) (firstPage g b)
        { data := fun i =>
            (applyOp g flash (.erase (firstPage g b)) (firstPage g b)).data i &&& content.data i
          oob := fun i =>
            (applyOp g flash (.erase (firstPage g b)) (firstPage g b)).oob i &&& content.oob i } :=
    rfl
  rw [hsp]
  by_cases hc : c = b
  · rw [hc, if_pos rfl, update_self, applyOp_erase_firstPage, if_pos rfl]
    simp only [Page.erased, hand]
  have hne : firstPage g c ≠ firstPage g b := by
    intro h
    rw [← firstPage_div g c, h, firstPage_div] at hc
    exact hc rfl
  rw [update_of_ne hne, applyOp_erase_firstPage, if_neg hc, if_neg hc]

theorem readBbt_congr (h : flash page = flash' page) :
    readBbt g flash page d bbt = readBbt g flash' page d bbt := by
  unfold readBbt
  rw [h]

theorem CopyAt.checkPattern_ne (h : CopyAt g d flash c v T) (b : ℕ) (hb : InRegion g d b)
    (hne : b ≠ c) : checkPattern (flash (firstPage g b)) d = false := by
  rw [Bool.eq_false_iff, ne_eq, h.found b hb]
  exact hne

/-- A change in a block without the table keeps the table. -/
theorem CopyAt.frame (h : CopyAt g d flash c v T) (hne : c ≠ b)
    (ho : ∀ b' ≠ b, flash' (firstPage g b') = flash (firstPage g b'))
    (hno : checkPattern (flash' (firstPage g b)) d = false) : CopyAt g d flash' c v T where
  region := h.region
  found b' hb' := by
    by_cases heq : b' = b
    · rw [heq, hno]
      simp [hne.symm]
    rw [ho b' heq]
    exact h.found b' hb'
  version := by
    rw [ho c hne]
    exact h.version
  table b' hb' := by
    rw [readBbt_congr (ho c hne)]
    exact h.table b' hb'

theorem CopyAt.lost (h : CopyAt g d flash b v T)
    (ho : ∀ b' ≠ b, flash' (firstPage g b') = flash (firstPage g b'))
    (hno : checkPattern (flash' (firstPage g b)) d = false) : NoCopy g d flash' := by
  intro b' hb'
  by_cases heq : b' = b
  · rw [heq]
    exact hno
  rw [ho b' heq]
  exact h.checkPattern_ne b' hb' heq

/-- A table says one thing of a block, and is in one place. -/
theorem CopyAt.unique (h : CopyAt g d flash a v T) (h' : CopyAt g d flash b v' T') : v = v' := by
  have hab : a = b := (h'.found a h.region).1 ((h.found a h.region).2 rfl)
  rw [← h.version, ← h'.version, hab]

theorem CopyAt.ne (hm : Mirrored g d d') (h : CopyAt g d flash a v T)
    (h' : CopyAt g d' flash b v' T') : a ≠ b := by
  intro hab
  have hd := (h.found a h.region).2 rfl
  have hd' := (h'.found b h'.region).2 rfl
  rw [← hab, hm.checkPattern_false hd] at hd'
  cases hd'

/-- The operations that write a table. -/
def writeOps (g : Chip) (d : Descr) (bbt : ℕ → Mark) (b : ℕ) (v : Byte) : List FlashOp :=
  [.erase (firstPage g b), .program (firstPage g b) ⟨tableBuf g d bbt, tableOob d v⟩]

/-- **A table that is written.** It can be found afterwards, and the other one is kept. -/
theorem CopyAt.write (bbt : ℕ → Mark) (v : Byte) (hm : Mirrored g d d') (hb : InRegion g d b)
    (hno : ∀ b', InRegion g d b' → b' ≠ b → checkPattern (flash (firstPage g b')) d = false)
    (h' : CopyAt g d' flash c v' T') (hne : c ≠ b) :
    CopyAt g d (applyOps g flash (writeOps g d bbt b v)) b v (fun i => isBad (bbt i)) ∧
    CopyAt g d' (applyOps g flash (writeOps g d bbt b v)) c v' T' := by
  have hpg := applyOps_write_firstPage (g := g) flash ⟨tableBuf g d bbt, tableOob d v⟩ b
  rw [← writeOps] at hpg
  generalize applyOps g flash (writeOps g d bbt b v) = flash' at hpg ⊢
  have hth : flash' (firstPage g b) = ⟨tableBuf g d bbt, tableOob d v⟩ := by
    rw [hpg, if_pos rfl]
  have ho : ∀ b' ≠ b, flash' (firstPage g b') = flash (firstPage g b') := by
    intro b' hb'
    rw [hpg, if_neg hb']
  have hpat := checkPattern_table hm.td_usable (tableBuf g d bbt) v
  constructor
  · constructor
    · exact hb
    · intro b' hb'
      by_cases heq : b' = b
      · rw [heq, hth, hpat]
        simp
      rw [ho b' heq, hno b' hb' heq]
      simp [heq]
    · rw [hth]
      exact update_self _ _ _
    intro i hi
    refine isBad_readBbt_tableBuf hm.td_usable.code hm.bytes ?_ hi
    rw [hth]
    intro i
    rfl
  · refine h'.frame hne ho ?_
    rw [hth]
    exact hm.checkPattern_false hpat

/-- The operations that write a table, at the moment the block is erased. -/
theorem CopyAt.erase (hm : Mirrored g d d') (h : CopyAt g d flash b v T)
    (h' : CopyAt g d' flash c v' T') : NoCopy g d (applyOp g flash (.erase (firstPage g b))) ∧
    CopyAt g d' (applyOp g flash (.erase (firstPage g b))) c v' T' := by
  have hpg := applyOp_erase_firstPage (g := g) flash b
  have hne := CopyAt.ne hm h h'
  generalize applyOp g flash (.erase (firstPage g b)) = flash' at hpg ⊢
  have hth : flash' (firstPage g b) = Page.erased := by rw [hpg, if_pos rfl]
  have ho : ∀ b' ≠ b, flash' (firstPage g b') = flash (firstPage g b') := by
    intro b' hb'
    rw [hpg, if_neg hb']
  constructor
  · refine h.lost ho ?_
    rw [hth]
    exact checkPattern_erased hm.td_usable
  refine h'.frame hne.symm ho ?_
  rw [hth]
  exact checkPattern_erased hm.md_usable

/-! ## Search and placement -/

theorem inRegion_sub (hd : d.maxblocks ≤ g.numblocks) (hi : i < d.maxblocks) :
    InRegion g d (g.numblocks - 1 - i) := by
  unfold InRegion
  omega

theorem CopyAt.searchBbt_eq (hd : d.Usable g) (h : CopyAt g d flash b v T) :
    searchBbt g flash d = ⟨some (firstPage g b), v⟩ := by
  have hmx := hd.maxblocks
  have hreg := h.region
  unfold InRegion at hreg
  have hsub : g.numblocks - 1 - (g.numblocks - 1 - b) = b := by omega
  have hfi : (range d.maxblocks).find? (fun i =>
      checkPattern (flash ((g.numblocks - 1 - i) * g.pagesPerBlock)) d) =
      some (g.numblocks - 1 - b) := by
    rw [find?_range_eq_some]
    refine ⟨?_, ?_, ?_⟩
    · rw [hsub]
      exact (h.found b h.region).2 rfl
    · rw [mem_range]
      omega
    intro j hj
    rw [Bool.not_eq_true', Bool.eq_false_iff]
    intro hc
    have hreg' := inRegion_sub hmx (show j < d.maxblocks by omega)
    have heq := (h.found _ hreg').1 hc
    omega
  unfold searchBbt
  rw [hfi]
  simp only
  rw [hsub, h.version]

theorem NoCopy.searchBbt_eq (hd : d.Usable g) (h : NoCopy g d flash) :
    searchBbt g flash d = ⟨none, 0⟩ := by
  have hfi : (range d.maxblocks).find? (fun i =>
      checkPattern (flash ((g.numblocks - 1 - i) * g.pagesPerBlock)) d) = none := by
    rw [find?_eq_none]
    intro i hi
    rw [h _ (inRegion_sub hd.maxblocks (mem_range.1 hi))]
    decide
  unfold searchBbt
  rw [hfi]

theorem TwoGood.other (h : TwoGood g d T) (c : ℕ) : ∃ b ≠ c, InRegion g d b ∧ T b = false := by
  obtain ⟨b1, b2, hne, hr1, hr2, hg1, hg2⟩ := h
  by_cases hb : b1 = c
  · exact ⟨b2, by rw [← hb]; exact hne.symm, hr2, hg2⟩
  · exact ⟨b1, hb, hr1, hg1⟩

/-- The place of a lost table: a good block, and not that of the other table. -/
theorem placeBbt_some (hd : d.Usable g) (h : TwoGood g d (fun i => isBad (bbt i))) :
    ∃ b, placeBbt g d bbt (some (firstPage g c)) = some (firstPage g b) ∧ InRegion g d b ∧
      b ≠ c ∧ isBad (bbt b) = false := by
  obtain ⟨b, hbc, hreg, hgood⟩ := h.other c
  have hso : (placeBbt g d bbt (some (firstPage g c))).isSome := by
    unfold placeBbt
    unfold InRegion at hreg
    rw [findSome?_isSome_iff]
    have hsub : g.numblocks - 1 - (g.numblocks - 1 - b) = b := by omega
    refine ⟨g.numblocks - 1 - b, mem_range.2 (by omega), ?_⟩
    have hpg : some (firstPage g c) ≠ some (b * g.pagesPerBlock) := by
      intro hc
      exact hbc (Nat.eq_of_mul_eq_mul_right g.pagesPerBlock_pos (Option.some.inj hc)).symm
    simp only
    rw [hsub, hgood, if_pos hpg]
    rfl
  obtain ⟨page, hpg⟩ := Option.isSome_iff_exists.1 hso
  have hfnd := hpg
  obtain ⟨i, hi, hr⟩ := exists_of_findSome?_eq_some hfnd
  have hreg' := inRegion_sub hd.maxblocks (mem_range.1 hi)
  simp only at hr
  split at hr
  · cases hr
  rename_i hb
  split at hr
  · rename_i hne
    refine ⟨g.numblocks - 1 - i, ?_, hreg', ?_, by simpa using hb⟩
    · rw [hpg]
      exact hr.symm
    intro hc
    exact hne (by rw [hc])
  · cases hr

theorem nandIsbadBbt_allowbbt : nandIsbadBbt bbt b true = isBad (bbt b) := by
  have ha : ∀ m : Mark, nandIsbadBbt (fun _ => m) 0 true = isBad m := by decide
  exact ha (bbt b)

theorem writeBbt_again (mdPage : Option ℕ) (hgood : isBad (bbt b) = false) :
    writeBbt g d bbt ⟨some (firstPage g b), v⟩ mdPage =
      (writeOps g d bbt b v, ⟨some (firstPage g b), v⟩, none) := by
  simp only [writeBbt]
  rw [nandIsbadBbt_allowbbt, firstPage_div, hgood]
  rfl

/-- A table in a block that is bad is not written. -/
theorem writeBbt_bad (mdPage : Option ℕ) (hb : isBad (bbt b) = true) :
    writeBbt g d bbt ⟨some (firstPage g b), v⟩ mdPage =
      ([], ⟨some (firstPage g b), v⟩, some .eio) := by
  simp only [writeBbt]
  rw [nandIsbadBbt_allowbbt, firstPage_div, hb]
  rfl

/-- A lost table is written like one that was in the block chosen for it. -/
theorem writeBbt_lost {mdPage : Option ℕ}
    (hplc : placeBbt g d bbt mdPage = some page) : writeBbt g d bbt ⟨none, v⟩ mdPage =
      let w := writeBbt g d bbt ⟨some page, v⟩ mdPage
      (w.1, if w.2.2 = none then w.2.1 else ⟨none, v⟩, w.2.2) := by
  simp only [writeBbt, hplc]
  split <;> rfl

/-! ## The scan -/

theorem isBad_reserveBlocks :
    isBad (reserveBlocks g d bbt b) = isBad (bbt b) := by
  have hmk : ∀ m : Mark, isBad (m ||| 2) = isBad m := by decide
  refine forRange_induction (fun _ (t : ℕ → Mark) => ∀ b, isBad (t b) = isBad (bbt b)) ?_ ?_ b
  · intro b
    rfl
  intro j t _ ih b
  by_cases hb : b = g.numblocks - d.maxblocks + j
  · rw [← hb, update_self, hmk, ih b]
  · rw [update_of_ne hb, ih b]

/-- Reserved blocks that are not recorded are marked in memory only. -/
theorem markBbtRegion_eq (hco : d.reservedBlockCode = 0) (m : Mem) :
    markBbtRegion g td md d m = ([], { m with bbt := reserveBlocks g d m.bbt }) := by
  have hff (b : Bool) : (b && d.reservedBlockCode != 0) = false := by
    rw [hco]
    simp
  unfold markBbtRegion
  simp only [hff]
  rfl

/-- What `check_create` does with the tables that the search finds. -/
def created (g : Chip) (td md : Descr) (create : Flash → ℕ → Mark) (flash : Flash) :=
  checkCreate g flash td md create
    { bbt := fun _ => 0, td := searchBbt g flash td, md := searchBbt g flash md }

/-- The scan is what `check_create` does, apart from the reserved marks. -/
theorem nandScanBbt_eq (hm : Mirrored g td md) (create : Flash → ℕ → Mark) {c}
    (hc : created g td md create flash = c) :
    nandScanBbt g td md create flash =
      (applyOps g flash c.1,
        { c.2.1 with bbt := reserveBlocks g md (reserveBlocks g td c.2.1.bbt) }, c.2.2) := by
  simp only [nandScanBbt]
  rw [← created, hc, markBbtRegion_eq hm.td_usable.code, markBbtRegion_eq hm.md_usable.code]
  simp

/-- A scan is done when `check_create` leaves equal tables. -/
theorem recovered_of_checkCreate (hm : Mirrored g td md) {told : ℕ → Bool} {tnew : ℕ → Mark}
    {create : Flash → ℕ → Mark} {c} (hc : created g td md create flash = c)
    (hT : (∀ b < g.numblocks, T b = told b) ∨ (∀ b < g.numblocks, T b = isBad (tnew b)))
    (hmm : ∀ b < g.numblocks, isBad (c.2.1.bbt b) = T b)
    (htd : CopyAt g td (applyOps g flash c.1) a v T)
    (hmd : CopyAt g md (applyOps g flash c.1) b v T) :
    Recovered g td md told tnew (nandScanBbt g td md create flash) := by
  rw [nandScanBbt_eq hm create hc]
  refine ⟨T, hT, ?_, a, b, v, htd, hmd⟩
  intro b hb
  rw [isBad_reserveBlocks, isBad_reserveBlocks]
  exact hmm b hb

theorem CopyAt.congr (h : CopyAt g d flash a v T) (hT : ∀ b < g.numblocks, T b = T' b) :
    CopyAt g d flash a v T' where
  region := h.region
  found := h.found
  version := h.version
  table b hb := (h.table b hb).trans (hT b hb)

theorem TwoGood.congr (h : TwoGood g d T) (hT : ∀ b < g.numblocks, T b = T' b) :
    TwoGood g d T' := by
  obtain ⟨b, c, hne, hb, hc, hgb, hgc⟩ := h
  exact ⟨b, c, hne, hb, hc, (hT b hb.2).symm.trans hgb, (hT c hc.2).symm.trans hgc⟩

section

variable (htd : td.Usable g) (hmd : md.Usable g) (create : Flash → ℕ → Mark)

include htd hmd create

/-- Both tables are there and have one version. -/
theorem checkCreate_equal (ha : CopyAt g td flash a v T) (hb : CopyAt g md flash b v T') :
    created g td md create flash =
      ([], { bbt := readBbt g flash (firstPage g a) td (fun _ => 0)
             td := ⟨some (firstPage g a), v⟩
             md := ⟨some (firstPage g b), v⟩ }, none) := by
  rw [created, ha.searchBbt_eq htd, hb.searchBbt_eq hmd]
  simp [checkCreate, checkTables, readAbsBbt]

theorem checkCreate_td_lost (ha : NoCopy g td flash) (hb : CopyAt g md flash b v T)
    (hw : writeBbt g td (readBbt g flash (firstPage g b) md (fun _ => 0)) ⟨none, v⟩
      (some (firstPage g b)) = (ops, ⟨some page, v⟩, none)) : created g td md create flash =
      (ops, { bbt := readBbt g flash (firstPage g b) md (fun _ => 0)
              td := ⟨some page, v⟩
              md := ⟨some (firstPage g b), v⟩ }, none) := by
  rw [created, ha.searchBbt_eq htd, hb.searchBbt_eq hmd]
  simp only [checkCreate, checkTables, readAbsBbt, reduceIte, Bool.false_eq_true, hw,
    Option.isSome_none, append_nil]

theorem checkCreate_md_lost (ha : CopyAt g td flash a v T) (hb : NoCopy g md flash)
    (hw : writeBbt g md (readBbt g flash (firstPage g a) td (fun _ => 0)) ⟨none, v⟩
      (some (firstPage g a)) = (ops, ⟨some page, v⟩, none)) : created g td md create flash =
      (ops, { bbt := readBbt g flash (firstPage g a) td (fun _ => 0)
              td := ⟨some (firstPage g a), v⟩
              md := ⟨some page, v⟩ }, none) := by
  rw [created, ha.searchBbt_eq htd, hb.searchBbt_eq hmd]
  simp only [checkCreate, checkTables, readAbsBbt, reduceIte, Bool.false_eq_true, hw,
    Option.isSome_none, nil_append]

/-- The main table is one version ahead; the version may wrap. -/
theorem checkCreate_td_newer (ha : CopyAt g td flash a (v + 1) T) (hb : CopyAt g md flash b v T') :
    let bbt := readBbt g flash (firstPage g a) td (fun _ => 0)
    let w := writeBbt g md bbt ⟨some (firstPage g b), v + 1⟩ (some (firstPage g a))
    created g td md create flash =
      (w.1, { bbt := bbt
              td := ⟨some (firstPage g a), v + 1⟩
              md := w.2.1 }, w.2.2) := by
  rw [created, ha.searchBbt_eq htd, hb.searchBbt_eq hmd]
  simp [checkCreate, checkTables, readAbsBbt]

end

/-- A lost table is written to a good block, and not to that of the other table. -/
theorem writeBbt_place (hd : d.Usable g) (h : TwoGood g d (fun i => isBad (bbt i)))
    : ∃ b, InRegion g d b ∧ c ≠ b ∧ writeBbt g d bbt ⟨none, v⟩ (some (firstPage g c)) =
      (writeOps g d bbt b v, ⟨some (firstPage g b), v⟩, none) := by
  obtain ⟨b, hplc, hreg, hne, hgood⟩ := placeBbt_some hd h
  refine ⟨b, hreg, hne.symm, ?_⟩
  rw [writeBbt_lost hplc, writeBbt_again _ hgood]
  rfl

section Recover

variable {told : ℕ → Bool} (tnew : ℕ → Mark) (create : Flash → ℕ → Mark)
  (hm : Mirrored g td md)
  (hT : (∀ b < g.numblocks, T b = told b) ∨ (∀ b < g.numblocks, T b = isBad (tnew b)))

include hm hT

theorem recovered_equal (ha : CopyAt g td flash a v T) (hb : CopyAt g md flash b v T) :
    Recovered g td md told tnew (nandScanBbt g td md create flash) := by
  have hc := checkCreate_equal hm.td_usable hm.md_usable create ha hb
  exact recovered_of_checkCreate hm hc hT ha.table ha hb

theorem recovered_td_lost (ha : NoCopy g td flash) (hb : CopyAt g md flash b v T)
    (hgood : TwoGood g td T) : Recovered g td md told tnew (nandScanBbt g td md create flash) := by
  have hgood' := hgood.congr (fun i hi => (hb.table i hi).symm)
  obtain ⟨a, hreg, hne, hw⟩ := writeBbt_place hm.td_usable hgood'
  have hc := checkCreate_td_lost hm.td_usable hm.md_usable create ha hb hw
  obtain ⟨hcp, hkp⟩ := CopyAt.write (readBbt g flash (firstPage g b) md (fun _ => 0)) v hm hreg
    (fun b' hb' _ => ha b' hb') hb hne
  exact recovered_of_checkCreate hm hc hT hb.table (hcp.congr hb.table) hkp

theorem recovered_md_lost (ha : CopyAt g td flash a v T) (hb : NoCopy g md flash)
    (hgood : TwoGood g md T) : Recovered g td md told tnew (nandScanBbt g td md create flash) := by
  have hgood' := hgood.congr (fun i hi => (ha.table i hi).symm)
  obtain ⟨b, hreg, hne, hw⟩ := writeBbt_place hm.md_usable hgood'
  have hc := checkCreate_md_lost hm.td_usable hm.md_usable create ha hb hw
  obtain ⟨hcp, hkp⟩ := CopyAt.write (readBbt g flash (firstPage g a) td (fun _ => 0)) v hm.symm
    hreg (fun b' hb' _ => hb b' hb') ha hne
  exact recovered_of_checkCreate hm hc hT ha.table hkp (hcp.congr ha.table)

theorem recovered_td_newer (ha : CopyAt g td flash a (v + 1) T) (hb : CopyAt g md flash b v T')
    (hgood : T b = false) : Recovered g td md told tnew (nandScanBbt g td md create flash) := by
  have hgood' := (ha.table b hb.region.2).trans hgood
  have hc := checkCreate_td_newer hm.td_usable hm.md_usable create ha hb
  simp only at hc
  rw [writeBbt_again _ hgood'] at hc
  obtain ⟨hcp, hkp⟩ := CopyAt.write (readBbt g flash (firstPage g a) td (fun _ => 0)) (v + 1)
    hm.symm hb.region hb.checkPattern_ne ha (CopyAt.ne hm ha hb)
  exact recovered_of_checkCreate hm hc hT ha.table hkp (hcp.congr ha.table)

end Recover

/-- The mirror stays behind when its block is bad in the newer table. -/
theorem not_recovered_td_newer {told : ℕ → Bool} {tnew : ℕ → Mark} (create : Flash → ℕ → Mark)
    (hm : Mirrored g td md) (ha : CopyAt g td flash a (v + 1) T) (hb : CopyAt g md flash b v T')
    (hbd : T b = true) : ¬ Recovered g td md told tnew (nandScanBbt g td md create flash) := by
  have hbd' := (ha.table b hb.region.2).trans hbd
  have hc := checkCreate_td_newer hm.td_usable hm.md_usable create ha hb
  simp only at hc
  rw [writeBbt_bad _ hbd'] at hc
  rw [nandScanBbt_eq hm create hc]
  rintro ⟨T, -, -, a', b', version, ha', hb'⟩
  have hv1 : v + 1 = version := ha.unique ha'
  have hv2 : v = version := hb.unique hb'
  have hne : ∀ v : Byte, v + 1 ≠ v := by decide
  exact hne v (hv1.trans hv2.symm)

/-! ## Updates that are cut off -/

/-- The operations of an update: no table is written to a bad block, and the mirror is not
written if the main table is not. -/
theorem nandUpdateBbt_ops (a b : ℕ) (v : Byte) :
    (nandUpdateBbt g td md
      { bbt := bbt
        td := ⟨some (firstPage g a), v⟩
        md := ⟨some (firstPage g b), v⟩ }).1 =
      if isBad (bbt a) then []
      else if isBad (bbt b) then writeOps g td bbt a (v + 1)
      else writeOps g td bbt a (v + 1) ++ writeOps g md bbt b (v + 1) := by
  simp only [nandUpdateBbt]
  cases ha : isBad (bbt a) with
  | true => simp [writeBbt_bad _ ha]
  | false =>
    rw [writeBbt_again _ ha]
    cases hb : isBad (bbt b) with
    | true =>
      simp only
      rw [writeBbt_bad _ hb]
      simp [writeOps]
    | false =>
      simp only
      rw [writeBbt_again _ hb]
      simp [writeOps]

/-- **An update that is cut off, and a scan.** From two equal tables, after any number of the
operations of an update, the scan ends with two equal tables, the old ones or the new ones;
unless the new table was written and says that the block of the mirror is bad. -/
theorem update_cut_recovered_iff (hm : Mirrored g td md) (create : Flash → ℕ → Mark)
    {told : ℕ → Bool} (htd : CopyAt g td flash a v told) (hmd : CopyAt g md flash b v told)
    (tnew : ℕ → Mark) (hold : TwoGood g td told) (hnew : TwoGood g td (fun i => isBad (tnew i)))
    (k : ℕ) :
    Recovered g td md told tnew (nandScanBbt g td md create (applyOps g flash
      ((nandUpdateBbt g td md
        { bbt := tnew
          td := ⟨some (firstPage g a), v⟩
          md := ⟨some (firstPage g b), v⟩ }).1.take k))) ↔
      ¬ (isBad (tnew b) = true ∧ isBad (tnew a) = false ∧ 2 ≤ k) := by
  rw [nandUpdateBbt_ops]
  have hlist : ∀ b < g.numblocks, told b = told b := fun _ _ => rfl
  have hlist' : ∀ b < g.numblocks, isBad (tnew b) = isBad (tnew b) := fun _ _ => rfl
  -- nothing is done yet, or the main table is erased
  have hstart := recovered_equal tnew create hm (Or.inl hlist) htd hmd
  have herased := CopyAt.erase hm htd hmd
  have hlost := recovered_td_lost tnew create hm (Or.inl hlist) herased.1 herased.2 hold
  -- the main table is written
  have hfirst := CopyAt.write tnew (v + 1) hm htd.region htd.checkPattern_ne hmd
    (CopyAt.ne hm htd hmd).symm
  cases ha : isBad (tnew a) with
  | true =>
    simp only [reduceIte, take_nil, Bool.true_eq_false, false_and, and_false, not_false_eq_true,
      iff_true]
    exact hstart
  | false =>
    cases hb : isBad (tnew b) with
    | true =>
      simp only [true_and, Nat.not_le]
      rcases Nat.lt_or_ge k 2 with hk | hk
      · refine iff_of_true ?_ hk
        rcases k with _ | _ | k
        · exact hstart
        · exact hlost
        · omega
      · refine iff_of_false ?_ (Nat.not_lt.2 hk)
        rw [take_of_length_le (by exact hk)]
        exact not_recovered_td_newer create hm hfirst.1 hfirst.2 hb
    | false =>
      simp only [Bool.false_eq_true, false_and, not_false_eq_true, iff_true]
      have hgood : TwoGood g md (fun i => isBad (tnew i)) := by
        obtain ⟨b, c, hne, hb, hc, h⟩ := hnew
        unfold InRegion at hb hc
        rw [hm.maxblocks] at hb hc
        exact ⟨b, c, hne, hb, hc, h⟩
      have hsecond := CopyAt.write tnew (v + 1) hm.symm hmd.region hfirst.2.checkPattern_ne
        hfirst.1 (CopyAt.ne hm htd hmd)
      have herased' := CopyAt.erase hm.symm hfirst.2 hfirst.1
      rcases k with _ | _ | _ | _ | k
      · exact hstart
      · exact hlost
      · exact recovered_td_newer tnew create hm (Or.inr hlist') hfirst.1 hfirst.2 hb
      · exact recovered_md_lost tnew create hm (Or.inr hlist') herased'.2 herased'.1 hgood
      rw [take_of_length_le (by simp [writeOps])]
      exact recovered_equal tnew create hm (Or.inr hlist') hsecond.2 hsecond.1

def eightBlocks : Chip := ⟨8, 1, by decide⟩

/-- Its flash, with two tables without bad blocks, in the last two blocks. The version is about
to wrap. -/
def freshFlash : Flash :=
  applyOps eightBlocks (fun _ => Page.erased)
    (writeOps eightBlocks bbtMainDescr (fun _ => 0) 7 0xff ++
      writeOps eightBlocks bbtMirrorDescr (fun _ => 0) 6 0xff)

theorem freshFlash_main : CopyAt eightBlocks bbtMainDescr freshFlash 7 0xff (fun _ => false) where
  region := by decide +kernel
  found b hb := by
    have ha : ∀ b < 8, 4 ≤ b →
        (checkPattern (freshFlash (firstPage eightBlocks b)) bbtMainDescr = true ↔ b = 7) := by
      decide +kernel
    exact ha b hb.2 hb.1
  version := by decide +kernel
  table := by decide +kernel

theorem freshFlash_mirror :
    CopyAt eightBlocks bbtMirrorDescr freshFlash 6 0xff (fun _ => false) where
  region := by decide +kernel
  found b hb := by
    have ha : ∀ b < 8, 4 ≤ b →
        (checkPattern (freshFlash (firstPage eightBlocks b)) bbtMirrorDescr = true ↔ b = 6) := by
      decide +kernel
    exact ha b hb.2 hb.1
  version := by decide +kernel
  table := by decide +kernel

theorem twoGood_eightBlocks (h4 : T 4 = false) (h5 : T 5 = false) :
    TwoGood eightBlocks bbtMainDescr T :=
  ⟨4, 5, by decide, by decide +kernel, by decide +kernel, h4, h5⟩

/-- Block 0 is worn out, and the update is cut off between the tables. -/
theorem update_cut_recovered_between :
    Recovered eightBlocks bbtMainDescr bbtMirrorDescr (fun _ => false) (update (fun _ => 0) 0 1)
      (nandScanBbt eightBlocks bbtMainDescr bbtMirrorDescr (fun _ _ => 0)
        (applyOps eightBlocks freshFlash ((nandUpdateBbt eightBlocks bbtMainDescr bbtMirrorDescr
          { bbt := update (fun _ => 0) 0 1
            td := ⟨some (firstPage eightBlocks 7), 0xff⟩
            md := ⟨some (firstPage eightBlocks 6), 0xff⟩ }).1.take 2))) :=
  (update_cut_recovered_iff (bbtDescr_mirrored (by decide) (by decide)) _ freshFlash_main
    freshFlash_mirror _ (twoGood_eightBlocks rfl rfl) (twoGood_eightBlocks rfl rfl) 2).2 (by decide)

/-- The block of the mirror is marked bad, and there are good ones left. The update writes the
main table and is refused the mirror; so is the scan. -/
theorem update_mirror_bad_not_recovered :
    CopyAt eightBlocks bbtMainDescr freshFlash 7 0xff (fun _ => false) ∧
    CopyAt eightBlocks bbtMirrorDescr freshFlash 6 0xff (fun _ => false) ∧
    TwoGood eightBlocks bbtMainDescr (fun _ => false) ∧
    TwoGood eightBlocks bbtMainDescr (fun i => isBad (update (fun _ => (0 : Mark)) 6 1 i)) ∧
    ¬ Recovered eightBlocks bbtMainDescr bbtMirrorDescr (fun _ => false) (update (fun _ => 0) 6 1)
      (nandScanBbt eightBlocks bbtMainDescr bbtMirrorDescr (fun _ _ => 0)
        (applyOps eightBlocks freshFlash ((nandUpdateBbt eightBlocks bbtMainDescr bbtMirrorDescr
          { bbt := update (fun _ => 0) 6 1
            td := ⟨some (firstPage eightBlocks 7), 0xff⟩
            md := ⟨some (firstPage eightBlocks 6), 0xff⟩ }).1.take 2))) := by
  refine ⟨freshFlash_main, freshFlash_mirror, twoGood_eightBlocks rfl rfl,
    twoGood_eightBlocks rfl rfl, ?_⟩
  have hm : Mirrored eightBlocks bbtMainDescr bbtMirrorDescr :=
    bbtDescr_mirrored (by decide) (by decide)
  rw [nandUpdateBbt_ops]
  have hwritten := CopyAt.write (update (fun _ => 0) 6 1) (0xff + 1) hm freshFlash_main.region
    freshFlash_main.checkPattern_ne freshFlash_mirror (by decide)
  exact not_recovered_td_newer _ hm hwritten.1 hwritten.2 rfl

end NestLinux.NandBbt
