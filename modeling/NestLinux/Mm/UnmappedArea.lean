import NestLinux.Lib.Align

/-!
# The choice of an address for a mapping

The model of `arch_get_unmapped_area` of `arch/arm/mm/mmap.c`. The search starts at the
remembered end of the last mapping, or at the base when a hole is known to be large enough,
goes from area to area, and starts again at the base if it began elsewhere.

What it returns is free. It does not always find the room there is: a random offset is added
to the start, and a search that began at the base is not repeated without it.
-/

namespace NestLinux.UnmappedArea

open Lib

/-- `struct vm_area_struct`: the pages from `vmStart` up to `vmEnd`. -/
structure VmArea where
  (vmStart vmEnd : ℕ)
  lt : vmStart < vmEnd
  page : 4096 ∣ vmStart ∧ 4096 ∣ vmEnd

/-- The areas follow one another. -/
def Sorted : List VmArea → Prop := List.Pairwise (·.vmEnd ≤ ·.vmStart)

/-- What the search reads and writes of `struct mm_struct`. -/
structure MmStruct where
  vmas : List VmArea
  (cachedHoleSize freeAreaCache : ℕ)
  sorted : Sorted vmas

/-- A call, with the configuration and what it reads of the processor and the process. -/
structure Request where
  pageOffset : ℕ
  /-- `read_cpuid_cachetype()` and `read_cpuid_id()`, with `CONFIG_CPU_V6`. -/
  cpu : Option (ℕ × ℕ)
  (filp mapShared mapFixed : Bool)
  /-- `get_random_int()`, with `PF_RANDOMIZE`. -/
  randomInt : Option ℕ
  (addr len pgoff : ℕ)
  pageOffset_le : pageOffset ≤ 0xC0000000

inductive Errno
  | EINVAL
  | ENOMEM

def shmlba : ℕ := 4 * 4096

namespace Request

variable (q : Request)

def taskSize : ℕ := q.pageOffset - 0x01000000

def taskUnmappedBase : ℕ := q.pageOffset / 3

def aliasing : Bool := q.cpu.any fun c => c.1 ≠ c.2 && (c.1 ||| c.1 >>> 12).testBit 11

def doAlign : Bool := q.aliasing && (q.filp || q.mapShared)

def colourAlign (addr : ℕ) : ℕ :=
  add32 (alignUp32 addr shmlba) (q.pgoff * 4096 % 2 ^ 32 % shmlba)

def align (addr : ℕ) : ℕ := if q.doAlign then q.colourAlign addr else alignUp32 addr 4096

/-- Where the search goes on behind an area. -/
def behind (v : VmArea) : ℕ := if q.doAlign then q.colourAlign v.vmEnd else v.vmEnd

/-- What is added to the start of the first search. -/
def randomOffset : ℕ := q.randomInt.elim 0 (· % 2 ^ 8 * 4096)

end Request

open Request

/-- `find_vma` with the areas that follow: the first one that ends above the address. -/
def findVma (vmas : List VmArea) (addr : ℕ) : List VmArea := vmas.dropWhile (·.vmEnd ≤ addr)

variable (mm : MmStruct) (q : Request)

/-- The loop over the areas: the size of the largest hole it passed, and the place. -/
def walk (hole addr : ℕ) : List VmArea → ℕ × Option ℕ
  | [] => (hole, if q.taskSize - q.len < addr then none else some addr)
  | v :: vs =>
    if q.taskSize - q.len < addr then (hole, none)
    else if addr + q.len ≤ v.vmStart then (hole, some addr)
    else walk (if add32 addr hole < v.vmStart then sub32 v.vmStart addr else hole) (q.behind v) vs

/-- From the label `full_search`, with the cached hole size there, to the end of the loop. -/
def fullSearch (hole addr : ℕ) : Option ℕ × MmStruct :=
  let r := walk q hole (q.align addr) (findVma mm.vmas (q.align addr))
  (r.2, { mm with cachedHoleSize := r.1, freeAreaCache := r.2.elim mm.freeAreaCache (· + q.len) })

/-- The address and the cached hole size the search starts with. -/
def startAddr : ℕ × ℕ :=
  if mm.cachedHoleSize < q.len then (mm.freeAreaCache, mm.cachedHoleSize)
  else (q.taskUnmappedBase, 0)

/-- The searches after the hint. -/
def search : Option ℕ × MmStruct :=
  let start := startAddr mm q
  let s := fullSearch mm q start.2 (add32 start.1 q.randomOffset)
  if s.1 = none ∧ start.1 ≠ q.taskUnmappedBase then fullSearch mm q 0 q.taskUnmappedBase else s

def archGetUnmappedArea : Except Errno ℕ × MmStruct :=
  if q.mapFixed then
    (if q.aliasing && q.mapShared && sub32 q.addr (q.pgoff * 4096 % 2 ^ 32) % shmlba ≠ 0
      then .error .EINVAL else .ok q.addr, mm)
  else if q.taskSize < q.len then (.error .ENOMEM, mm)
  else if q.addr ≠ 0 ∧ q.align q.addr ≤ q.taskSize - q.len ∧
      ∀ v ∈ (findVma mm.vmas (q.align q.addr)).head?, q.align q.addr + q.len ≤ v.vmStart then
    (.ok (q.align q.addr), mm)
  else ((search mm q).1.elim (.error .ENOMEM) .ok, (search mm q).2)

/-- `arch_unmap_area` of `mm/mmap.c`. -/
def archUnmapArea (addr : ℕ) : MmStruct :=
  if q.taskUnmappedBase ≤ addr ∧ addr < mm.freeAreaCache then
    { mm with freeAreaCache := addr, cachedHoleSize := 2 ^ 32 - 1 }
  else mm

/-- The mapping fits at an address: it ends below `TASK_SIZE` and meets no area. -/
def Fits (r : ℕ) : Prop :=
  r + q.len ≤ q.taskSize ∧ ∀ v ∈ mm.vmas, v.vmEnd ≤ r ∨ r + q.len ≤ v.vmStart

/-- The address is that of a page, and of one of the colour where colours matter. -/
def Aligned (r : ℕ) : Prop :=
  4096 ∣ r ∧ (q.doAlign → r % shmlba = q.pgoff * 4096 % shmlba)

/-- There is a page at or above the address where the mapping fits. -/
def Room (addr : ℕ) : Prop := ∃ r, addr ≤ r ∧ 4096 ∣ r ∧ Fits mm q r

/-- No area ends where the alignment to a colour wraps. -/
def Low : Prop := q.doAlign → ∀ v ∈ mm.vmas, v.vmEnd ≤ 0xC0000000

variable {mm q} {hole addr r : ℕ} {vs : List VmArea} {v : VmArea}

/-! ## Alignment -/

theorem align_page (hq : q.doAlign = false) (h : addr ≤ 0xC0000000) :
    4096 ∣ q.align addr ∧ ∀ r, 4096 ∣ r → (q.align addr ≤ r ↔ addr ≤ r) := by
  have heq : q.align addr = (addr + (4096 - 1)) / 4096 * 4096 := by
    rw [align, hq]
    exact alignUp32_of_lt (k := 12) (by omega) (by omega)
  rw [heq]
  exact ⟨Nat.dvd_mul_left _ _, fun r hr => alignUp_le_iff hr (by omega)⟩

theorem colourAlign_spec (h : addr ≤ 0xC0000000) :
    addr ≤ q.colourAlign addr ∧ Aligned q (q.colourAlign addr) := by
  have hup : alignUp32 addr shmlba = (addr + (shmlba - 1)) / shmlba * shmlba :=
    alignUp32_of_lt (k := 14) (by omega) (by omega)
  rw [Aligned, colourAlign, hup]
  unfold shmlba
  rw [add32_of_lt (by omega)]
  omega

theorem aligned_align (h : addr ≤ 0xC0000000) : Aligned q (q.align addr) := by
  cases hq : q.doAlign
  · exact ⟨(align_page hq h).1, by simp [hq]⟩
  rw [align, hq]
  exact (colourAlign_spec h).2

/-- Behind an area the search is at an aligned place that is not inside it. -/
theorem behind_spec (hmm : Low mm q) (hv : v ∈ mm.vmas) :
    v.vmEnd ≤ q.behind v ∧ Aligned q (q.behind v) := by
  rw [Request.behind]
  cases hq : q.doAlign
  · exact ⟨le_rfl, v.page.2, by simp [hq]⟩
  · exact colourAlign_spec (hmm hq v hv)

/-! ## The loop -/

/-- `find_vma` leaves the areas that end above the address. -/
theorem findVma_eq_filter (h : Sorted vs) : findVma vs addr = vs.filter (addr < ·.vmEnd) := by
  induction vs with
  | nil => rfl
  | cons w vs ih =>
    obtain ⟨hw, hvs⟩ := List.pairwise_cons.1 h
    by_cases he : w.vmEnd ≤ addr
    · simpa [findVma, he, he.not_gt] using ih hvs
    rw [findVma, List.dropWhile_cons_of_neg (by simpa using he), eq_comm, List.filter_eq_self]
    intro v hv
    rw [decide_eq_true_eq]
    rcases List.mem_cons.1 hv with rfl | hv
    · omega
    have := hw v hv
    have := v.lt
    omega

theorem mem_findVma : v ∈ findVma mm.vmas addr ↔ v ∈ mm.vmas ∧ addr < v.vmEnd := by
  simp [findVma_eq_filter mm.sorted]

/-- A place that the loop finds is where it began or behind an area, and meets none of them. -/
theorem walk_some (hs : Sorted vs) (hb : ∀ v ∈ vs, v.vmEnd ≤ q.behind v)
    (h : (walk q hole addr vs).2 = some r) :
    (r = addr ∨ ∃ v ∈ vs, r = q.behind v) ∧ r ≤ q.taskSize - q.len ∧
      ∀ v ∈ vs, v.vmEnd ≤ r ∨ r + q.len ≤ v.vmStart := by
  induction vs generalizing hole addr with
  | nil =>
    simp only [walk, Option.ite_none_left_eq_some, Option.some.injEq, not_lt] at h
    simp [← h.2, h.1]
  | cons v vs ih =>
    obtain ⟨hv, hvs⟩ := List.pairwise_cons.1 hs
    rw [List.forall_mem_cons] at hb ⊢
    rw [walk] at h
    split at h
    · cases h
    split at h
    · next he hf =>
      cases h
      refine ⟨.inl rfl, by omega, .inr hf, fun w hw => .inr ?_⟩
      have := hv w hw
      have := v.lt
      omega
    obtain ⟨hr, hle, hdj⟩ := ih hvs hb.2 h
    rcases hr with rfl | ⟨w, hw, rfl⟩
    · exact ⟨.inr ⟨v, .head _, rfl⟩, hle, .inl hb.1, hdj⟩
    have := hv w hw
    have := w.lt
    have := hb.2 w hw
    exact ⟨.inr ⟨w, .tail _ hw, rfl⟩, hle, .inl (by omega), hdj⟩

/-- Without colours, the loop passes no place where the mapping fits. -/
theorem walk_none (hq : q.doAlign = false) (h : (walk q hole addr vs).2 = none) (hr : addr ≤ r)
    (hf : r + q.len ≤ q.taskSize) : ∃ v ∈ vs, ¬(v.vmEnd ≤ r ∨ r + q.len ≤ v.vmStart) := by
  induction vs generalizing hole addr with
  | nil =>
    simp only [walk, ite_eq_left_iff, reduceCtorEq, imp_false, not_not] at h
    omega
  | cons v vs ih =>
    rw [walk] at h
    split at h
    · omega
    split at h
    · cases h
    by_cases hv : v.vmEnd ≤ r
    · obtain ⟨w, hw, hmts⟩ := ih h (by simpa [Request.behind, hq] using hv)
      exact ⟨w, .tail _ hw, hmts⟩
    · exact ⟨v, .head _, by omega⟩

/-- Where a search stops the mapping fits. -/
theorem walk_fits (hmm : Low mm q) (hl : q.len ≤ q.taskSize) (ha : addr ≤ 0xC0000000)
    (h : (walk q hole (q.align addr) (findVma mm.vmas (q.align addr))).2 = some r) :
    q.align addr ≤ r ∧ Aligned q r ∧ Fits mm q r := by
  have hbeh (v) (hv : v ∈ findVma mm.vmas (q.align addr)) := behind_spec hmm (mem_findVma.1 hv).1
  obtain ⟨hr, hle, hdj⟩ := walk_some (mm.sorted.sublist (List.dropWhile_sublist _))
    (fun v hv => (hbeh v hv).1) h
  have hge : q.align addr ≤ r ∧ Aligned q r := by
    rcases hr with rfl | ⟨v, hv, rfl⟩
    · exact ⟨le_rfl, aligned_align ha⟩
    · exact ⟨(mem_findVma.1 hv).2.le.trans (hbeh v hv).1, (hbeh v hv).2⟩
  refine ⟨hge.1, hge.2, by omega, fun v hv => ?_⟩
  by_cases he : v.vmEnd ≤ q.align addr
  · exact .inl (he.trans hge.1)
  · exact hdj v (mem_findVma.2 ⟨hv, not_le.1 he⟩)

theorem fullSearch_eq_none_iff (hq : q.doAlign = false) (hl : q.len ≤ q.taskSize)
    (ha : addr ≤ 0xC0000000) : (fullSearch mm q hole addr).1 = none ↔ ¬Room mm q addr := by
  obtain ⟨-, hle⟩ := align_page hq ha
  constructor
  · rintro h ⟨r, hr, hd, hf⟩
    obtain ⟨v, hv, hmts⟩ := walk_none hq h ((hle r hd).2 hr) hf.1
    exact hmts (hf.2 v (mem_findVma.1 hv).1)
  intro h
  by_contra hso
  obtain ⟨r, hr⟩ := Option.ne_none_iff_exists'.1 hso
  obtain ⟨hge, hal, hf⟩ := walk_fits (by simp [Low, hq]) hl ha hr
  exact h ⟨r, (hle r hal.1).1 hge, hal.1, hf⟩

/-! ## The call -/

theorem taskSize_le : q.taskSize ≤ 0xBF000000 := Nat.sub_le_sub_right q.pageOffset_le _

theorem taskUnmappedBase_le : q.taskUnmappedBase ≤ 0x40000000 :=
  Nat.div_le_div_right q.pageOffset_le

theorem add_randomOffset_le (h : addr ≤ 0xBF000000) : addr + q.randomOffset ≤ 0xC0000000 := by
  rw [randomOffset]
  cases q.randomInt <;> simp only [Option.elim_none, Option.elim_some] <;> omega

/-- What is returned is free, or the call fails for want of room. -/
theorem archGetUnmappedArea_free (mm : MmStruct) (q : Request)
    (hmm : ∀ v ∈ mm.vmas, v.vmEnd ≤ q.taskSize) (haddr : q.addr ≤ q.taskSize)
    (hfixed : q.mapFixed = false) (hcache : mm.freeAreaCache ≤ q.taskSize) :
    (archGetUnmappedArea mm q).1 = .error .ENOMEM ∨
      ∃ r, (archGetUnmappedArea mm q).1 = .ok r ∧ Aligned q r ∧ Fits mm q r := by
  have htask := taskSize_le (q := q)
  have hbase := taskUnmappedBase_le (q := q)
  have hlow : Low mm q := fun _ v hv => (hmm v hv).trans (by omega)
  have hstart : (startAddr mm q).1 ≤ 0xBF000000 := by
    rw [startAddr]
    split <;> omega
  have hoff := add_randomOffset_le (q := q) hstart
  rw [archGetUnmappedArea, if_neg (by simp [hfixed])]
  split
  · exact .inl rfl
  next hlen =>
  rw [not_lt] at hlen
  split
  · next hhint =>
    -- The check of the hint is the first turn of the loop.
    have hturn : (walk q 0 (q.align q.addr) (findVma mm.vmas (q.align q.addr))).2 =
        some (q.align q.addr) := by
      cases h : findVma mm.vmas (q.align q.addr) <;> simp_all [walk, hhint.2.1.not_gt]
    exact .inr ⟨_, rfl, (walk_fits hlow hlen (haddr.trans (by omega)) hturn).2⟩
  cases h : (search mm q).1 with
  | none => exact .inl rfl
  | some r =>
    refine .inr ⟨r, rfl, ?_⟩
    rw [search] at h
    split at h
    · exact (walk_fits hlow hlen (by omega) h).2
    · rw [add32_of_lt (by omega)] at h
      exact (walk_fits hlow hlen hoff h).2

/-- The call fails only if there is no room above the base. -/
def FailsOnlyIfFull (mm : MmStruct) (q : Request) : Prop :=
  (archGetUnmappedArea mm q).1 = .error .ENOMEM → ¬Room mm q q.taskUnmappedBase

/-- That is so unless the search begins at the base and the random offset passes all the room. -/
theorem archGetUnmappedArea_fails_iff (mm : MmStruct) (q : Request) (hq : q.doAlign = false)
    (haddr : q.addr = 0) (hfixed : q.mapFixed = false) :
    FailsOnlyIfFull mm q ↔ ((startAddr mm q).1 = q.taskUnmappedBase →
      Room mm q q.taskUnmappedBase → Room mm q (q.taskUnmappedBase + q.randomOffset)) := by
  have hbase := taskUnmappedBase_le (q := q)
  have hoff := add_randomOffset_le (q := q) (hbase.trans (by omega))
  rw [FailsOnlyIfFull]
  by_cases hlen : q.taskSize < q.len
  · have hnone : ¬Room mm q q.taskUnmappedBase := by
      rintro ⟨r, -, -, hfit⟩
      have := hfit.1
      omega
    simp [hnone]
  rw [not_lt] at hlen
  have hcall : (archGetUnmappedArea mm q).1 = .error .ENOMEM ↔ (search mm q).1 = none := by
    rw [archGetUnmappedArea]
    cases h : (search mm q).1 <;> simp [haddr, hfixed, hlen.not_gt]
  rw [hcall, search]
  by_cases hstart : (startAddr mm q).1 = q.taskUnmappedBase
  · rw [if_neg (by simp [hstart]), hstart, add32_of_lt (by omega),
      fullSearch_eq_none_iff hq hlen hoff]
    simpa only [true_implies] using not_imp_not
  simp only [hstart, false_implies, iff_true]
  split
  · exact (fullSearch_eq_none_iff hq hlen (by omega)).1
  · next h => exact fun hnone => absurd ⟨hnone, hstart⟩ h

/-- Everything is taken but the page at the base. -/
def nearlyFull : MmStruct :=
  ⟨[⟨0x40001000, 0xBF000000, by decide, by decide⟩], 0, 0xBF000000, by simp [Sorted]⟩

/-- One page is asked for. -/
def onePage (randomInt : Option ℕ) : Request :=
  ⟨0xC0000000, none, false, false, false, randomInt, 0, 4096, 0, le_rfl⟩

theorem archGetUnmappedArea_free_onePage :
    ∃ r, (archGetUnmappedArea nearlyFull (onePage none)).1 = .ok r ∧ Aligned (onePage none) r ∧
      Fits nearlyFull (onePage none) r :=
  (archGetUnmappedArea_free _ _ (by decide) (by decide) rfl (by decide)).resolve_left nofun

/-- Without the random offset the page is found. -/
theorem failsOnlyIfFull_onePage : FailsOnlyIfFull nearlyFull (onePage none) :=
  (archGetUnmappedArea_fails_iff _ _ rfl rfl rfl).2 fun _ => id

/-- The page at the base was unmapped last, and the offset is one page. -/
theorem not_failsOnlyIfFull :
    ¬FailsOnlyIfFull (archUnmapArea nearlyFull (onePage (some 1)) 0x40000000) (onePage (some 1)) :=
  fun h => h rfl ⟨0x40000000, by decide, by decide, by decide, by decide⟩

end NestLinux.UnmappedArea
