import NestLinux.Kernel.ResourceRun
import Mathlib.Order.Bounds.Basic
import Mathlib.Data.Nat.Find

/-!
# Allocating a resource

`find_resource` tries the gaps between the children of a root from the lowest one on, with
32-bit sums that wrap at a child that ends at the top, or where the size is too large for
the place. It finds the lowest place there is; where there is none, it may still propose a
range, but then `__request_resource` finds a resource in its way.
-/

namespace NestLinux.ResourceTree

open Lib Function List

/-- The resource fits at an address: it is aligned, inside the root and the bounds, and
apart from the children of the root. -/
structure Place (s : Heap) (root : ℕ) (w : Wanted) (b : ℕ) : Prop where
  aligned : w.align ∣ b
  low : (s root).start ≤ b
  high : b + w.size ≤ (s root).last + 1
  min : w.min ≤ b
  max : b + w.size ≤ w.max + 1
  apart : ∀ c ∈ (s root).child, (s c).last < b ∨ b + w.size ≤ (s c).start

/-- What is wanted is given by 32-bit words: some bytes, aligned to a power of two. -/
structure Wanted.Sane (w : Wanted) (k : ℕ) : Prop where
  size_pos : 1 ≤ w.size
  size_lt : w.size < 2 ^ 32
  min_lt : w.min < 2 ^ 32
  align_eq : w.align = 2 ^ k
  log_lt : k < 32

/-! ## One gap -/

section Gap

variable {w : Wanted} {k start last a b e : ℕ} (hw : w.Sane k)

/-- One turn of the search, with the bounds of the clipped gap. -/
theorem fitGap_def : fitGap w start last =
      if max start w.min ≤ alignUp32 (max start w.min) w.align then
        if sub32 (add32 (alignUp32 (max start w.min) w.align) w.size) 1 ≤ min last w.max then
          some (alignUp32 (max start w.min) w.align,
            sub32 (add32 (alignUp32 (max start w.min) w.align) w.size) 1) else none else none := by
  have hlo : (if start < w.min then w.min else start) = max start w.min := by
    split_ifs <;> omega
  have hhi : (if w.max < last then w.max else last) = min last w.max := by
    split_ifs <;> omega
  rw [fitGap, hlo, hhi]

/-- The end of a range of some bytes, which may wrap. -/
theorem sub32_add32_one {size : ℕ} (ha : a < 2 ^ 32) (hp : 1 ≤ size) (hlt : size < 2 ^ 32) :
    sub32 (add32 a size) 1 = if a + size ≤ 2 ^ 32 then a + size - 1 else a + size - 1 - 2 ^ 32 := by
  rw [sub32, add32]
  split_ifs <;> omega

include hw

/-- What the search proposes is aligned and inside the bounds, and has the right size unless
its end has wrapped. -/
theorem fitGap_some (h : fitGap w start last = some (a, e)) :
    w.align ∣ a ∧ w.min ≤ a ∧ e ≤ w.max ∧ (e < a ∨ e + 1 = a + w.size) := by
  have hlt : alignUp32 (max start w.min) w.align < 2 ^ 32 := hw.align_eq ▸ alignUp32_lt hw.log_lt
  have hd : w.align ∣ alignUp32 (max start w.min) w.align :=
    hw.align_eq ▸ dvd_alignUp32 hw.log_lt
  have hp := hw.size_pos
  have hsz := hw.size_lt
  have he := sub32_add32_one hlt hp hsz
  rw [fitGap_def] at h
  split_ifs at h with hl hhi
  obtain ⟨rfl, rfl⟩ := h
  refine ⟨hd, by omega, by omega, ?_⟩
  rw [he]
  split_ifs <;> omega

/-- Where some place is above the start of the gap, nothing wraps: the search proposes the
lowest aligned address of the gap if it fits there. -/
theorem fitGap_eq (last : ℕ) (hb : w.align ∣ b) (hst : start ≤ b) (hmin : w.min ≤ b)
    (he : b + w.size ≤ 2 ^ 32) :
    ∃ a, w.align ∣ a ∧ start ≤ a ∧ w.min ≤ a ∧ a ≤ b ∧ fitGap w start last =
      if a + w.size ≤ last + 1 ∧ a + w.size ≤ w.max + 1 then some (a, a + w.size - 1)
      else none := by
  have hp := hw.size_pos
  have hk : 0 < 2 ^ k := Nat.two_pow_pos k
  rw [hw.align_eq] at hb
  have hlo : max start w.min ≤ b := max_le hst hmin
  have hup_le := (alignUp_le_iff hb hk).2 hlo
  have hlo_up := (alignUp_le_iff (x := max start w.min) (Nat.dvd_mul_left _ _) hk).1 (le_refl _)
  have hnw : max start w.min + (2 ^ k - 1) < 2 ^ 32 := by
    by_contra hwr
    have ht : 2 ^ k ∣ 2 ^ 32 := Nat.pow_dvd_pow 2 hw.log_lt.le
    have := (le_alignDown_iff ht hk).2 (Nat.not_lt.1 hwr)
    omega
  have hup := alignUp32_of_lt hw.log_lt hnw
  rw [← hup] at hup_le hlo_up
  have hla := sub32_add32_one (alignUp32_lt hw.log_lt) hp hw.size_lt
    (a := alignUp32 (max start w.min) (2 ^ k))
  rw [if_pos (by omega)] at hla
  have hd : 2 ^ k ∣ alignUp32 (max start w.min) (2 ^ k) := dvd_alignUp32 hw.log_lt
  rw [fitGap_def, hw.align_eq, if_pos hlo_up, hla]
  refine ⟨alignUp32 (max start w.min) (2 ^ k), hd, by omega, by omega, hup_le, ?_⟩
  refine if_congr ?_ rfl rfl
  omega

end Gap

/-! ## All gaps -/

section Walk

variable {s : Heap} {root : ℕ} {w : Wanted} {k b : ℕ} (hw : w.Sane k)
  (hc : Children s root) (hla : (s root).last < 2 ^ 32) (hb : IsLeast {b | Place s root w b} b)

include hw hla hb

/-- A gap between the children: the search proposes the lowest place if it lies in the gap. -/
theorem fitGap_least {start last : ℕ} (hst : start ≤ b) (hro : (s root).start ≤ start)
    (hle : last ≤ (s root).last)
    (hg : ∀ c ∈ (s root).child, (s c).last < start ∨ last < (s c).start) :
    fitGap w start last = if b + w.size ≤ last + 1 then some (b, b + w.size - 1) else none := by
  have hplc : Place s root w b := hb.1
  have hhi := hplc.high
  have hm := hplc.max
  obtain ⟨a, hd, hsa, hma, hab, heq⟩ :=
    fitGap_eq hw last hplc.aligned hst hplc.min (by omega)
  rw [heq]
  by_cases hft : a + w.size ≤ last + 1 ∧ a + w.size ≤ w.max + 1
  · have hplc' : Place s root w a := by
      refine ⟨hd, by omega, by omega, hma, hft.2, fun c hc => ?_⟩
      have := hg c hc
      omega
    have hab' : a = b := le_antisymm hab (hb.2 hplc')
    rw [if_pos hft, if_pos (by omega), hab']
  · rw [if_neg hft, if_neg (by omega)]

include hc

/-- **The walk finds the lowest place** if it is not below the gap the walk is at. -/
theorem findWalk_least (before : List ℕ) {rest : List ℕ}
    (hsl : (s root).child = before ++ rest) {start : ℕ} (hp : ∀ c ∈ rest, 0 < (s c).start)
    (hro : (s root).start ≤ start) (hbf : ∀ c ∈ before, (s c).last < start) (hst : start ≤ b) :
    findWalk s w (s root).last rest start = some (b, b + w.size - 1) := by
  have hplc : Place s root w b := hb.1
  have hsz := hw.size_pos
  have hhi := hplc.high
  induction rest generalizing before start with
  | nil =>
    rw [findWalk, fitGap_least hw hla hb hst hro le_rfl, if_pos hhi]
    intro c hmm
    rw [hsl, append_nil] at hmm
    exact .inl (hbf c hmm)
  | cons c0 rest ih =>
    have hc0 : c0 ∈ (s root).child := by simp [hsl]
    have hin := hc.inside c0 hc0
    have hv := hc.valid c0 hc0
    have hp0 := hp c0 mem_cons_self
    have hsr := hc.sorted
    rw [hsl, pairwise_append, pairwise_cons] at hsr
    have hdw : sub32 (s c0).start 1 = (s c0).start - 1 := sub32_of_le hp0 (by omega)
    have hg : ∀ c ∈ (s root).child, (s c).last < start ∨ (s c0).start - 1 < (s c).start := by
      intro c hmm
      rw [hsl, mem_append, mem_cons] at hmm
      rcases hmm with hmm | rfl | hmm
      · exact .inl (hbf c hmm)
      · omega
      have := hsr.2.1.1 c hmm
      omega
    rw [findWalk, hdw, fitGap_least hw hla hb hst hro (by omega) hg]
    by_cases hft : b + w.size ≤ (s c0).start - 1 + 1
    · rw [if_pos hft]
    have hbeh : (s c0).last < b := by
      have := hplc.apart c0 hc0
      omega
    have hnx : add32 (s c0).last 1 = (s c0).last + 1 := add32_of_lt (by omega)
    rw [if_neg hft, hnx]
    refine ih (before ++ [c0]) (by simp [hsl])
      (fun c hmm => hp c (mem_cons_of_mem _ hmm)) (by omega) ?_ (by omega)
    intro c hmm
    rcases mem_append.1 hmm with hmm | hmm
    · have := hsr.2.2 c hmm c0 mem_cons_self
      omega
    rw [mem_singleton.1 hmm]
    exact Nat.lt_succ_self _

theorem findResource_least : findResource s root w = some (b, b + w.size - 1) := by
  have hplc : Place s root w b := hb.1
  have hsz := hw.size_pos
  have hl := hplc.low
  have hhi := hplc.high
  unfold findResource
  cases hch : (s root).child with
  | nil => exact findWalk_least hw hc hla hb [] (by simp [hch]) (by simp) (le_refl _) (by simp) hl
  | cons c0 rest =>
    have hc0 : c0 ∈ (s root).child := by simp [hch]
    have hin := hc.inside c0 hc0
    have hst := hc.sorted
    rw [hch, pairwise_cons] at hst
    have htl (c : ℕ) (hm : c ∈ rest) : 0 < (s c).start := by
      have := hst.1 c hm
      omega
    by_cases hz : (s c0).start = 0
    · have hbeh : (s c0).last < b := by
        have := hplc.apart c0 hc0
        omega
      have hnx : add32 (s c0).last 1 = (s c0).last + 1 := add32_of_lt (by omega)
      simp only [hz, hnx]
      exact findWalk_least hw hc hla hb [c0] (by simp [hch]) htl (by omega) (by simp)
        (by omega)
    · simp only [hz]
      exact findWalk_least hw hc hla hb [] (by simp [hch])
        (forall_mem_cons.2 ⟨by omega, htl⟩) (le_refl _) (by simp) hl

end Walk

section Some

variable {s : Heap} {w : Wanted} {k a e : ℕ} (hw : w.Sane k)

include hw

theorem findWalk_some {rootLast start : ℕ} {l : List ℕ}
    (h : findWalk s w rootLast l start = some (a, e)) :
    w.align ∣ a ∧ w.min ≤ a ∧ e ≤ w.max ∧ (e < a ∨ e + 1 = a + w.size) := by
  induction l generalizing start with
  | nil => exact fitGap_some hw h
  | cons c rest ih =>
    rw [findWalk] at h
    cases hg : fitGap w start (sub32 (s c).start 1) with
    | none =>
      rw [hg] at h
      exact ih h
    | some r =>
      rw [hg] at h
      exact fitGap_some hw (hg.trans h)

/-- What the search proposes, even where it should not. -/
theorem findResource_some {root : ℕ} (h : findResource s root w = some (a, e)) :
    w.align ∣ a ∧ w.min ≤ a ∧ e ≤ w.max ∧ (e < a ∨ e + 1 = a + w.size) := by
  unfold findResource at h
  split at h
  · split_ifs at h
    · exact findWalk_some hw h
    · exact findWalk_some hw h
  · exact findWalk_some hw h

end Some

/-! ## The request -/

/-- The heap with a new resource below a root, in its place among the children. -/
def LinkedAt (s s' : Heap) (root new start last : ℕ) : Prop :=
  ∃ before after, (s root).child = before ++ after ∧
    (∀ c ∈ before, (s c).last < start) ∧ (∀ c ∈ after, last < (s c).start) ∧
    s' root = { s root with child := before ++ new :: after } ∧
    s' new = { s new with start := start, last := last, parent := some root } ∧
    ∀ x, x ≠ root → x ≠ new → s' x = s x

section Request

variable {s : Heap} {root new : ℕ}

/-- A request succeeds exactly if the range is one, inside the root and apart from its
children. -/
theorem requestResource_eq_none_iff (hc : Children s root) :
    (requestResource s root new).1 = none ↔ (s new).start ≤ (s new).last ∧
      (s root).start ≤ (s new).start ∧ (s new).last ≤ (s root).last ∧
      ∀ c ∈ (s root).child, (s c).last < (s new).start ∨ (s new).last < (s c).start := by
  unfold requestResource
  by_cases ho : (s new).last < (s new).start ∨ (s new).start < (s root).start ∨
      (s root).last < (s new).last
  · rw [if_pos ho]
    exact iff_of_false (by simp) (by omega)
  rw [if_neg ho]
  cases hwk : requestWalk s new (s root).child with
  | error c =>
    obtain ⟨before, after, hl, -, hlw, hhi⟩ := requestWalk_error hwk
    refine iff_of_false (by simp) ?_
    intro h
    have := h.2.2.2 c (by simp [hl])
    omega
  | ok l =>
    obtain ⟨before, after, hl, -, hb, ha⟩ := requestWalk_ok hwk
    have ha' := hc.after_of_head hl ha
    refine iff_of_true rfl ⟨by omega, by omega, by omega, ?_⟩
    intro c hm
    rw [hl, mem_append] at hm
    exact hm.imp (hb c) (ha' c)

theorem requestResource_linkedAt (hc : Children s root) (hne : new ≠ root)
    (h : (requestResource s root new).1 = none) :
    LinkedAt s (requestResource s root new).2 root new (s new).start (s new).last := by
  revert h
  unfold requestResource
  split
  · intro h
    cases h
  cases hwk : requestWalk s new (s root).child with
  | error c =>
    intro h
    cases h
  | ok l =>
    intro _
    obtain ⟨before, after, hl, hl', hb, ha⟩ := requestWalk_ok hwk
    refine ⟨before, after, hl, hb, hc.after_of_head hl ha, ?_, ?_, ?_⟩
    · simp [update_of_ne hne.symm, hl']
    · simp [update_of_ne hne]
    intro x hxr hxn
    simp [update_of_ne hxn, update_of_ne hxr]

theorem requestResourceErr_eq (s : Heap) (root new : ℕ) :
    ((requestResourceErr s root new).1 = 0 ↔ (requestResource s root new).1 = none) ∧
      (requestResourceErr s root new).2 = (requestResource s root new).2 := by
  unfold requestResourceErr
  rcases hr : requestResource s root new with ⟨conflict, s'⟩
  cases conflict <;> simp [ebusy]

/-- The heap with a range written into a resource. -/
def setRange (s : Heap) (new start last : ℕ) : Heap :=
  update s new { s new with start := start, last := last }

theorem setRange_of_ne {start last x : ℕ} (hx : x ≠ new) : setRange s new start last x = s x :=
  update_of_ne hx _ _

theorem setRange_self (s : Heap) (new start last : ℕ) :
    setRange s new start last new = { s new with start := start, last := last } := update_self _ _ _

/-- A request for a range below a root, by a resource that is not one of its children. -/
theorem requestResourceErr_setRange (hc : Children s root) (hne : new ≠ root)
    (hnw : new ∉ (s root).child) (start last : ℕ) :
    ((requestResourceErr (setRange s new start last) root new).1 = 0 ↔
      start ≤ last ∧ (s root).start ≤ start ∧ last ≤ (s root).last ∧
        ∀ c ∈ (s root).child, (s c).last < start ∨ last < (s c).start) ∧
    ((requestResourceErr (setRange s new start last) root new).1 = 0 →
      LinkedAt s (requestResourceErr (setRange s new start last) root new).2
        root new start last) := by
  have hro : setRange s new start last root = s root := setRange_of_ne hne.symm
  have hch (c : ℕ) (hm : c ∈ (s root).child) : setRange s new start last c = s c :=
    setRange_of_ne (fun heq => hnw (heq ▸ hm))
  have hn' := setRange_self s new start last
  have hc' : Children (setRange s new start last) root := hc.congr hro hch
  obtain ⟨hok, hhp⟩ := requestResourceErr_eq (setRange s new start last) root new
  rw [hok, hhp]
  refine ⟨?_, fun h => ?_⟩
  · rw [requestResource_eq_none_iff hc', hro, hn']
    refine and_congr_right fun _ => and_congr_right fun _ => and_congr_right fun _ => ?_
    exact forall₂_congr fun c hm => by rw [hch c hm]
  obtain ⟨before, after, hl, hb, ha, hr, hn, ho⟩ := requestResource_linkedAt hc' hne h
  rw [hro] at hl hr
  rw [hn'] at hb ha hn
  refine ⟨before, after, hl, ?_, ?_, hr, hn, ?_⟩
  · intro c hm
    have := hb c hm
    rwa [hch c (by simp [hl, hm])] at this
  · intro c hm
    have := ha c hm
    rwa [hch c (by simp [hl, hm])] at this
  · intro x hxr hxn
    rw [ho x hxr hxn, setRange_of_ne hxn]

end Request

/-! ## The allocation -/

theorem allocateResource_eq (s : Heap) (root new : ℕ) (w : Wanted) : allocateResource s root new w =
      match findResource s root w with
      | none => (ebusy, s)
      | some (start, last) => requestResourceErr (setRange s new start last) root new := rfl

/-- **The lowest fit.** `allocate_resource` succeeds exactly if the resource fits somewhere
below the root, and then links it at the lowest address where it does. -/
theorem allocateResource_lowest (s : Heap) (root new : ℕ) (w : Wanted) (k : ℕ) (hw : w.Sane k)
    (hc : Children s root) (hla : (s root).last < 2 ^ 32) (hne : new ≠ root)
    (hnew : new ∉ (s root).child) :
    ((allocateResource s root new w).1 = 0 ↔ ∃ b, Place s root w b) ∧
      ((allocateResource s root new w).1 = 0 → ∃ b, IsLeast {b | Place s root w b} b ∧
        LinkedAt s (allocateResource s root new w).2 root new b (b + w.size - 1)) := by
  have hsize := hw.size_pos
  have hsound (h : (allocateResource s root new w).1 = 0) : ∃ b, Place s root w b := by
    rw [allocateResource_eq] at h
    cases hfind : findResource s root w with
    | none => simp [hfind, ebusy] at h
    | some r =>
      simp only [hfind] at h
      obtain ⟨hdvd, hmin, hmax, hsz⟩ := findResource_some hw hfind
      obtain ⟨hvalid, hlow, hhigh, hapart⟩ :=
        (requestResourceErr_setRange hc hne hnew r.1 r.2).1.1 h
      refine ⟨r.1, hdvd, hlow, by omega, hmin, by omega, ?_⟩
      intro c hmem
      have := hapart c hmem
      omega
  have hcomplete (h : ∃ b, Place s root w b) : (allocateResource s root new w).1 = 0 ∧
      ∃ b, IsLeast {b | Place s root w b} b ∧
        LinkedAt s (allocateResource s root new w).2 root new b (b + w.size - 1) := by
    obtain ⟨b, hleast⟩ : ∃ b, IsLeast {b | Place s root w b} b := by
      classical
      exact ⟨Nat.find h, Nat.find_spec h, fun b hb => Nat.find_min' h hb⟩
    have hplace : Place s root w b := hleast.1
    have hhigh := hplace.high
    have hreq := requestResourceErr_setRange hc hne hnew b (b + w.size - 1)
    rw [allocateResource_eq, findResource_least hw hc hla hleast]
    have hok : (requestResourceErr (setRange s new b (b + w.size - 1)) root new).1 = 0 := by
      refine hreq.1.2 ⟨by omega, hplace.low, by omega, ?_⟩
      intro c hmem
      have := hplace.apart c hmem
      omega
    exact ⟨hok, b, hleast, hreq.2 hok⟩
  exact ⟨⟨hsound, fun h => (hcomplete h).1⟩, fun h => (hcomplete (hsound h)).2⟩

/-- A root with a child at each end of the address space. -/
def bothEnds : Heap := fun r =>
  if r = 0 then ⟨0, 0xffffffff, none, [1, 2]⟩
  else if r = 1 then ⟨0, 0xfff, some 0, []⟩
  else ⟨0xfffff000, 0xffffffff, some 0, []⟩

theorem children_bothEnds : Children bothEnds 0 := by
  refine ⟨?_, ?_, ?_, ?_⟩ <;> simp [bothEnds]

theorem allocateResource_lowest_bothEnds :
    ((allocateResource bothEnds 0 3 ⟨0x100, 0, 0xffffffff, 2 ^ 8⟩).1 = 0 ↔
      ∃ b, Place bothEnds 0 ⟨0x100, 0, 0xffffffff, 2 ^ 8⟩ b) ∧
    ((allocateResource bothEnds 0 3 ⟨0x100, 0, 0xffffffff, 2 ^ 8⟩).1 = 0 →
      ∃ b, IsLeast {b | Place bothEnds 0 ⟨0x100, 0, 0xffffffff, 2 ^ 8⟩ b} b ∧
        LinkedAt bothEnds (allocateResource bothEnds 0 3 ⟨0x100, 0, 0xffffffff, 2 ^ 8⟩).2 0 3 b
          (b + 0x100 - 1)) :=
  allocateResource_lowest bothEnds 0 3 ⟨0x100, 0, 0xffffffff, 2 ^ 8⟩ 8
    ⟨by decide, by decide, by decide, rfl, by decide⟩ children_bothEnds (by decide) (by decide)
    (by decide)

end NestLinux.ResourceTree
