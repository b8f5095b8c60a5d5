import NestLinux.Kernel.ResourceAlloc

/-!
# Reserving what is free of a range

`__reserve_region_with_split` requests a range below a root; where a child is in the way, it
goes on with what is left of the range before and behind that child. A range inside the
root is covered in the end. For a range that reaches outside, the resource in the way is the
root itself, and what is left of the range is outside as a whole: the next call is again
one on that range, and so on forever.
-/

namespace NestLinux.ResourceTree

open Lib Function

/-- An address lies in a child of the root. -/
def Covered (s : Heap) (root x : ℕ) : Prop :=
  ∃ c ∈ (s root).child, (s c).start ≤ x ∧ x ≤ (s c).last

/-- The children of the root are in order, and those it had are where they were. -/
structure Keeps (s s' : Heap) (root : ℕ) : Prop where
  children : Children s' root
  start : (s' root).start = (s root).start
  last : (s' root).last = (s root).last
  not_self : root ∉ (s' root).child
  old : ∀ c ∈ (s root).child, c ∈ (s' root).child ∧ s' c = s c

/-- The outcome of reserving a range: its part inside the root is covered. -/
def Reserves (s s' : Heap) (root start last : ℕ) : Prop :=
  Keeps s s' root ∧ ∀ x, start ≤ x → x ≤ last → (s root).start ≤ x → x ≤ (s root).last →
    Covered s' root x

/-- The allocator never gives memory of the root or of one of its children. -/
def FreshFor (kzalloc : Heap → ℕ) (root : ℕ) : Prop :=
  ∀ s, kzalloc s ≠ root ∧ kzalloc s ∉ (s root).child

section Keeps

variable {s s' s'' : Heap} {root x : ℕ}

theorem Keeps.trans (h : Keeps s s' root) (h' : Keeps s' s'' root) : Keeps s s'' root where
  children := h'.children
  start := h'.start.trans h.start
  last := h'.last.trans h.last
  not_self := h'.not_self
  old c hc := by
    have hold := h.old c hc
    have hold' := h'.old c hold.1
    exact ⟨hold'.1, hold'.2.trans hold.2⟩

theorem Covered.keeps (hx : Covered s root x) (h : Keeps s s' root) : Covered s' root x := by
  obtain ⟨c, hc, hrng⟩ := hx
  have hold := h.old c hc
  exact ⟨c, hold.1, by rwa [hold.2]⟩

theorem keeps_update (hc : Children s root) (hsl : root ∉ (s root).child) {new : ℕ}
    (hne : new ≠ root)
    (hn : new ∉ (s root).child) (v : Resource) : Keeps s (update s new v) root := by
  have hro : update s new v root = s root := update_of_ne hne.symm _ _
  have hch (c : ℕ) (hm : c ∈ (s root).child) : update s new v c = s c :=
    update_of_ne (fun heq : c = new => hn (heq ▸ hm)) _ _
  exact ⟨hc.congr hro hch, by rw [hro], by rw [hro], by rwa [hro],
    fun c hm => ⟨by rwa [hro], hch c hm⟩⟩

/-- A resource linked below the root keeps its children, and covers its range. -/
theorem requestResource_keeps (hc : Children s root) (hsl : root ∉ (s root).child) {new : ℕ}
    (hne : new ≠ root) (hn : new ∉ (s root).child) (hch : (s new).child = [])
    (h : requestResource s root new = (none, s')) :
    Keeps s s' root ∧ ∀ x, (s new).start ≤ x → x ≤ (s new).last → Covered s' root x := by
  obtain ⟨before, after, hl, hf⟩ := requestResource_none hc hne.symm hch h
  have hat := hl.at_parent
  have hm' (c : ℕ) : c ∈ (s' root).child ↔ c = new ∨ c ∈ (s root).child := by
    rw [hat, hl.split]
    simp only [List.nil_append, List.mem_append, List.mem_cons]
    exact or_left_comm
  refine ⟨⟨hl.children_parent hf hc hn, (hl.range root).1, (hl.range root).2, ?_, ?_⟩, ?_⟩
  · rw [hm']
    exact not_or.2 ⟨hne.symm, hsl⟩
  · intro c hm
    have hcr : c ≠ root := fun heq => hsl (heq ▸ hm)
    have hcn : c ≠ new := fun heq => hn (heq ▸ hm)
    exact ⟨(hm' c).2 (Or.inr hm), hl.other c hcr hcn List.not_mem_nil⟩
  intro x hlw hhi
  refine ⟨new, (hm' new).2 (Or.inl rfl), ?_⟩
  rw [(hl.range new).1, (hl.range new).2]
  exact ⟨hlw, hhi⟩

/-- The resource in the way of a range inside the root is a child that overlaps it. -/
theorem requestResource_overlaps {new c : ℕ} (hv : (s new).start ≤ (s new).last)
    (hin : (s root).start ≤ (s new).start ∧ (s new).last ≤ (s root).last)
    (h : requestResource s root new = (some c, s')) :
    c ∈ (s root).child ∧ (s new).start ≤ (s c).last ∧ (s c).start ≤ (s new).last := by
  rw [requestResource, if_neg (by omega)] at h
  cases hwk : requestWalk s new (s root).child with
  | ok l => simp [hwk] at h
  | error x =>
    simp only [hwk, Prod.mk.injEq, Option.some.injEq] at h
    obtain ⟨before, after, hl, -, hov⟩ := requestWalk_error hwk
    rw [← h.1]
    exact ⟨by simp [hl], hov⟩

end Keeps

/-! ## One call -/

/-- The heap with a new resource for a range, before it is requested. -/
def withNew (kzalloc : Heap → ℕ) (s : Heap) (start last : ℕ) : Heap :=
  update s (kzalloc s) ⟨start, last, none, []⟩

section Step

variable {kz : Heap → ℕ} {root fuel : ℕ} {s s' : Heap} {start last : ℕ}

theorem withNew_self : withNew kz s start last (kz s) = ⟨start, last, none, []⟩ :=
  update_self _ _ _

theorem reserveRegionWithSplit_none
    (h : requestResource (withNew kz s start last) root (kz s) = (none, s')) :
    reserveRegionWithSplit kz root (fuel + 1) s start last = some s' := by
  rw [withNew] at h
  rw [reserveRegionWithSplit, h]

/-- With a resource in the way, the calls are about the ranges before and behind it. -/
theorem reserveRegionWithSplit_some {c : ℕ}
    (h : requestResource (withNew kz s start last) root (kz s) = (some c, s')) :
    reserveRegionWithSplit kz root (fuel + 1) s start last =
      if (withNew kz s start last c).start ≤ start ∧
          last ≤ (withNew kz s start last c).last then some (withNew kz s start last) else
        (if start < (withNew kz s start last c).start then
          reserveRegionWithSplit kz root fuel (withNew kz s start last) start
            (sub32 (withNew kz s start last c).start 1)
        else some (withNew kz s start last)).bind fun s1 => if (s1 c).last < last then
            reserveRegionWithSplit kz root fuel s1 (add32 (s1 c).last 1) last else some s1 := by
  rw [withNew] at h ⊢
  rw [reserveRegionWithSplit, h]
  simp only
  split
  · rfl
  · split <;> simp_all

end Step

/-! ## The recursion -/

section Reserve

variable {kz : Heap → ℕ} {root : ℕ} {s : Heap} {start last : ℕ} (hfr : FreshFor kz root)

include hfr

theorem keeps_withNew (hc : Children s root) (hsl : root ∉ (s root).child) :
    Keeps s (withNew kz s start last) root :=
  keeps_update hc hsl (hfr s).1 (hfr s).2 _

theorem withNew_root : withNew kz s start last root = s root :=
  update_of_ne (hfr s).1.symm _ _

/-- **A range inside the root** is reserved: every call is about a shorter range. -/
theorem reserveRegionWithSplit_inside (s : Heap) (start last : ℕ) (hc : Children s root)
    (hsl : root ∉ (s root).child) (hlt : (s root).last < 2 ^ 32) (hv : start ≤ last)
    (hin : (s root).start ≤ start ∧ last ≤ (s root).last) {fuel : ℕ} (hfl : last - start < fuel) :
    ∃ s', reserveRegionWithSplit kz root fuel s start last = some s' ∧
      Reserves s s' root start last := by
  induction fuel generalizing s start last with
  | zero => omega
  | succ fuel ih =>
    have hkp : Keeps s (withNew kz s start last) root := keeps_withNew hfr hc hsl
    have hat : withNew kz s start last root = s root := withNew_root hfr
    have hn : withNew kz s start last (kz s) = ⟨start, last, none, []⟩ := withNew_self
    rcases hrq : requestResource (withNew kz s start last) root (kz s) with ⟨conflict, s1⟩
    cases conflict with
    | none =>
      have hlnk := requestResource_keeps hkp.children (by rwa [hat]) (hfr s).1
        (by rw [hat]; exact (hfr s).2) (by rw [hn]) hrq
      rw [hn] at hlnk
      exact ⟨s1, reserveRegionWithSplit_none hrq, hkp.trans hlnk.1,
        fun x hl hhi _ _ => hlnk.2 x hl hhi⟩
    | some c =>
      obtain ⟨hm, hl, hhi⟩ := requestResource_overlaps (by rwa [hn])
        (by rwa [hn, hat]) hrq
      rw [hat] at hm
      have hsm : withNew kz s start last c = s c := (hkp.old c hm).2
      simp only [hn, hsm] at hl hhi
      rw [reserveRegionWithSplit_some hrq, hsm]
      -- the child in the way covers its own range in every later heap
      have hcv {s' : Heap} (hk : Keeps s s' root) (x : ℕ) (hx : (s c).start ≤ x)
          (hx' : x ≤ (s c).last) : Covered s' root x :=
        Covered.keeps ⟨c, hm, hx, hx'⟩ hk
      by_cases hwh : (s c).start ≤ start ∧ last ≤ (s c).last
      · rw [if_pos hwh]
        exact ⟨_, rfl, hkp, fun x hx hx' _ _ => hcv hkp x (by omega) (by omega)⟩
      rw [if_neg hwh]
      obtain ⟨s2, hs2, hkp2, hc2⟩ : ∃ s2, (if start < (s c).start then
          reserveRegionWithSplit kz root fuel (withNew kz s start last) start
            (sub32 (s c).start 1) else some (withNew kz s start last)) = some s2 ∧
          Keeps s s2 root ∧ ∀ x, start ≤ x → x < (s c).start → Covered s2 root x := by
        by_cases hb : start < (s c).start
        · have hdw : sub32 (s c).start 1 = (s c).start - 1 :=
            sub32_of_le (by omega) (by omega)
          obtain ⟨s2, hs2, hkp2, hc2⟩ := ih (withNew kz s start last) start
            ((s c).start - 1) hkp.children (by rwa [hat]) (by rwa [hat]) (by omega)
            (by rw [hat]; omega) (by omega)
          rw [hat] at hc2
          rw [if_pos hb, hdw]
          exact ⟨s2, hs2, hkp.trans hkp2,
            fun x hx hx' => hc2 x hx (by omega) (by omega) (by omega)⟩
        · rw [if_neg hb]
          exact ⟨_, rfl, hkp, fun x hx hx' => by omega⟩
      have hsm2 : s2 c = s c := (hkp2.old c hm).2
      rw [hs2, Option.bind_some, hsm2]
      by_cases habv : (s c).last < last
      · have hup : add32 (s c).last 1 = (s c).last + 1 := add32_of_lt (by omega)
        have hst2 := hkp2.start
        have hla2 := hkp2.last
        obtain ⟨s3, hs3, hkp3, hc3⟩ := ih s2 ((s c).last + 1) last hkp2.children
          hkp2.not_self (by omega) (by omega) (by omega) (by omega)
        have hk3 := hkp2.trans hkp3
        rw [if_pos habv, hup]
        refine ⟨s3, hs3, hk3, fun x hx hx' hr hr' => ?_⟩
        by_cases hxl : x < (s c).start
        · exact (hc2 x hx hxl).keeps hkp3
        by_cases hxh : x ≤ (s c).last
        · exact hcv hk3 x (by omega) hxh
        · exact hc3 x (by omega) hx' (by omega) (by omega)
      · rw [if_neg habv]
        refine ⟨s2, rfl, hkp2, fun x hx hx' _ _ => ?_⟩
        by_cases hxl : x < (s c).start
        · exact hc2 x hx hxl
        · exact hcv hkp2 x (by omega) (by omega)

/-- **A range that reaches outside the root** is never done with. -/
theorem reserveRegionWithSplit_outside (hlt : last < 2 ^ 32) (hv : start ≤ last)
    (hrt : (s root).start ≤ (s root).last ∧ (s root).last < 2 ^ 32)
    (ho : start < (s root).start ∨ (s root).last < last) (fuel : ℕ) :
    reserveRegionWithSplit kz root fuel s start last = none := by
  induction fuel generalizing s start last with
  | zero => rfl
  | succ fuel ih =>
    have hat : withNew kz s start last root = s root := withNew_root hfr
    have hr : requestResource (withNew kz s start last) root (kz s) =
        (some root, withNew kz s start last) := by
      rw [requestResource, hat, withNew_self, if_pos (by simp only; omega)]
    rw [reserveRegionWithSplit_some hr, hat, if_neg (by omega)]
    by_cases hl : start < (s root).start
    · have hdw : sub32 (s root).start 1 = (s root).start - 1 := sub32_of_le (by omega) (by omega)
      rw [if_pos hl, ih (by omega) (by omega) (by rwa [hat]) (by rw [hat]; omega)]
      rfl
    have hup : add32 (s root).last 1 = (s root).last + 1 := add32_of_lt (by omega)
    rw [if_neg hl, Option.bind_some, hat, if_pos (by omega)]
    exact ih hlt (by omega) (by rwa [hat]) (by rw [hat]; omega)

end Reserve

/-- **Reserving a range.** The call comes to an end and covers what is free of the range
exactly if the range lies inside the root. -/
theorem reserveRegionWithSplit_reserves_iff (kzalloc : Heap → ℕ) (s : Heap) (root start last : ℕ)
    (hfr : FreshFor kzalloc root) (hc : Children s root) (hself : root ∉ (s root).child)
    (hroot : (s root).start ≤ (s root).last ∧ (s root).last < 2 ^ 32) (hvalid : start ≤ last)
    (hlt : last < 2 ^ 32) :
    (∃ N, ∀ fuel, N ≤ fuel → ∃ s', reserveRegionWithSplit kzalloc root fuel s start last = some s' ∧
      Reserves s s' root start last) ↔ (s root).start ≤ start ∧ last ≤ (s root).last := by
  constructor
  · intro ⟨N, hN⟩
    by_contra hout
    obtain ⟨s', hs', -⟩ := hN N (le_refl N)
    rw [reserveRegionWithSplit_outside hfr hlt hvalid hroot (by omega)] at hs'
    cases hs'
  · intro hin
    exact ⟨last - start + 1, fun fuel hfuel =>
      reserveRegionWithSplit_inside hfr s start last hc hself hroot.2 hvalid hin (by omega)⟩

/-- An allocator: an address above those of the children of resource 0. -/
def bumpAlloc (s : Heap) : ℕ := (s 0).child.foldr max 0 + 1

theorem freshFor_bumpAlloc : FreshFor bumpAlloc 0 := by
  have hle (l : List ℕ) (c : ℕ) (hc : c ∈ l) : c ≤ l.foldr max 0 := by
    induction l with
    | nil => cases hc
    | cons a l ih =>
      cases List.mem_cons.1 hc with
      | inl heq => exact heq ▸ le_max_left _ _
      | inr hm => exact le_trans (ih hm) (le_max_right _ _)
  intro s
  refine ⟨Nat.succ_ne_zero _, fun hm => ?_⟩
  have := hle _ _ hm
  rw [bumpAlloc] at this
  omega

/-- Two children, with room before, between and behind them. -/
def twoChildren : Heap := fun n =>
  if n = 0 then ⟨10, 20, none, [1, 2]⟩
  else if n = 1 then ⟨12, 13, some 0, []⟩ else ⟨16, 17, some 0, []⟩

theorem reserveRegionWithSplit_reserves_twoChildren :
    ∃ N, ∀ fuel, N ≤ fuel →
      ∃ s', reserveRegionWithSplit bumpAlloc 0 fuel twoChildren 11 18 = some s' ∧
        Reserves twoChildren s' 0 11 18 := by
  have hchildren : Children twoChildren 0 := by
    refine ⟨?_, ?_, ?_, ?_⟩ <;> simp [twoChildren]
  exact (reserveRegionWithSplit_reserves_iff bumpAlloc twoChildren 0 11 18 freshFor_bumpAlloc
    hchildren (by decide) (by decide) (by decide) (by decide)).2 (by decide)

def loneRoot : Heap := fun _ => ⟨10, 20, none, []⟩

/-- A range that starts below the root: no bound on the depth suffices. -/
theorem reserveRegionWithSplit_endless :
    (fun fuel => reserveRegionWithSplit bumpAlloc 0 fuel loneRoot 5 15) = fun _ => none :=
  funext (reserveRegionWithSplit_outside freshFor_bumpAlloc (by decide) (by decide)
    (by simp [loneRoot]) (by simp [loneRoot]))

end NestLinux.ResourceTree
