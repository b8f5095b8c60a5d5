import Mathlib.Algebra.Order.Ring.Nat
import Mathlib.Logic.Function.Basic
import Mathlib.Order.Bounds.Basic
import Mathlib.Data.List.Range
import Mathlib.Data.Nat.Find

/-!
# Boyer–Moore search

The model of `lib/ts_bm.c` without `TS_IGNORECASE`. A read outside the text or the pattern
is a fault, the value `none`. In one block the search finds the first occurrence. The place
where it stands at the end of a block is kept for the next one, where it is wrong.
-/

namespace NestLinux.TsBm

open Function List

/-- A byte of an array. -/
def byteAt (a : List UInt8) (k : ℤ) : Option UInt8 := if k < 0 then none else a[k.toNat]?

variable (pat text : List UInt8)

/-- The loop of `subpattern`. -/
def subpatternLoop (i j : ℤ) : ℕ → ℤ → ℤ → Option Bool
  | 0, _, _ => none
  | g + 1, x, y => do
    if (← byteAt pat x) ≠ (← byteAt pat y) then return false
    if y - 1 < 0 then return true
    if g = 0 then return (← byteAt pat (i - 1)) != (← byteAt pat (j - 1))
    subpatternLoop i j g (x - 1) (y - 1)

def subpattern (i j : ℤ) (g : ℕ) : Option Bool := subpatternLoop pat i j g (i + g - 1) (j + g - 1)

/-- The search for an entry of `good_shift`, for as many `j` as are left. -/
def goodShiftLoop (i : ℤ) (g : ℕ) : ℕ → ℤ → Option ℕ
  | 0, _ => some pat.length
  | k + 1, j => do
    if ← subpattern pat i j g then return (pat.length - j - g).toNat
    goodShiftLoop i g k (j - 1)

/-- The entry of `good_shift` after `g` equal letters; `j` goes from `i - 1` to `1 - g`. -/
def goodShift (g : ℕ) : Option ℕ :=
  let i : ℤ := pat.length - g
  if g = 0 then some 1 else goodShiftLoop pat i g (pat.length - 1) (i - 1)

/-- `bad_shift` after `n` turns of the loop. -/
def badTable (n : ℕ) : UInt8 → ℕ :=
  (range n).foldl (fun tbl i => update tbl (pat.getD i 0) (pat.length - 1 - i)) fun _ => pat.length

def badShift : UInt8 → ℕ := badTable pat (pat.length - 1)

/-- The comparison from the end, with `k` letters left: where the text differs, if it does. -/
def compareLoop (shift : ℕ) : ℕ → Option (Option ℕ)
  | 0 => some none
  | k + 1 => do
    let i := pat.length - 1 - k
    if (← byteAt text (shift - i)) ≠ (← pat[k]?) then return some i
    compareLoop shift k

/-- The search in a block: the place of an occurrence, or where the search stands. -/
def scan : ℕ → ℕ → Option (ℕ ⊕ ℕ)
  | 0, _ => none
  | fuel + 1, shift => do
    if shift < text.length then
      match ← compareLoop pat text shift pat.length with
      | none => return .inl (shift - (pat.length - 1))
      | some i =>
        let bs := badShift pat (← byteAt text (shift - i))
        scan fuel (max (shift - i + bs) (shift + (← goodShift pat i)))
    else return .inr shift

/-- `UINT_MAX`. -/
def uintMax : ℕ := 2 ^ 32 - 1

/-- `bm_find` from some bytes on, at some place. -/
def bmFindFrom : List (List UInt8) → ℕ → ℕ → Option ℕ
  | [], _, _ => some uintMax
  | text :: blocks, consumed, shift => do
    if text.length = 0 then return uintMax
    match ← scan pat text (text.length + 1) shift with
    | .inl p => return consumed + p
    | .inr shift => bmFindFrom blocks (consumed + text.length) shift

def bmFind (blocks : List (List UInt8)) : Option ℕ := bmFindFrom pat blocks 0 (pat.length - 1)

/-- The pattern occurs at a place of a text. -/
def OccursAt (p : ℕ) : Prop := ∀ k < pat.length, text[p + k]? = pat[k]?

/-- The pattern, moved on by `s`, agrees with itself from `i` on and differs before. -/
def Strong (i s : ℕ) : Prop :=
  (∀ x, i ≤ x → x < pat.length → s ≤ x → pat[x]? = pat[x - s]?) ∧
    (s < i → pat[i - 1]? ≠ pat[i - 1 - s]?)

variable {pat text} {i g s k n p q shift fuel consumed : ℕ} {c : UInt8} {blocks : List (List UInt8)}

theorem OccursAt.lt (h : OccursAt pat text q) (hpat : 1 ≤ pat.length) :
    q + (pat.length - 1) < text.length := by
  by_contra hge
  have := h (pat.length - 1) (by omega)
  rw [getElem?_eq_none (by omega), getElem?_eq_getElem (by omega)] at this
  cases this

/-! ## The tables -/

theorem byteAt_of_lt {a : List UInt8} {z : ℤ} (hz : z = k) (hk : k < a.length) :
    byteAt a z = some (a.get ⟨k, hk⟩) := by
  subst hz
  simp [byteAt, hk]

/-- The loop runs without a fault, and does not refuse a shift that is strong. -/
theorem subpatternLoop_spec (hi : 1 ≤ i) (hs : s ≤ i + g) (hg : i + g < pat.length) :
    ∃ b, subpatternLoop pat i (i - s) (g + 1) (i + g) (i + g - s) = some b ∧
      (Strong pat i s → b = true) := by
  induction g using Nat.strong_induction_on with | _ g ih => ?_
  have hx : byteAt pat (i + g) = some _ := byteAt_of_lt (k := i + g) (by omega) hg
  have hy : byteAt pat (i + g - s) = some _ := byteAt_of_lt (k := i + g - s) (by omega) (by omega)
  simp only [subpatternLoop, hx, hy, Option.bind_eq_bind, Option.bind_some]
  split
  · next hne =>
    refine ⟨false, rfl, fun h => absurd ?_ hne⟩
    simpa [hg, show i + g - s < pat.length by omega] using h.1 (i + g) (by omega) hg hs
  split
  · exact ⟨true, rfl, fun _ => rfl⟩
  cases g with
  | zero =>
    have hx : byteAt pat (i - 1) = some _ := byteAt_of_lt (k := i - 1) (by omega) (by omega)
    have hy : byteAt pat (i - s - 1) = some _ := byteAt_of_lt (k := i - 1 - s) (by omega) (by omega)
    refine ⟨_, by simp [hx, hy]; rfl, fun h => ?_⟩
    have := h.2 (by omega)
    simpa [show i - 1 < pat.length by omega, show i - 1 - s < pat.length by omega] using this
  | succ g =>
    obtain ⟨b, hb, hst⟩ := ih g (by omega) (by omega) (by omega)
    refine ⟨b, ?_, hst⟩
    rw [← hb, if_neg (Nat.succ_ne_zero g)]
    congr 1 <;> push_cast <;> omega

theorem goodShiftLoop_spec (hi : 1 ≤ i) (hg : i + (g + 1) = pat.length) (hs : 1 ≤ s)
    (hk : s + k = pat.length) : ∃ s1, goodShiftLoop pat i (g + 1) k (i - s) = some s1 ∧ s ≤ s1 ∧
      s1 ≤ pat.length ∧ ∀ s', s ≤ s' → s' < s1 → ¬Strong pat i s' := by
  induction k generalizing s with
  | zero => exact ⟨pat.length, rfl, by omega, le_rfl, fun s' _ _ => by omega⟩
  | succ k ih =>
    obtain ⟨b, hb, hst⟩ := subpatternLoop_spec hi (show s ≤ i + g by omega)
      (show i + g < pat.length by omega)
    have hsub : subpattern pat i (i - s) (g + 1) = some b := by
      rw [← hb, subpattern]
      congr 1 <;> push_cast <;> omega
    simp only [goodShiftLoop, hsub, Option.bind_eq_bind, Option.bind_some]
    cases b with
    | true => exact ⟨s, congrArg some (by omega), le_rfl, by omega, fun s' _ _ => by omega⟩
    | false =>
      obtain ⟨s1, hs₁, hle, hlen, hmin⟩ := ih (s := s + 1) (by omega) (by omega)
      refine ⟨s1, ?_, by omega, hlen, fun s' hs' hlt h => ?_⟩
      · rw [← hs₁, show (i - s - 1 : ℤ) = i - (s + 1 : ℕ) by omega]
        rfl
      rcases hs'.eq_or_lt with rfl | hs'
      · exact absurd (hst h) (by simp)
      · exact hmin s' hs' hlt h

theorem goodShift_spec (hg : g < pat.length) : ∃ s, goodShift pat g = some s ∧ 1 ≤ s ∧
    s ≤ pat.length ∧ ∀ s', 1 ≤ s' → s' < s → ¬Strong pat (pat.length - g) s' := by
  cases g with
  | zero => exact ⟨1, rfl, le_rfl, by omega, fun s' _ _ => by omega⟩
  | succ g =>
    have h := goodShiftLoop_spec (show 1 ≤ pat.length - (g + 1) by omega)
      (show _ + (g + 1) = pat.length by omega) le_rfl (show 1 + (pat.length - 1) = _ by omega)
    rwa [show ((pat.length - (g + 1) : ℕ) : ℤ) = pat.length - (g + 1 : ℕ) by omega] at h

theorem badTable_spec (hn : n ≤ pat.length - 1) : badTable pat n c ≤ pat.length ∧
    ∀ k < n, pat[k]? = some c → badTable pat n c ≤ pat.length - 1 - k := by
  induction n with
  | zero => simp [badTable]
  | succ n ih =>
    obtain ⟨hle, hls⟩ := ih (by omega)
    simp only [badTable, range_succ, foldl_append, foldl_cons, foldl_nil]
    by_cases hc : c = pat.getD n 0
    · subst hc
      rw [update_self]
      exact ⟨by omega, fun k hk _ => by omega⟩
    rw [update_of_ne hc]
    refine ⟨hle, fun k hk hpk => hls k ?_ hpk⟩
    by_contra hkn
    exact hc (by simp [show n = k by omega, hpk])

/-! ## The search in a block -/

/-- The comparison runs without a fault, and stops at the last letter that differs. -/
theorem compareLoop_spec (hp : p + pat.length ≤ text.length) (hk : k ≤ pat.length) :
    compareLoop pat text (p + (pat.length - 1)) k = some none ∧
        (∀ t < k, text[p + t]? = pat[t]?) ∨
      ∃ t < k, compareLoop pat text (p + (pat.length - 1)) k = some (some (pat.length - 1 - t)) ∧
        text[p + t]? ≠ pat[t]? ∧ ∀ x, t < x → x < k → text[p + x]? = pat[x]? := by
  induction k with
  | zero => exact .inl ⟨rfl, by simp⟩
  | succ k ih =>
    have ht : byteAt text ((p + (pat.length - 1) : ℕ) - (pat.length - 1 - k : ℕ)) = some _ :=
      byteAt_of_lt (k := p + k) (by omega) (by omega)
    have htp : text[p + k]? = some _ := getElem?_eq_getElem (by omega)
    have hpk : pat[k]? = some _ := getElem?_eq_getElem (by omega)
    simp only [compareLoop, ht, hpk, Option.bind_eq_bind, Option.bind_some]
    split
    · next hne =>
      exact .inr ⟨k, by omega, rfl, by simpa [htp, hpk] using hne, fun x _ _ => by omega⟩
    next heq =>
    have hlet : text[p + k]? = pat[k]? := by simpa [htp, hpk] using heq
    rcases ih (by omega) with ⟨hr, ha⟩ | ⟨t, htk, hr, hne, ha⟩
    · refine .inl ⟨hr, fun t ht => ?_⟩
      rcases Nat.lt_succ_iff_lt_or_eq.1 ht with ht | rfl
      · exact ha t ht
      · exact hlet
    · refine .inr ⟨t, by omega, hr, hne, fun x hx hxk => ?_⟩
      rcases Nat.lt_succ_iff_lt_or_eq.1 hxk with hxk | rfl
      · exact ha x hx hxk
      · exact hlet

/-- An occurrence behind a place where the text differs is a shift that neither rule passes. -/
theorem OccursAt.after (h : OccursAt pat text q) (hpq : p < q) (hk : k < pat.length)
    (hc : text[p + k]? = some c) (hne : text[p + k]? ≠ pat[k]?)
    (ha : ∀ x, k < x → x < pat.length → text[p + x]? = pat[x]?) :
    p + k + badShift pat c ≤ q + (pat.length - 1) ∧ Strong pat (k + 1) (q - p) := by
  have hq (x : ℕ) (hx : q ≤ p + x) (hxl : x < pat.length) : text[p + x]? = pat[x - (q - p)]? := by
    rw [← h (x - (q - p)) (by omega)]
    congr 1
    omega
  refine ⟨?_, fun x hx hxl hs => ?_, fun hs => ?_⟩
  · obtain ⟨hle, hls⟩ := badTable_spec (c := c) (le_refl (pat.length - 1))
    by_cases hqk : q ≤ p + k
    · have := hls (k - (q - p)) (by omega) (by rw [← hq k hqk hk, hc])
      rw [badShift]
      omega
    · rw [badShift]
      omega
  · rw [← ha x hx hxl, hq x (by omega) hxl]
  · rw [Nat.add_sub_cancel, ← hq k (by omega) hk]
    exact hne.symm

/-- What a search from a place on says of a block. -/
def Scanned (pat text : List UInt8) (p : ℕ) : ℕ ⊕ ℕ → Prop
  | .inl q => IsLeast {q | p ≤ q ∧ OccursAt pat text q} q
  | .inr shift => text.length ≤ shift ∧ p + (pat.length - 1) ≤ shift ∧
    shift ≤ max p text.length + (pat.length - 1) ∧ ∀ q, p ≤ q → ¬OccursAt pat text q

/-- **The search in a block** finds the first occurrence from its start on. -/
theorem scan_spec (hpat : 1 ≤ pat.length) (hfl : text.length ≤ p + (pat.length - 1) + fuel) :
    ∃ r, scan pat text (fuel + 1) (p + (pat.length - 1)) = some r ∧ Scanned pat text p r := by
  induction fuel using Nat.strong_induction_on generalizing p with | _ fuel ih => ?_
  rw [scan]
  by_cases he : text.length ≤ p + (pat.length - 1)
  · refine ⟨.inr _, if_neg he.not_gt, he, le_rfl, by omega, fun q hq h => ?_⟩
    have := h.lt hpat
    omega
  rw [if_pos (not_le.1 he)]
  rcases compareLoop_spec (show p + pat.length ≤ text.length by omega) le_rfl with
    ⟨hrun, ha⟩ | ⟨t, ht, hrun, hne, ha⟩
  · exact ⟨.inl p, by simp [hrun], ⟨le_rfl, ha⟩, fun q hq => hq.1⟩
  have hb : byteAt text ((p + (pat.length - 1) : ℕ) - (pat.length - 1 - t : ℕ)) = some _ :=
    byteAt_of_lt (k := p + t) (by omega) (by omega)
  obtain ⟨s, hs, hs1, hlen, hmin⟩ := goodShift_spec (show pat.length - 1 - t < pat.length by omega)
  have hc : text[p + t]? = some _ := getElem?_eq_getElem (show p + t < text.length by omega)
  obtain ⟨p', hp'⟩ := Nat.exists_eq_add_of_le' (show pat.length - 1 ≤ max (p + (pat.length - 1) -
    (pat.length - 1 - t) + badShift pat text[p + t]) (p + (pat.length - 1) + s) by omega)
  obtain ⟨r, hr, hsc⟩ := ih (fuel - 1) (by omega) (p := p') (by omega)
  rw [Nat.sub_add_cancel (by omega)] at hr
  -- no occurrence is passed
  have hsk (q : ℕ) (hq : p ≤ q) (h : OccursAt pat text q) : p' ≤ q := by
    have hpq : p < q := lt_of_le_of_ne hq fun heq => hne (heq ▸ h t ht)
    obtain ⟨hbd, hgood⟩ := h.after hpq ht hc hne ha
    have hle : s ≤ q - p := not_lt.1 fun hlt =>
      hmin _ (by omega) hlt (by rwa [show pat.length - (pat.length - 1 - t) = t + 1 by omega])
    omega
  refine ⟨r, ?_, ?_⟩
  · rw [← hr, ← hp']
    simp only [hrun, hb, hs, Option.bind_eq_bind, Option.bind_some]
    rfl
  cases r with
  | inl q =>
    have := hsc.1.1
    exact ⟨⟨by omega, hsc.1.2⟩, fun x hx => hsc.2 ⟨hsk x hx.1 hx.2, hx.2⟩⟩
  | inr shift =>
    obtain ⟨hend, hlow, hhigh, hno⟩ := hsc
    have hbad : badShift pat text[p + t] ≤ pat.length := (badTable_spec le_rfl).1
    exact ⟨hend, by omega, by omega, fun q hq h => hno q (hsk q hq h) h⟩

/-- **One block**: the result is the first occurrence, or `UINT_MAX` if there is none. -/
theorem bmFind_block (pat text : List UInt8) (hpat : 1 ≤ pat.length) :
    ∃ r, bmFind pat [text] = some r ∧ (IsLeast {p | OccursAt pat text p} r ∨
      (∀ p, ¬OccursAt pat text p) ∧ r = uintMax) := by
  obtain ⟨r, hr, hscan⟩ := scan_spec (p := 0) hpat (Nat.le_add_left text.length _)
  rw [Nat.zero_add] at hr
  by_cases hempty : text.length = 0
  · refine ⟨uintMax, by simp [bmFind, bmFindFrom, hempty], .inr ⟨fun p hp => ?_, rfl⟩⟩
    have := hp.lt hpat
    omega
  cases r with
  | inl p =>
    exact ⟨p, by simp [bmFind, bmFindFrom, hr, hempty], .inl (by simpa [Scanned] using hscan)⟩
  | inr shift =>
    exact ⟨uintMax, by simp [bmFind, bmFindFrom, hr, hempty],
      .inr ⟨fun p => hscan.2.2.2 p p.zero_le, rfl⟩⟩

theorem bmFind_block_aba : IsLeast {p | OccursAt [1, 2, 1] [1, 2, 2, 1, 2, 1] p} 3 := by
  obtain ⟨r, hr, hfirst⟩ := bmFind_block [1, 2, 1] [1, 2, 2, 1, 2, 1] (by decide)
  obtain rfl : 3 = r := Option.some.inj (Eq.trans (by decide +kernel) hr)
  exact hfirst.resolve_right fun h => absurd h.2 (by decide)

/-! ## Several blocks -/

/-- The result is the first occurrence in the first block that has one, or `UINT_MAX`. -/
def IsFirst (pat : List UInt8) : List (List UInt8) → ℕ → Option ℕ → Prop
  | [], _, res => res = some uintMax
  | text :: blocks, consumed, res =>
    (∃ q, IsLeast {q | OccursAt pat text q} q ∧ res = some (consumed + q)) ∨
      (∀ q, ¬OccursAt pat text q) ∧ IsFirst pat blocks (consumed + text.length) res

/-- In the first block with an occurrence the first one is not before the end of any block before
it, or before it by `slack` at most. -/
def InTime (pat : List UInt8) (slack : ℕ) : List (List UInt8) → ℕ → Prop
  | [], _ => True
  | text :: blocks, longest =>
    (∀ q, IsLeast {q | OccursAt pat text q} q → longest ≤ q + slack) ∧
      ((∀ q, ¬OccursAt pat text q) → InTime pat slack blocks (max longest text.length))

theorem bmFindFrom_ge {r : ℕ} (h : bmFindFrom pat blocks consumed shift = some r) :
    consumed ≤ r ∨ r = uintMax := by
  induction blocks generalizing consumed shift with
  | nil => exact .inr (Option.some.inj h).symm
  | cons text blocks ih =>
    rw [bmFindFrom] at h
    split at h
    · exact .inr (Option.some.inj h).symm
    cases hsc : scan pat text (text.length + 1) shift with
    | none => simp [hsc] at h
    | some x =>
      cases x with
      | inl p =>
        simp [hsc] at h
        omega
      | inr next =>
        simp only [hsc, Option.bind_eq_bind, Option.bind_some] at h
        exact (ih h).imp_left (by omega)

/-- The search keeps its place `p`, which is at most the longest block so far, and at least that
less the pattern. -/
theorem isFirst_inTime {longest : ℕ} (hpat : 1 ≤ pat.length) (hne : ∀ text ∈ blocks, text ≠ [])
    (hl : consumed + blocks.flatten.length ≤ uintMax) (hlow : longest ≤ p + (pat.length - 1))
    (hhigh : p ≤ longest) :
    let res := bmFindFrom pat blocks consumed (p + (pat.length - 1))
    (InTime pat 0 blocks longest → IsFirst pat blocks consumed res) ∧
      (IsFirst pat blocks consumed res → InTime pat (pat.length - 1) blocks longest) := by
  induction blocks generalizing consumed p longest with
  | nil => simp [IsFirst, InTime, bmFindFrom]
  | cons text blocks ih =>
    obtain ⟨r, hr, hsc⟩ := scan_spec (p := p) hpat (Nat.le_add_left text.length _)
    obtain ⟨htext, hne⟩ := forall_mem_cons.1 hne
    rw [flatten_cons, length_append] at hl
    dsimp only
    rw [bmFindFrom, if_neg (mt length_eq_zero_iff.1 htext), hr, IsFirst, InTime, InTime]
    by_cases hocc : ∃ q, OccursAt pat text q
    · obtain ⟨q, hq⟩ : ∃ q, IsLeast {q | OccursAt pat text q} q := by
        classical exact ⟨Nat.find hocc, Nat.find_spec hocc, fun x hx => Nat.find_min' hocc hx⟩
      have hlt := OccursAt.lt hq.1 hpat
      have hno : ¬∀ q, ¬OccursAt pat text q := fun h => h q hq.1
      have hun (x : ℕ) : IsLeast {q | OccursAt pat text q} x ↔ x = q :=
        ⟨fun h => h.unique hq, fun h => h ▸ hq⟩
      simp only [hun, hno, false_and, or_false, exists_eq_left, forall_eq, false_implies, and_true,
        Nat.add_zero]
      cases r with
      | inl x =>
        refine ⟨fun h => ?_, fun h => ?_⟩
        · have := hsc.2 ⟨hhigh.trans h, hq.1⟩
          have := hq.2 hsc.1.2
          exact congrArg some (by omega)
        · have : consumed + x = consumed + q := Option.some.inj h
          have := hsc.1.1
          omega
      | inr next =>
        refine ⟨fun h => absurd hq.1 (hsc.2.2.2 q (hhigh.trans h)), fun h => ?_⟩
        have := bmFindFrom_ge h
        omega
    · rw [not_exists] at hocc
      cases r with
      | inl x => exact absurd hsc.1.2 (hocc x)
      | inr next =>
        obtain ⟨hend, hstart, hnext, -⟩ := hsc
        obtain ⟨p', rfl⟩ := Nat.exists_eq_add_of_le' (show pat.length - 1 ≤ next by omega)
        have hfar : max longest text.length ≤ p' + (pat.length - 1) := by omega
        simpa [IsLeast, hocc] using ih hne
          (by omega : consumed + text.length + blocks.flatten.length ≤ uintMax) hfar (by omega)

/-- **Several blocks**: the first occurrence in a block is found if it is not before the end of any
block before it, because the search keeps its place from block to block. It is not found if it is
before that by the length of the pattern. -/
theorem bmFind_blocks (pat : List UInt8) (blocks : List (List UInt8)) (hpat : 1 ≤ pat.length)
    (hne : ∀ text ∈ blocks, text ≠ []) (hlen : blocks.flatten.length ≤ uintMax) :
    (InTime pat 0 blocks 0 → IsFirst pat blocks 0 (bmFind pat blocks)) ∧
      (IsFirst pat blocks 0 (bmFind pat blocks) → InTime pat (pat.length - 1) blocks 0) := by
  have h := isFirst_inTime (p := 0) hpat hne (by omega : 0 + blocks.flatten.length ≤ _)
    (Nat.zero_le _) le_rfl
  rwa [Nat.zero_add] at h

theorem bmFind_blocks_two : IsFirst [1, 2] [[3], [3, 1, 2]] 0 (bmFind [1, 2] [[3], [3, 1, 2]]) := by
  refine (bmFind_blocks [1, 2] [[3], [3, 1, 2]] (by decide) (by decide) (by decide)).1
    ⟨by simp, fun _ => ⟨fun q hq => Nat.pos_of_ne_zero ?_, fun _ => trivial⟩⟩
  rintro rfl
  exact absurd (hq.1 0 (by decide)) (by decide)

/-- The letter in the second block is passed. -/
theorem bmFind_not_isFirst : ¬IsFirst [1] [[2], [1]] 0 (bmFind [1] [[2], [1]]) := by
  have hres : bmFind [1] [[2], [1]] = some uintMax := by decide
  rintro (⟨q, hq, -⟩ | ⟨-, ⟨q, hq, h⟩ | ⟨h, -⟩⟩)
  · obtain rfl : q = 0 := by simpa using OccursAt.lt hq.1 le_rfl
    exact absurd (hq.1 0 (by decide)) (by decide)
  · have := OccursAt.lt hq.1 le_rfl
    have := Option.some.inj (hres.symm.trans h)
    simp [uintMax] at *
    omega
  · exact h 0 (by simp [OccursAt])

end NestLinux.TsBm
