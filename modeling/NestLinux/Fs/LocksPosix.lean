import NestLinux.Fs.Locks
import NestLinux.Lib.RangeMap
import Mathlib.Data.List.Nodup

/-!
# What a POSIX lock request does to the owner's locks

The locks of one owner are a list of ranges in order, apart from each other, and of one
type wherever they would touch: they stand for the type the owner holds at each byte. A
request overwrites that type on its range.
-/

namespace NestLinux.Locks

open Lib FileLock List

variable {o a : ℕ} {m r x : FileLock} {A B Q T W : List FileLock} {s : Scan} {b last : ℤ}
  {t : LockType} {f : FileLock → FileLock} {m' : FileLock} {right : Option ℕ} {M B' : List FileLock}
  {added : Bool} {res : ℤ × List FileLock × List Waiter}

/-- The owner of the locks holds the type `t` at the byte `b`. -/
abbrev TypeAt : List FileLock → ℤ → LockType → Prop :=
  HasAt flStart flEnd flType

theorem typeAt_cons {L : List FileLock} :
    TypeAt (x :: L) b t ↔ x.flStart ≤ b ∧ b ≤ x.flEnd ∧ x.flType = t ∨ TypeAt L b t := hasAt_cons

/-- The first lock ends before the second, and they are not of one type and adjacent. -/
abbrev LocksApart : FileLock → FileLock → Prop :=
  Apart flStart flEnd flType

structure ValidLock (x : FileLock) : Prop where
  start_nonneg : 0 ≤ x.flStart
  le : x.flStart ≤ x.flEnd
  end_le : x.flEnd ≤ offsetMax
  held : x.flType ≠ .unlck

structure OwnerLocks (o : ℕ) (W : List FileLock) : Prop where
  owner : ∀ x ∈ W, x.flOwner = o
  valid : ∀ x ∈ W, ValidLock x
  apart : W.Pairwise LocksApart

theorem ownerLocks_cons :
    OwnerLocks o (x :: W) ↔ x.flOwner = o ∧ ValidLock x ∧ (∀ y ∈ W, LocksApart x y) ∧
      OwnerLocks o W := by
  constructor
  · rintro ⟨hon, hvl, hap⟩
    rw [forall_mem_cons] at hon hvl
    rw [pairwise_cons] at hap
    exact ⟨hon.1, hvl.1, hap.1, hon.2, hvl.2, hap.2⟩
  · rintro ⟨hx, hv, ha, hon, hvl, hap⟩
    exact ⟨forall_mem_cons.2 ⟨hx, hon⟩, forall_mem_cons.2 ⟨hv, hvl⟩, pairwise_cons.2 ⟨ha, hap⟩⟩

/-! ### Writing to a lock -/

theorem setLock_append :
    setLock a f (A ++ B) = setLock a f A ++ setLock a f B := map_append

theorem setLock_of_not_mem (h : a ∉ A.map addr) : setLock a f A = A := by
  apply (map_congr_left fun x hx => if_neg ?_).trans (map_id A)
  rintro rfl
  exact h (mem_map_of_mem hx)

theorem setLock_cons_self (h : x.addr ∉ A.map addr) : setLock x.addr f (x :: A) = f x :: A := by
  have hA := setLock_of_not_mem (f := f) h
  rw [setLock] at hA ⊢
  rw [map_cons, if_pos rfl, hA]

theorem setLock_middle (hA : x.addr ∉ A.map addr)
    (hB : x.addr ∉ B.map addr) : setLock x.addr f (A ++ x :: B) = A ++ f x :: B := by
  rw [setLock_append, setLock_of_not_mem hA, setLock_cons_self hB]

theorem setLock_concat_self (h : x.addr ∉ A.map addr) :
    setLock x.addr f (A ++ [x]) = A ++ [f x] := by
  rw [setLock_append, setLock_of_not_mem h, setLock_cons_self (by simp)]

/-! ### Absorbing the locks behind -/

/-- The part of the list behind the request, with the lock that sticks out trimmed. -/
def trimRight (right : Option ℕ) (last : ℤ) (B : List FileLock) : List FileLock :=
  match right with
  | none => B
  | some a => setLock a ({ · with flStart := last + 1 }) B

/-- The lock `m` of the list has become `m'`, and the locks `B` behind it `T`. -/
structure Absorbed (m : FileLock) (B : List FileLock) (m' : FileLock) (T : List FileLock) :
    Prop where
  addr : m'.addr = m.addr
  owner : m'.flOwner = m.flOwner
  type : m'.flType = m.flType
  start : m'.flStart = m.flStart
  locks : OwnerLocks m.flOwner (m' :: T)
  bytes : ∀ b t, TypeAt (m' :: T) b t ↔
    if m.flStart ≤ b ∧ b ≤ m.flEnd then t = m.flType else TypeAt B b t
  addrs : (T.map FileLock.addr).Sublist (B.map FileLock.addr)

/-- The pass ends at a lock of another owner. -/
theorem processOwner_stop (hQ : ∀ x ∈ Q, x.flOwner ≠ s.request.flOwner) :
    processOwner Q s = (s, Q) := by
  cases Q with
  | nil => rfl
  | cons x Q =>
    have hx : posixSameOwner s.request x = false :=
      beq_eq_false_iff_ne.2 (hQ x (by simp)).symm
    rw [processOwner, hx]
    rfl

/-! ### One lock of the pass -/

section Step

variable {L : List FileLock} (hon : x.flOwner = r.flOwner) (hreq : s.request = r)

include hon hreq

theorem processOwner_cons : processOwner (x :: L) s = if r.flType = x.flType then
        if x.flEnd < r.flStart - 1 then processOwner L (s.pass x)
        else if r.flEnd < x.flStart - 1 then (s, x :: L) else
          let x' := x.widen r.flStart r.flEnd
          let s := s.setRequest fun r => r.widen x.flStart x.flEnd
          if s.added then
            processOwner L { s with blockedList := locksWakeUpBlocks s.blockedList x.addr }
          else processOwner L { s.pass x' with request := x', added := true }
      else if x.flEnd < r.flStart then processOwner L (s.pass x)
      else if r.flEnd < x.flStart then (s, x :: L)
      else
        let s : Scan :=
          { s with
            added := if r.flType = .unlck then true else s.added
            left := if x.flStart < r.flStart then some x.addr else s.left }
        if r.flEnd < x.flEnd then ({ s with right := some x.addr }, x :: L)
        else if r.flStart ≤ x.flStart then
          let s := { s with blockedList := locksWakeUpBlocks s.blockedList x.addr }
          if s.added then processOwner L s
          else
            let x' := { r with addr := x.addr, flOwner := x.flOwner }
            processOwner L { s.pass x' with request := x', added := true }
        else processOwner L (s.pass x) := by
  subst hreq
  have hsm : posixSameOwner s.request x = true := beq_iff_eq.2 hon.symm
  rw [processOwner, hsm]
  rfl

/-- A lock before the request, and not to be merged with it. -/
theorem processOwner_skip (hlt : x.flEnd < r.flStart)
    (hg : r.flType = x.flType → x.flEnd < r.flStart - 1) :
    processOwner (x :: L) s = processOwner L (s.pass x) := by
  rw [processOwner_cons hon hreq]
  by_cases hty : r.flType = x.flType
  · rw [if_pos hty, if_pos (hg hty)]
  · rw [if_neg hty, if_pos hlt]

/-- A lock behind the request, and not to be merged with it. -/
theorem processOwner_break (hle : r.flStart ≤ x.flEnd) (hlt : r.flEnd < x.flStart)
    (hg : r.flType = x.flType → r.flEnd < x.flStart - 1) :
    processOwner (x :: L) s = (s, x :: L) := by
  rw [processOwner_cons hon hreq]
  by_cases hty : r.flType = x.flType
  · rw [if_pos hty, if_neg (by omega), if_pos (hg hty)]
  · rw [if_neg hty, if_neg (by omega), if_pos hlt]

section

variable (hty : r.flType = x.flType) (hle : r.flStart - 1 ≤ x.flEnd)
  (hle' : x.flStart - 1 ≤ r.flEnd)

include hty hle hle'

/-- A lock of the same type becomes the request. -/
theorem processOwner_merge (ha : s.added = false) : processOwner (x :: L) s = processOwner L
        { (s.setRequest fun r => r.widen x.flStart x.flEnd).pass
            (x.widen r.flStart r.flEnd) with
          request := x.widen r.flStart r.flEnd, added := true } := by
  rw [processOwner_cons hon hreq, if_pos hty, if_neg (by omega), if_neg (by omega)]
  dsimp only [Scan.setRequest]
  rw [ha]
  rfl

/-- A lock of the same type is merged into the one before. -/
theorem processOwner_merge_added (ha : s.added = true) : processOwner (x :: L) s =
      processOwner L { s.setRequest fun r => r.widen x.flStart x.flEnd with
          blockedList := locksWakeUpBlocks s.blockedList x.addr } := by
  rw [processOwner_cons hon hreq, if_pos hty, if_neg (by omega), if_neg (by omega)]
  dsimp only [Scan.setRequest]
  rw [if_pos ha]

end

variable (hty : r.flType ≠ x.flType) (hle : r.flStart ≤ x.flEnd)
  (hle' : x.flStart ≤ r.flEnd)

include hty hle hle'

/-- A lock of another type sticks out behind the request. -/
theorem processOwner_right (he : r.flEnd < x.flEnd) : processOwner (x :: L) s = ({ s with
          added := if r.flType = .unlck then true else s.added
          left := if x.flStart < r.flStart then some x.addr else s.left
          right := some x.addr }, x :: L) := by
  rw [processOwner_cons hon hreq, if_neg hty, if_neg (by omega), if_neg (by omega)]
  rw [if_pos he]

/-- A lock of another type sticks out before the request. -/
theorem processOwner_left (hst : x.flStart < r.flStart)
    (he : x.flEnd ≤ r.flEnd) : processOwner (x :: L) s = processOwner L ({ s with
            added := if r.flType = LockType.unlck then true else s.added
            left := some x.addr }.pass x) := by
  rw [processOwner_cons hon hreq, if_neg hty, if_neg (by omega), if_neg (by omega)]
  rw [if_neg (by omega), if_neg (by omega), if_pos hst]

/-- A covered lock of another type is deleted. -/
theorem processOwner_cover (hst : r.flStart ≤ x.flStart)
    (he : x.flEnd ≤ r.flEnd)
    (ha : (if r.flType = .unlck then true else s.added) = true) :
    processOwner (x :: L) s = processOwner L
        { s with added := true, blockedList := locksWakeUpBlocks s.blockedList x.addr } := by
  rw [processOwner_cons hon hreq, if_neg hty, if_neg (by omega), if_neg (by omega)]
  rw [if_neg (by omega), if_pos hst, ha, if_neg (by omega : ¬ x.flStart < r.flStart)]
  rfl

/-- The first covered lock of another type becomes the request. -/
theorem processOwner_replace (hst : r.flStart ≤ x.flStart)
    (he : x.flEnd ≤ r.flEnd) (hhl : r.flType ≠ .unlck)
    (ha : s.added = false) : processOwner (x :: L) s = processOwner L
        { s.pass { r with addr := x.addr, flOwner := x.flOwner } with
          request := { r with addr := x.addr, flOwner := x.flOwner }
          added := true
          blockedList := locksWakeUpBlocks s.blockedList x.addr } := by
  rw [processOwner_cons hon hreq, if_neg hty, if_neg (by omega), if_neg (by omega)]
  rw [if_neg (by omega), if_pos hst, if_neg hhl, ha,
    if_neg (by omega : ¬ x.flStart < r.flStart)]
  rfl

end Step

theorem absorbed_self (hm : ValidLock m) (hB : OwnerLocks m.flOwner B)
    (hap : ∀ x ∈ B, LocksApart m x) : Absorbed m B m B where
  addr := rfl
  owner := rfl
  type := rfl
  start := rfl
  locks := ownerLocks_cons.2 ⟨rfl, hm, hap, hB⟩
  bytes b t := by
    rw [typeAt_cons]
    split_ifs with hb
    · have hn : ¬ TypeAt B b t := not_hasAt_of_lt fun x hx => by
        have := (hap x hx).1
        omega
      simp only [hn, or_false]
      exact ⟨fun h => h.2.2.symm, fun h => ⟨hb.1, hb.2, h.symm⟩⟩
    · simp only [or_iff_right_iff_imp]
      exact fun h => absurd ⟨h.1, h.2.1⟩ hb
  addrs := List.Sublist.refl _

theorem FileLock.widen_flStart (m : FileLock) (start last : ℤ) :
    (m.widen start last).flStart = min start m.flStart := by
  simp only [widen]
  omega

theorem FileLock.widen_flEnd (m : FileLock) (start last : ℤ) :
    (m.widen start last).flEnd = max last m.flEnd := by
  simp only [widen]
  omega

theorem ValidLock.widen (hm : ValidLock m) (hx : ValidLock x) :
    ValidLock (m.widen x.flStart x.flEnd) := by
  have hmle := hm.le
  constructor
  · rw [widen_flStart]
    exact le_min hx.start_nonneg hm.start_nonneg
  · rw [widen_flStart, widen_flEnd]
    omega
  · rw [widen_flEnd]
    exact max_le hx.end_le hm.end_le
  · exact hm.held

/-- The bytes of a lock are held by no lock behind it. -/
theorem OwnerLocks.not_typeAt (h : OwnerLocks o (x :: B)) (hb : b ≤ x.flEnd) : ¬ TypeAt B b t := by
  rw [ownerLocks_cons] at h
  refine not_hasAt_of_lt fun y hy => ?_
  have := (h.2.2.1 y hy).1
  omega

/-- A range and a lock of its type that overlaps or touches it. -/
theorem typeAt_merge (hx : OwnerLocks o (x :: B)) (hty : x.flType = m.flType)
    (hle : x.flStart ≤ m.flEnd + 1) (hle' : m.flStart ≤ x.flEnd + 1) (b : ℤ) (t : LockType) :
    (if min x.flStart m.flStart ≤ b ∧ b ≤ max x.flEnd m.flEnd then t = m.flType else TypeAt B b t) ↔
    if m.flStart ≤ b ∧ b ≤ m.flEnd then t = m.flType else TypeAt (x :: B) b t := by
  rw [typeAt_cons, hty]
  by_cases hm : m.flStart ≤ b ∧ b ≤ m.flEnd
  · rw [if_pos hm, if_pos (by omega)]
  rw [if_neg hm]
  by_cases hb : x.flStart ≤ b ∧ b ≤ x.flEnd
  · rw [if_pos (by omega)]
    simp only [hb, hx.not_typeAt hb.2, true_and, or_false]
    exact eq_comm
  · rw [if_neg (by omega)]
    exact (or_iff_right fun h => hb ⟨h.1, h.2.1⟩).symm

theorem Absorbed.merge (hx : OwnerLocks o (x :: B))
    (hty : x.flType = m.flType) (hlt : m.flStart < x.flStart) (hle : x.flStart ≤ m.flEnd + 1)
    (h : Absorbed (m.widen x.flStart x.flEnd) B m' T) : Absorbed m (x :: B) m' T := by
  have hxle := (hx.valid x (by simp)).le
  have hst : (m.widen x.flStart x.flEnd).flStart = m.flStart := if_neg (by omega)
  refine ⟨h.addr, h.owner, h.type, h.start.trans hst, h.locks, fun b t => ?_, ?_⟩
  · rw [h.bytes, FileLock.widen_flStart, FileLock.widen_flEnd]
    exact typeAt_merge hx hty hle (by omega) b t
  · exact h.addrs.cons _

theorem Absorbed.cover (hlt : m.flStart ≤ x.flStart) (hle : x.flEnd ≤ m.flEnd)
    (h : Absorbed m B m' T) : Absorbed m (x :: B) m' T := by
  refine ⟨h.addr, h.owner, h.type, h.start, h.locks, fun b t => ?_, ?_⟩
  · rw [h.bytes, typeAt_cons]
    by_cases hm : m.flStart ≤ b ∧ b ≤ m.flEnd
    · rw [if_pos hm, if_pos hm]
    rw [if_neg hm, if_neg hm]
    exact (or_iff_right fun h => hm ⟨hlt.trans h.1, h.2.1.trans hle⟩).symm
  · exact h.addrs.cons _

/-- A lock of another type that sticks out is trimmed. -/
theorem absorbed_trim (hm : ValidLock m) (hB : OwnerLocks m.flOwner (x :: B))
    (hty : m.flType ≠ x.flType) (hle : x.flStart ≤ m.flEnd) (hlt : m.flStart ≤ x.flStart)
    (he : m.flEnd < x.flEnd) :
    Absorbed m (x :: B) m ({ x with flStart := m.flEnd + 1 } :: B) := by
  have hB' := ownerLocks_cons.1 hB
  have hv := hB'.2.1
  have hnn := hm.start_nonneg
  have hlck : OwnerLocks m.flOwner ({ x with flStart := m.flEnd + 1 } :: B) :=
    ownerLocks_cons.2
      ⟨hB'.1, ⟨by dsimp only; omega, by dsimp only; omega, hv.end_le, hv.held⟩, hB'.2.2⟩
  have hap : ∀ y ∈ { x with flStart := m.flEnd + 1 } :: B, LocksApart m y := by
    rw [forall_mem_cons]
    refine ⟨⟨by dsimp only; omega, fun h => absurd h hty⟩, fun y hy => ?_⟩
    have := (hB'.2.2.1 y hy).1
    exact ⟨by omega, fun _ => by omega⟩
  have hsl := absorbed_self hm hlck hap
  refine ⟨rfl, rfl, rfl, rfl, hsl.locks, fun b t => ?_, List.Sublist.refl _⟩
  rw [hsl.bytes, typeAt_cons, typeAt_cons]
  by_cases hb : m.flStart ≤ b ∧ b ≤ m.flEnd
  · rw [if_pos hb, if_pos hb]
  rw [if_neg hb, if_neg hb]
  dsimp only
  refine or_congr_left (and_congr_left fun h => ?_)
  omega

/-- The locks behind a gap, which is larger before a lock of the same type. -/
theorem OwnerLocks.apart_of_gap (hB : OwnerLocks o (x :: B))
    (hg : m.flEnd < x.flStart ∧ (m.flType = x.flType → m.flEnd < x.flStart - 1)) :
    ∀ y ∈ x :: B, LocksApart m y := by
  have hB' := ownerLocks_cons.1 hB
  have hx := hB'.2.1.le
  rw [forall_mem_cons]
  refine ⟨⟨hg.1, fun h => ?_⟩, fun y hy => ?_⟩
  · have := hg.2 h
    omega
  have := (hB'.2.2.1 y hy).1
  exact ⟨by omega, fun _ => by omega⟩

/-- **Absorbing**: once the request is a lock of the list, the locks behind it are merged, deleted
and trimmed. -/
theorem processOwner_absorb (left : Option ℕ) (blocked : List Waiter) (hA : m.addr ∉ A.map addr)
    (hm : ValidLock m) (hB : OwnerLocks m.flOwner B) (hlt : ∀ x ∈ B, m.flStart < x.flStart)
    (hnd : (B.map addr).Nodup) (hQ : ∀ x ∈ Q, x.flOwner ≠ m.flOwner) :
    ∃ m' B' right blocked', processOwner (B ++ Q) ⟨A ++ [m], m, true, left, none, blocked⟩ =
        (⟨A ++ [m'], m', true, left, right, blocked'⟩, B' ++ Q) ∧
      (∀ a, right = some a → a ∈ B'.map addr) ∧ Absorbed m B m' (trimRight right m'.flEnd B') := by
  induction B generalizing m blocked with
  | nil =>
    rw [processOwner_stop hQ]
    exact ⟨m, [], none, blocked, rfl, by simp, absorbed_self hm hB (by simp)⟩
  | cons x B ih =>
    have hB' := ownerLocks_cons.1 hB
    have hx := hB'.2.1.le
    have hltx := hlt x (by simp)
    have hltB : ∀ y ∈ B, x.flEnd < y.flStart := fun y hy => (hB'.2.2.1 y hy).1
    rw [map_cons, nodup_cons] at hnd
    rw [cons_append]
    by_cases hg : m.flEnd < x.flStart ∧ (m.flType = x.flType → m.flEnd < x.flStart - 1)
    · rw [processOwner_break hB'.1 rfl (by omega) hg.1 hg.2]
      exact ⟨m, x :: B, none, blocked, rfl, by simp, absorbed_self hm hB (hB.apart_of_gap hg)⟩
    by_cases hty : m.flType = x.flType
    · have hcls : x.flStart - 1 ≤ m.flEnd := by omega
      rw [processOwner_merge_added hB'.1 rfl hty (by omega) hcls rfl]
      obtain ⟨m', B1, right, blocked', hr, hmm, habs⟩ :=
        ih (m := m.widen x.flStart x.flEnd) _ hA
          (hm.widen hB'.2.1) hB'.2.2.2 (fun y hy => by
            rw [widen_flStart]
            have := hltB y hy
            omega) hnd.2 hQ
      refine ⟨m', B1, right, blocked', ?_, hmm, habs.merge hB hty.symm hltx (by omega)⟩
      rw [← hr, Scan.setRequest]
      rw [setLock_concat_self hA]
    have hcls : x.flStart ≤ m.flEnd := by
      by_contra hc
      exact hg ⟨by omega, fun h => absurd h hty⟩
    by_cases he : m.flEnd < x.flEnd
    · rw [processOwner_right hB'.1 rfl hty (by omega) hcls he]
      refine ⟨m, x :: B, some x.addr, blocked, ?_, by simp, ?_⟩
      · rw [if_neg hm.held, if_neg (by omega)]
        rfl
      · rw [trimRight, setLock_cons_self hnd.1]
        exact absorbed_trim hm hB hty hcls hltx.le he
    · rw [processOwner_cover hB'.1 rfl hty (by omega) hcls hltx.le (not_lt.1 he)
        (if_neg hm.held)]
      obtain ⟨m', B1, right, blocked', hr, hmm, habs⟩ :=
        ih (m := m) _ hA hm hB'.2.2.2
          (fun y hy => hlt y (by simp [hy])) hnd.2 hQ
      exact ⟨m', B1, right, blocked', hr, hmm, habs.cover hltx.le (not_lt.1 he)⟩

/-! ### Trimming -/

/-- The part of the list before the request, with the lock that sticks out trimmed. -/
def trimEnd (left : Option ℕ) (last : ℤ) (A : List FileLock) : List FileLock :=
  match left with
  | none => A
  | some a => setLock a ({ · with flEnd := last }) A

theorem setLock_append_left (hB : a ∉ B.map addr) : setLock a f (A ++ B) = setLock a f A ++ B := by
  rw [setLock_append, setLock_of_not_mem hB]

theorem setLock_append_right (hA : a ∉ A.map addr) : setLock a f (A ++ B) = A ++ setLock a f B := by
  rw [setLock_append, setLock_of_not_mem hA]

theorem map_addr_setLock (hf : ∀ x, (f x).addr = x.addr)
    : (setLock a f A).map addr = A.map addr := by
  rw [setLock, map_map]
  apply map_congr_left
  intro x _
  dsimp only [Function.comp]
  split_ifs
  · exact hf x
  · rfl

theorem trimLeft_eq (request : FileLock) :
    (trimLeft left request L blocked).1 = trimEnd left (request.flStart - 1) L := by
  cases left <;> rfl

theorem trimEnd_append {left : Option ℕ} (h : ∀ a, left = some a → a ∉ B.map addr) :
    trimEnd left last (A ++ B) = trimEnd left last A ++ B := by
  cases left with
  | none => rfl
  | some a => exact setLock_append_left (h a rfl)

theorem map_addr_trimRight :
    (trimRight right last B).map addr = B.map addr := by
  cases right with
  | none => rfl
  | some a =>
    rw [trimRight, map_addr_setLock]
    exact fun _ => rfl

theorem trimRight_append (hA : ∀ a, right = some a → a ∉ A.map addr)
    (hQ : ∀ a, right = some a → a ∉ Q.map addr) :
    trimRight right last (A ++ B ++ Q) = A ++ trimRight right last B ++ Q := by
  cases right with
  | none => rfl
  | some a =>
    rw [trimRight, setLock_append_left (hQ a rfl), setLock_append_right (hA a rfl)]
    rfl

/-- The locks that stick out are trimmed where they stand. -/
theorem posixTrim_eq (n1 n2 : ℕ) (rest : List FileLock)
    (hsl : s.right.isSome → s.left ≠ s.right)
    (hli : s.passed ++ (if s.added then rest else { s.request with addr := n1 } :: rest) =
      A ++ M ++ B ++ Q)
    (hlf : ∀ a, s.left = some a → a ∈ A.map addr)
    (hrt : ∀ a, s.right = some a → a ∈ B.map addr)
    (hnd : ((A ++ M ++ B ++ Q).map addr).Nodup) :
    (posixTrim n1 n2 s rest).1 =
      trimEnd s.left (s.request.flStart - 1) A ++ M ++
        trimRight s.right s.request.flEnd B ++ Q := by
  have hL : (posixTrim n1 n2 s rest).1 = trimEnd s.left (s.request.flStart - 1)
      (trimRight s.right s.request.flEnd (A ++ M ++ B ++ Q)) := by
    rw [posixTrim, ← hli]
    cases hr : s.right with
    | none => exact trimLeft_eq ..
    | some a =>
      have hne : s.left ≠ some a := hr ▸ hsl (by rw [hr]; rfl)
      rw [trimLeft_eq, if_neg hne, if_neg hne]
      rfl
  have hBQ : ∀ a ∈ (A ++ M ++ B).map addr, a ∉ Q.map addr := by
    rw [map_append] at hnd
    exact fun _ ha hb => disjoint_of_nodup_append hnd ha hb
  have hAMB : ∀ a ∈ (A ++ M).map addr, a ∉ B.map addr := by
    rw [append_assoc (A ++ M), map_append] at hnd
    intro a ha hb
    exact disjoint_of_nodup_append hnd ha (by simp only [map_append]; simp [hb])
  have hA : ∀ a ∈ A.map addr, a ∉ (M ++ (B ++ Q)).map addr := by
    rw [append_assoc (A ++ M), append_assoc, map_append] at hnd
    exact fun _ ha hb => disjoint_of_nodup_append hnd ha hb
  have hR : ∀ a, s.right = some a → a ∉ (A ++ M).map addr :=
    fun a ha hm => hAMB a hm (hrt a ha)
  have hRQ : ∀ a, s.right = some a → a ∉ Q.map addr := by
    intro a ha
    apply hBQ
    rw [map_append]
    exact mem_append_right _ (hrt a ha)
  rw [hL, trimRight_append hR hRQ, append_assoc A, append_assoc A, trimEnd_append]
  · simp
  intro a ha hm
  apply hA a (hlf a ha)
  simpa [map_addr_trimRight] using hm

/-! ### Granting a request -/

/-- The locks `T` have the request's type on its range, and that of `W` elsewhere. -/
structure Overwritten (newFl newFl2 : Option ℕ) (r : FileLock) (W T : List FileLock) : Prop where
  locks : OwnerLocks r.flOwner T
  bytes : ∀ b t, TypeAt T b t ↔
    if r.flStart ≤ b ∧ b ≤ r.flEnd then t = r.flType ∧ t ≠ .unlck else TypeAt W b t
  nodup : (T.map addr).Nodup
  addrs : ∀ a ∈ T.map addr, a ∈ W.map addr ∨ newFl = some a ∨ newFl2 = some a

variable {new new2 left : Option ℕ} {blocked : List Waiter}

/-- A request that has become a lock of the list. -/
theorem Absorbed.overwritten (h : Absorbed m W m' T) (hst : m.flStart = r.flStart)
    (he : m.flEnd = r.flEnd) (hty : m.flType = r.flType) (hon : m.flOwner = r.flOwner)
    (hr : r.flType ≠ .unlck) (hnd : (W.map FileLock.addr).Nodup)
    (had : m.addr ∉ T.map FileLock.addr) (hn : m.addr ∈ W.map FileLock.addr ∨ new = some m.addr) :
    Overwritten new new2 r W (m' :: T) where
  locks := hon ▸ h.locks
  bytes b t := by
    rw [h.bytes, hst, he, hty]
    split_ifs with hb
    · exact ⟨fun ht => ⟨ht, ht ▸ hr⟩, fun ht => ht.1⟩
    · rfl
  nodup := by
    rw [map_cons, h.addr]
    exact nodup_cons.2 ⟨had, hnd.sublist h.addrs⟩
  addrs a ha := by
    rw [map_cons, h.addr] at ha
    rcases mem_cons.1 ha with rfl | ha
    · exact hn.imp_right .inl
    · exact .inl (h.addrs.subset ha)

/-- A request merged with the first lock, which is of its type. -/
theorem Absorbed.overwritten_merge (hr : ValidLock r)
    (h : Absorbed (x.widen r.flStart r.flEnd) B m' T) (hx : OwnerLocks r.flOwner (x :: B))
    (hty : x.flType = r.flType) (hle : x.flStart ≤ r.flEnd + 1) (hle' : r.flStart ≤ x.flEnd + 1)
    (hnd : ((x :: B).map FileLock.addr).Nodup) : Overwritten new new2 r (x :: B) (m' :: T) where
  locks := (ownerLocks_cons.1 hx).1 ▸ h.locks
  bytes b t := by
    rw [h.bytes, FileLock.widen_flStart, FileLock.widen_flEnd, min_comm, max_comm]
    have hmr := typeAt_merge hx hty hle hle' b t
    rw [← hty] at hmr
    apply hmr.trans
    rw [hty]
    split_ifs with hb
    · exact ⟨fun ht => ⟨ht, ht ▸ hr.held⟩, fun ht => ht.1⟩
    · rfl
  nodup := by
    rw [map_cons, nodup_cons] at hnd ⊢
    rw [h.addr]
    exact ⟨fun hm => hnd.1 (h.addrs.subset hm), hnd.2.sublist h.addrs⟩
  addrs a ha := by
    rw [map_cons, h.addr] at ha
    rcases mem_cons.1 ha with rfl | ha
    · exact .inl (by simp [FileLock.widen])
    · exact .inl (by simp [h.addrs.subset ha])

/-- What a lock of the result has, the request or one of the old locks has. -/
theorem Overwritten.source {y : FileLock} (h : Overwritten new new2 r W T) (hy : y ∈ T) :
    r.flStart ≤ y.flStart ∧ y.flType = r.flType ∨ ¬ (r.flStart ≤ y.flStart ∧ y.flStart ≤ r.flEnd) ∧
        ∃ z ∈ W, z.flStart ≤ y.flStart ∧ z.flType = y.flType := by
  have hat : TypeAt T y.flStart y.flType := ⟨y, hy, le_rfl, (h.locks.valid y hy).le, rfl⟩
  rw [h.bytes] at hat
  split_ifs at hat with hb
  · exact .inl ⟨hb.1, hat.1⟩
  obtain ⟨z, hz, hle, -, ht⟩ := hat
  exact .inr ⟨hb, z, hz, hle, ht⟩

/-- A lock `y` before the others, which has the address of `x` or a new one. -/
theorem Overwritten.cons {y : FileLock} (h : Overwritten new new2 r B T)
    (hsub : B.map addr ⊆ (x :: W).map addr) (hlck : OwnerLocks r.flOwner (y :: T))
    (hbyt : ∀ b t, TypeAt (y :: T) b t ↔
      if r.flStart ≤ b ∧ b ≤ r.flEnd then t = r.flType ∧ t ≠ .unlck else TypeAt (x :: W) b t)
    (had : y.addr ∉ T.map addr) (hn : y.addr = x.addr ∨ new2 = some y.addr) :
    Overwritten new new2 r (x :: W) (y :: T) where
  locks := hlck
  bytes := hbyt
  nodup := nodup_cons.2 ⟨had, h.nodup⟩
  addrs a ha := by
    rcases mem_cons.1 ha with rfl | ha
    · exact hn.imp (fun heq => by simp [heq]) .inr
    · exact (h.addrs a ha).imp_left (hsub ·)

theorem Overwritten.skip (h : Overwritten new new2 r B T) (hx : OwnerLocks r.flOwner (x :: B))
    (hlt : x.flEnd < r.flStart) (hg : r.flType = x.flType → x.flEnd < r.flStart - 1)
    (had : x.addr ∉ T.map addr) : Overwritten new new2 r (x :: B) (x :: T) := by
  refine h.cons (subset_cons_self ..) ?_ (fun b t => ?_) had (.inl rfl)
  · have hx' := ownerLocks_cons.1 hx
    refine ownerLocks_cons.2 ⟨hx'.1, hx'.2.1, fun y hy => ?_, h.locks⟩
    rcases h.source hy with ⟨hle, ht⟩ | ⟨-, z, hz, hle, ht⟩
    · refine ⟨by omega, fun hxy => ?_⟩
      have := hg (ht.symm.trans hxy.symm)
      omega
    have hxz := hx'.2.2.1 z hz
    refine ⟨by have := hxz.1; omega, fun hxy => ?_⟩
    have := hxz.2 (hxy.trans ht.symm)
    omega
  · rw [typeAt_cons, typeAt_cons, h.bytes]
    split_ifs with hb
    · exact or_iff_right fun hc => by omega
    · rfl

/-- A lock of another type that sticks out before the request. -/
theorem Overwritten.trim (h : Overwritten new new2 r B T) (hx : OwnerLocks r.flOwner (x :: B))
    (hty : r.flType ≠ x.flType) (hlt : x.flStart < r.flStart) (hle : r.flStart ≤ x.flEnd)
    (he : x.flEnd ≤ r.flEnd) (had : x.addr ∉ T.map addr) :
    Overwritten new new2 r (x :: B) ({ x with flEnd := r.flStart - 1 } :: T) := by
  refine h.cons (subset_cons_self ..) ?_ (fun b t => ?_) had (.inl rfl)
  · have hx' := ownerLocks_cons.1 hx
    have hv := hx'.2.1
    have hm := hv.end_le
    refine ownerLocks_cons.2 ⟨hx'.1,
      ⟨hv.start_nonneg, by dsimp only; omega, by dsimp only; omega, hv.held⟩, fun y hy => ?_,
      h.locks⟩
    rcases h.source hy with ⟨hley, ht⟩ | ⟨-, z, hz, hlez, ht⟩
    · exact ⟨by dsimp only; omega, fun hxy => absurd (ht.symm.trans hxy.symm) hty⟩
    have hxz := (hx'.2.2.1 z hz).1
    exact ⟨by dsimp only; omega, fun _ => by dsimp only; omega⟩
  · rw [typeAt_cons, typeAt_cons, h.bytes]
    dsimp only
    split_ifs with hb
    · exact or_iff_right fun hc => by omega
    · exact or_congr_left (by
        constructor <;> rintro ⟨h1, h2, h3⟩ <;> exact ⟨by omega, by omega, h3⟩)

/-! ### The end of the pass -/

/-- The pass over a list, and what follows it. -/
def posixPass (mustExist : Bool) (newFl newFl2 : Option ℕ) (L : List FileLock) (s : Scan) :
    ℤ × List FileLock × List Waiter :=
  posixFinish mustExist newFl newFl2 (processOwner L s).1 (processOwner L s).2

/-- How a request ends: refused with the list as it was, for want of a lock or of anything to
unlock, or granted. -/
inductive Outcome (mustExist : Bool) (newFl newFl2 : Option ℕ) (r : FileLock)
    (A A' W Q : List FileLock) (res : ℤ × List FileLock × List Waiter) : Prop
  | noLock (hres : res.1 = enolck) (hnew : newFl = none ∨ newFl2 = none)
      (hlist : res.2.1 = A ++ W ++ Q)
  | noEntry (hres : res.1 = enoent) (hexist : mustExist = true) (hunlck : r.flType = .unlck)
      (hnone : ∀ b t, r.flStart ≤ b → b ≤ r.flEnd → ¬ TypeAt W b t) (hbefore : A' = A)
      (hlist : res.2.1 = A ++ W ++ Q)
  | granted (T : List FileLock) (hres : res.1 = 0) (hlist : res.2.1 = A' ++ T ++ Q)
      (hover : Overwritten newFl newFl2 r W T)

/-- The addresses of the new locks are free. -/
structure FreshLocks (newFl newFl2 : Option ℕ) (L : List FileLock) : Prop where
  first : ∀ a, newFl = some a → a ∉ L.map addr
  second : ∀ a, newFl2 = some a → a ∉ L.map addr
  ne : ∀ a, newFl = some a → newFl2 ≠ some a

/-- The locks `B` of the request's owner stand between `A`, with the lock `left`, and `Q`. -/
structure Around (newFl newFl2 : Option ℕ) (r : FileLock) (left : Option ℕ)
    (A B Q : List FileLock) : Prop where
  own : OwnerLocks r.flOwner B
  others : ∀ x ∈ Q, x.flOwner ≠ r.flOwner
  left_mem : ∀ a, left = some a → a ∈ A.map addr
  nodup : ((A ++ B ++ Q).map addr).Nodup
  fresh : FreshLocks newFl newFl2 (A ++ B ++ Q)

variable {ex : Bool} {A' : List FileLock}

theorem ne_of_sides (hlf : ∀ a, left = some a → a ∈ A.map addr)
    (hrt : ∀ a, right = some a → a ∈ B'.map addr)
    (hnd : ((A ++ M ++ B' ++ Q).map addr).Nodup) : right.isSome → left ≠ right := by
  intro hso heq
  obtain ⟨a, ha⟩ := Option.isSome_iff_exists.1 hso
  simp only [map_append, append_assoc] at hnd
  apply disjoint_of_nodup_append hnd (hlf a (heq.trans ha))
  simp [mem_map.1 (hrt a ha)]

theorem nodup_own (h : ((A ++ B ++ Q).map addr).Nodup) : (B.map addr).Nodup := by
  refine h.sublist ?_
  simp only [map_append, append_assoc]
  exact (sublist_append_left _ _).trans (sublist_append_right _ _)

theorem not_mem_own (h : a ∉ (A ++ B ++ Q).map addr) : a ∉ B.map addr :=
  fun hm => h (by simp [mem_map.1 hm])

/-- Where the request is in the list, or there is a lock for it, it is granted. -/
theorem posixFinish_granted (ex : Bool) (new new2 : Option ℕ) (s : Scan) (rest : List FileLock)
    (hlc : s.added = true ∨ s.request.flType ≠ .unlck ∧ new ≠ none)
    (hli : s.passed ++ (if s.added then rest else { s.request with addr := new.getD 0 } :: rest) =
      A ++ M ++ B' ++ Q)
    (hlf : ∀ a, s.left = some a → a ∈ A.map addr)
    (hrt : ∀ a, s.right = some a → a ∈ B'.map addr)
    (hnd : ((A ++ M ++ B' ++ Q).map addr).Nodup) :
    (posixFinish ex new new2 s rest).1 = 0 ∧
    (posixFinish ex new new2 s rest).2.1 =
      trimEnd s.left (s.request.flStart - 1) A ++ M ++
        trimRight s.right s.request.flEnd B' ++ Q := by
  have hne := ne_of_sides hlf hrt hnd
  have hunl : ¬ (s.added = false ∧ s.request.flType = .unlck) := by
    rcases hlc with h | h
    · simp [h]
    · exact fun hc => h.1 hc.2
  have hn : ¬ (s.added = false ∧ new = none) := by
    rcases hlc with h | h
    · simp [h]
    · exact fun hc => h.2 hc.2
  rw [posixFinish, if_neg fun h => hne h.1 h.2.1, if_neg hunl, if_neg hn]
  exact ⟨rfl, posixTrim_eq _ _ rest hne hli hlf hrt hnd⟩

/-- The pass from a lock of the list that is the request. -/
theorem posixPass_absorb (ex : Bool) (new new2 : Option ℕ) (blocked : List Waiter)
    (hm : ValidLock m) (hB : OwnerLocks m.flOwner B) (hlt : ∀ x ∈ B, m.flStart < x.flStart)
    (hQ : ∀ x ∈ Q, x.flOwner ≠ m.flOwner) (hlf : ∀ a, left = some a → a ∈ A.map addr)
    (hnd : ((A ++ [m] ++ B ++ Q).map addr).Nodup) : ∃ m' T, Absorbed m B m' T ∧
      (posixPass ex new new2 (B ++ Q) ⟨A ++ [m], m, true, left, none, blocked⟩).1 = 0 ∧
      (posixPass ex new new2 (B ++ Q) ⟨A ++ [m], m, true, left, none, blocked⟩).2.1 =
        trimEnd left (m.flStart - 1) A ++ (m' :: T) ++ Q := by
  have hnd' := hnd
  simp only [map_append, append_assoc] at hnd'
  have hA : m.addr ∉ A.map addr := fun hmm =>
    disjoint_of_nodup_append hnd' hmm (by simp)
  have hBnodup : (B.map addr).Nodup := by
    refine hnd'.sublist ?_
    exact ((sublist_append_left _ _).cons _).trans (sublist_append_right _ _)
  obtain ⟨m', B', right, blocked', hr, hmm, habs⟩ :=
    processOwner_absorb left blocked hA hm hB hlt hBnodup hQ
  have hsub : (B'.map addr).Sublist (B.map addr) := by
    have := habs.addrs
    rwa [map_addr_trimRight] at this
  have hnd1 : ((A ++ [m'] ++ B' ++ Q).map addr).Nodup := by
    refine hnd.sublist ?_
    simp only [map_append, map_cons, habs.addr]
    exact ((List.Sublist.refl _).append hsub).append (List.Sublist.refl _)
  obtain ⟨hz, hli⟩ := posixFinish_granted ex new new2
    ⟨A ++ [m'], m', true, left, right, blocked'⟩ (B' ++ Q) (.inl rfl) (by simp) hlf hmm hnd1
  refine ⟨m', _, habs, ?_, ?_⟩
  · rw [posixPass, hr]
    exact hz
  rw [posixPass, hr]
  apply hli.trans
  rw [habs.start]
  simp

/-- The request is to be inserted before the locks `B`. -/
theorem Around.insert (h : Around new new2 r left A B Q) (right : Option ℕ) (hr : r.flType ≠ .unlck)
    (habs : ∀ n, new = some n →
      Absorbed { r with addr := n } B { r with addr := n } (trimRight right r.flEnd B))
    (hrt : ∀ a, right = some a → a ∈ B.map addr) :
    Outcome ex new new2 r A (trimEnd left (r.flStart - 1) A) B Q
      (posixFinish ex new new2 ⟨A, r, false, left, right, blocked⟩ (B ++ Q)) := by
  have hnd := h.nodup
  cases hnewFl : new with
  | none =>
    have hne := ne_of_sides (M := []) (Q := Q) h.left_mem hrt (by simpa using hnd)
    rw [posixFinish, if_neg fun h => hne h.1 h.2.1, if_neg fun h => hr h.2]
    exact .noLock rfl (.inl rfl) (by simp)
  | some n =>
    have hn := h.fresh.first n hnewFl
    have hnd' : ((A ++ [{ r with addr := n }] ++ B ++ Q).map addr).Nodup := by
      simp only [map_append, append_assoc] at hnd hn ⊢
      exact nodup_middle.2 (nodup_cons.2 ⟨hn, hnd⟩)
    obtain ⟨hz, hli⟩ := posixFinish_granted ex (some n) new2
      ⟨A, r, false, left, right, blocked⟩ (B ++ Q) (.inr ⟨hr, by simp⟩) (by simp) h.left_mem hrt
      hnd'
    refine .granted _ hz (hli.trans ?_)
      ((habs n hnewFl).overwritten rfl rfl rfl rfl hr ?_ ?_ (.inr rfl))
    · simp
    · exact nodup_own h.nodup
    rw [map_addr_trimRight]
    exact not_mem_own hn

/-- The request is merged with the first lock it does not leave alone. -/
theorem Around.merge (h : Around new new2 r left A (x :: B) Q) (hr : ValidLock r)
    (hty : r.flType = x.flType) (hle : x.flStart ≤ r.flEnd + 1) (hle' : r.flStart ≤ x.flEnd + 1)
    (hahd : left.isSome → r.flStart ≤ x.flStart) (hra : r.addr ∉ A.map addr) :
    Outcome ex new new2 r A (trimEnd left (r.flStart - 1) A) (x :: B) Q
      (posixPass ex new new2 (x :: B ++ Q) ⟨A, r, false, left, none, blocked⟩) := by
  have hB' := ownerLocks_cons.1 h.own
  have hxle := hB'.2.1.le
  have hps : posixPass ex new new2 (x :: B ++ Q) ⟨A, r, false, left, none, blocked⟩ =
      posixPass ex new new2 (B ++ Q)
        ⟨A ++ [x.widen r.flStart r.flEnd], x.widen r.flStart r.flEnd, true, left, none,
          blocked⟩ := by
    rw [posixPass, cons_append,
      processOwner_merge hB'.1 rfl hty (by omega) (by omega) rfl,
      Scan.setRequest]
    rw [setLock_of_not_mem hra]
    rfl
  have hlt : ∀ y ∈ B, (x.widen r.flStart r.flEnd).flStart < y.flStart := by
    intro y hy
    have := (hB'.2.2.1 y hy).1
    rw [widen_flStart]
    omega
  have hon := hB'.1
  obtain ⟨m', T, habs, hz, hli⟩ :=
    posixPass_absorb ex new new2 blocked (hB'.2.1.widen hr) (hon ▸ hB'.2.2.2) hlt (hon ▸ h.others)
      h.left_mem (by simpa [FileLock.widen] using h.nodup)
  refine .granted _ (hps ▸ hz) ?_
    (habs.overwritten_merge hr h.own hty.symm hle hle' (nodup_own h.nodup))
  rw [hps, hli]
  cases left with
  | none => rfl
  | some a =>
    have hmin : (x.widen r.flStart r.flEnd).flStart = r.flStart := by
      rw [widen_flStart, min_eq_left (hahd rfl)]
    rw [hmin]

/-- The request takes the place of the first lock it covers. -/
theorem Around.replace (h : Around new new2 r left A (x :: B) Q) (hr : ValidLock r)
    (hty : r.flType ≠ x.flType) (hle : r.flStart ≤ x.flStart) (he : x.flEnd ≤ r.flEnd) :
    Outcome ex new new2 r A (trimEnd left (r.flStart - 1) A) (x :: B) Q
      (posixPass ex new new2 (x :: B ++ Q) ⟨A, r, false, left, none, blocked⟩) := by
  have hB' := ownerLocks_cons.1 h.own
  have hxle := hB'.2.1.le
  have hBnodup := nodup_own h.nodup
  have hps : posixPass ex new new2 (x :: B ++ Q) ⟨A, r, false, left, none, blocked⟩ =
      posixPass ex new new2 (B ++ Q)
        ⟨A ++ [{ r with addr := x.addr }], { r with addr := x.addr }, true, left, none,
          locksWakeUpBlocks blocked x.addr⟩ := by
    rw [posixPass, cons_append, processOwner_replace hB'.1 rfl hty (by omega)
      (by omega) hle he hr.held rfl]
    rw [hB'.1]
    rfl
  have hlt : ∀ y ∈ B, r.flStart < y.flStart := by
    intro y hy
    have := (hB'.2.2.1 y hy).1
    omega
  have hm : ValidLock { r with addr := x.addr } := ⟨hr.start_nonneg, hr.le, hr.end_le, hr.held⟩
  obtain ⟨m', T, habs, hz, hli⟩ :=
    posixPass_absorb ex new new2 (locksWakeUpBlocks blocked x.addr) hm hB'.2.2.2 hlt
      h.others h.left_mem (by simpa using h.nodup)
  have hc : Absorbed { r with addr := x.addr } (x :: B) m' T := habs.cover hle he
  refine .granted _ (hps ▸ hz) (hps ▸ hli)
    (hc.overwritten rfl rfl rfl rfl hr.held hBnodup ?_ (.inl (by simp)))
  rw [map_cons, nodup_cons] at hBnodup
  exact fun hmm => hBnodup.1 (habs.addrs.subset hmm)

/-- A request before all locks of its owner that it does not leave alone. -/
theorem Around.ahead (h : Around new new2 r left A B Q) (hr : ValidLock r)
    (hle : ∀ x ∈ B, r.flStart ≤ x.flStart) (hra : r.addr ∉ A.map addr) :
    Outcome ex new new2 r A (trimEnd left (r.flStart - 1) A) B Q
      (posixPass ex new new2 (B ++ Q) ⟨A, r, false, left, none, blocked⟩) := by
  have hrun : ∀ n, ValidLock { r with addr := n } :=
    fun n => ⟨hr.start_nonneg, hr.le, hr.end_le, hr.held⟩
  cases B with
  | nil =>
    rw [posixPass, processOwner_stop h.others]
    exact h.insert none hr.held (fun n _ => absorbed_self (hrun n) h.own (by simp)) (by simp)
  | cons x B =>
    have hB := h.own
    have hB' := ownerLocks_cons.1 hB
    have hxle := hB'.2.1.le
    have hlex := hle x (by simp)
    rw [posixPass, cons_append]
    by_cases hg : r.flEnd < x.flStart ∧ (r.flType = x.flType → r.flEnd < x.flStart - 1)
    · rw [processOwner_break hB'.1 rfl (by omega) hg.1 hg.2]
      exact h.insert none hr.held
        (fun n _ => absorbed_self (hrun n) hB (hB.apart_of_gap hg)) (by simp)
    by_cases hty : r.flType = x.flType
    · exact h.merge hr hty (by omega) (by omega) (fun _ => hlex) hra
    have hcls : x.flStart ≤ r.flEnd := by
      by_contra hc
      exact hg ⟨by omega, fun h => absurd h hty⟩
    by_cases he : r.flEnd < x.flEnd
    · rw [processOwner_right hB'.1 rfl hty (by omega) hcls he]
      rw [if_neg hr.held, if_neg (by omega)]
      refine h.insert (some x.addr) hr.held (fun n _ => ?_) (by simp)
      rw [trimRight, setLock_cons_self]
      · exact absorbed_trim (hrun n) hB hty hcls hlex he
      · exact (nodup_cons.1 (nodup_own h.nodup)).1
    · exact h.replace hr hty hlex (not_lt.1 he)

/-! ### Unlocking -/

/-- A request to unlock that leaves all locks behind it alone. -/
theorem overwritten_self (hB : OwnerLocks r.flOwner B) (hty : r.flType = .unlck)
    (hlt : ∀ x ∈ B, r.flEnd < x.flStart) (hnd : (B.map addr).Nodup) :
    Overwritten new new2 r B B where
  locks := hB
  bytes b t := by
    split_ifs with hb
    · rw [hty]
      refine iff_of_false (not_hasAt_of_lt fun x hx => ?_) (by simp)
      have := hlt x hx
      omega
    · rfl
  nodup := hnd
  addrs a ha := .inl ha

theorem Overwritten.cover (h : Overwritten new new2 r B T) (hle : r.flStart ≤ x.flStart)
    (he : x.flEnd ≤ r.flEnd) : Overwritten new new2 r (x :: B) T where
  locks := h.locks
  bytes b t := by
    rw [h.bytes, typeAt_cons]
    split_ifs with hb
    · rfl
    · exact (or_iff_right fun hc => hb ⟨hle.trans hc.1, hc.2.1.trans he⟩).symm
  nodup := h.nodup
  addrs a ha := (h.addrs a ha).imp_left fun hm => by simp [hm]

/-- A lock that sticks out behind what is unlocked. -/
theorem overwritten_right (hB : OwnerLocks r.flOwner (x :: B)) (hty : r.flType = .unlck)
    (hr : 0 ≤ r.flStart) (hle : r.flStart ≤ x.flStart) (hle' : x.flStart ≤ r.flEnd)
    (he : r.flEnd < x.flEnd) (hnd : ((x :: B).map addr).Nodup) :
    Overwritten new new2 r (x :: B) ({ x with flStart := r.flEnd + 1 } :: B) where
  locks := by
    have hB' := ownerLocks_cons.1 hB
    have hv := hB'.2.1
    exact ownerLocks_cons.2
      ⟨hB'.1, ⟨by dsimp only; omega, by dsimp only; omega, hv.end_le, hv.held⟩, hB'.2.2⟩
  bytes b t := by
    rw [typeAt_cons, typeAt_cons]
    dsimp only
    split_ifs with hb
    · have hn := hB.not_typeAt (t := t) (hb.2.trans he.le)
      rw [hty]
      simp only [hn, or_false]
      exact iff_of_false (fun hc => by omega) (by simp)
    · refine or_congr_left (and_congr_left fun hc => ?_)
      omega
  nodup := hnd
  addrs a ha := .inl ha

/-- **Unlocking** deletes what it covers. -/
theorem processOwner_unlock (new new2 : Option ℕ) (A : List FileLock) (added : Bool)
    (left : Option ℕ) (blocked : List Waiter) (hty : r.flType = .unlck) (hr : 0 ≤ r.flStart)
    (hB : OwnerLocks r.flOwner B) (hle : ∀ x ∈ B, r.flStart ≤ x.flStart)
    (hnd : (B.map addr).Nodup) (hQ : ∀ x ∈ Q, x.flOwner ≠ r.flOwner) :
    ∃ B' right added' blocked', processOwner (B ++ Q) ⟨A, r, added, left, none, blocked⟩ =
        (⟨A, r, added', left, right, blocked'⟩, B' ++ Q) ∧ (∀ a, right = some a → a ∈ B'.map addr) ∧
      Overwritten new new2 r B (trimRight right r.flEnd B') ∧ (B'.map addr).Sublist (B.map addr) ∧
      (added = true → added' = true) ∧
      (added' = false → B' = B ∧ right = none ∧ ∀ x ∈ B, r.flEnd < x.flStart) := by
  induction B generalizing added blocked with
  | nil =>
    rw [processOwner_stop hQ]
    exact ⟨[], none, added, blocked, rfl, by simp, overwritten_self hB hty (by simp) hnd, .refl _,
      id, fun _ => ⟨rfl, rfl, by simp⟩⟩
  | cons x B ih =>
    have hB' := ownerLocks_cons.1 hB
    have hxle := hB'.2.1.le
    have hlex := hle x (by simp)
    have hne : r.flType ≠ x.flType := hty ▸ hB'.2.1.held.symm
    have hltB : ∀ y ∈ B, x.flEnd < y.flStart := fun y hy => (hB'.2.2.1 y hy).1
    rw [cons_append]
    by_cases hg : r.flEnd < x.flStart
    · rw [processOwner_break hB'.1 rfl (by omega) hg fun h => absurd h hne]
      have hlt : ∀ y ∈ x :: B, r.flEnd < y.flStart := by
        rw [forall_mem_cons]
        refine ⟨hg, fun y hy => ?_⟩
        have := hltB y hy
        omega
      exact ⟨x :: B, none, added, blocked, rfl, by simp, overwritten_self hB hty hlt hnd, .refl _,
        id, fun _ => ⟨rfl, rfl, hlt⟩⟩
    by_cases he : r.flEnd < x.flEnd
    · rw [processOwner_right hB'.1 rfl hne (by omega) (not_lt.1 hg) he]
      rw [if_pos hty, if_neg (by omega)]
      refine ⟨x :: B, some x.addr, true, blocked, rfl, by simp, ?_, .refl _, fun _ => rfl, by simp⟩
      rw [trimRight, setLock_cons_self (nodup_cons.1 hnd).1]
      exact overwritten_right hB hty hr hlex (not_lt.1 hg) he hnd
    rw [processOwner_cover hB'.1 rfl hne (by omega) (not_lt.1 hg) hlex
      (not_lt.1 he) (if_pos hty)]
    obtain ⟨B1, right, added', blocked', hrun, hm, hov, hsub, ha, -⟩ :=
      ih true (locksWakeUpBlocks blocked x.addr) hB'.2.2.2 (fun y hy => hle y (by simp [hy]))
        (nodup_cons.1 hnd).2
    refine ⟨B1, right, added', blocked', hrun, hm, hov.cover hlex (not_lt.1 he), hsub.cons _,
      fun _ => ha rfl, fun h => ?_⟩
    rw [ha rfl] at h
    cases h

/-- The pass of a request to unlock, from where it has something to unlock. -/
theorem Around.unlock (h : Around new new2 r left A B Q) (hty : r.flType = .unlck)
    (hr : 0 ≤ r.flStart) (hle : ∀ x ∈ B, r.flStart ≤ x.flStart)
    (had : left.isSome → added = true) :
    Outcome ex new new2 r A (trimEnd left (r.flStart - 1) A) B Q
      (posixPass ex new new2 (B ++ Q) ⟨A, r, added, left, none, blocked⟩) := by
  obtain ⟨B', right, added', blocked', hrun, hm, hov, hsub, ha, hno⟩ :=
    processOwner_unlock new new2 A added left blocked hty hr h.own hle (nodup_own h.nodup) h.others
  rw [posixPass, hrun]
  cases added' with
  | true =>
    have hnd' : ((A ++ [] ++ B' ++ Q).map addr).Nodup := by
      refine h.nodup.sublist ?_
      simp only [map_append, append_nil]
      exact ((List.Sublist.refl _).append hsub).append (List.Sublist.refl _)
    obtain ⟨hz, hli⟩ := posixFinish_granted ex new new2
      ⟨A, r, true, left, right, blocked'⟩ (B' ++ Q) (.inl rfl) (by simp) h.left_mem hm hnd'
    exact .granted _ hz (hli.trans (by simp)) hov
  | false =>
    obtain ⟨rfl, rfl, hlt⟩ := hno rfl
    have hleftNone : left = none := by
      cases left with
      | none => rfl
      | some a => cases ha (had rfl)
    subst hleftNone
    have hfn : posixFinish ex new new2 ⟨A, r, false, none, none, blocked'⟩
        (B' ++ Q) = (if ex then enoent else 0, A ++ (B' ++ Q), blocked') := by
      rw [posixFinish, if_neg (by simp), if_pos ⟨rfl, hty⟩]
    rw [hfn]
    cases ex with
    | false => exact .granted B' rfl (by simp [trimEnd]) hov
    | true =>
      refine .noEntry rfl rfl hty (fun b t _ hb => ?_) rfl (by simp)
      refine not_hasAt_of_lt fun x hx => ?_
      have := hlt x hx
      omega

/-! ### Splitting a lock -/

/-- The part of a lock before the request is a lock of its own. -/
theorem Overwritten.split {n : ℕ} (hx : OwnerLocks r.flOwner (x :: B))
    (h : Overwritten new new2 r ({ x with flStart := r.flStart } :: B) T)
    (hr : r.flStart ≤ r.flEnd) (hty : r.flType ≠ x.flType) (hlt : x.flStart < r.flStart)
    (hle : r.flStart ≤ x.flEnd) (had : n ∉ T.map addr) (hn : new2 = some n) :
    Overwritten new new2 r (x :: B) ({ x with addr := n, flEnd := r.flStart - 1 } :: T) := by
  refine h.cons (List.Subset.refl _) ?_ (fun b t => ?_) had (.inr hn)
  · have hx' := ownerLocks_cons.1 hx
    have hv := hx'.2.1
    have hm := hv.end_le
    refine ownerLocks_cons.2 ⟨hx'.1,
      ⟨hv.start_nonneg, by dsimp only; omega, by dsimp only; omega, hv.held⟩, fun y hy => ?_,
      h.locks⟩
    rcases h.source hy with ⟨hley, ht⟩ | ⟨ho, z, hz, hlez, ht⟩
    · exact ⟨by dsimp only; omega, fun hxy => absurd (ht.symm.trans hxy.symm) hty⟩
    have hrz : r.flStart ≤ z.flStart := by
      rcases mem_cons.1 hz with rfl | hz
      · exact le_rfl
      have := (hx'.2.2.1 z hz).1
      omega
    exact ⟨by dsimp only; omega, fun _ => by dsimp only; omega⟩
  rw [typeAt_cons, h.bytes, typeAt_cons, typeAt_cons]
  dsimp only
  split_ifs with hb
  · exact or_iff_right fun hc => by omega
  rw [← or_assoc]
  refine or_congr_left ?_
  constructor
  · rintro (⟨h1, h2, h3⟩ | ⟨h1, h2, h3⟩)
    · exact ⟨by omega, by omega, h3⟩
    · exact ⟨by omega, by omega, h3⟩
  rintro ⟨h1, h2, h3⟩
  by_cases hbr : b < r.flStart
  · exact .inl ⟨h1, by omega, h3⟩
  · exact .inr ⟨by omega, h2, h3⟩

/-- The list after a lock is broken in two pieces, with the request between them if it is new. -/
theorem posixTrim_split {n1 n2 : ℕ} (A B Q : List FileLock) (x : FileLock)
    (hnd : ((A ++ (x :: B) ++ Q).map addr).Nodup)
    (h1 : added = false → n1 ∉ (A ++ (x :: B) ++ Q).map addr ∧ n1 ≠ n2)
    (h2 : n2 ∉ (A ++ (x :: B) ++ Q).map addr) :
    (posixTrim n1 n2 ⟨A, r, added, some x.addr, some x.addr, blocked⟩ (x :: B ++ Q)).1 =
      A ++ ({ x with addr := n2, flEnd := r.flStart - 1 } ::
        ((if added then [] else [{ r with addr := n1 }]) ++
          { x with flStart := r.flEnd + 1 } :: B)) ++ Q := by
  set M : List FileLock := if added then [] else [{ r with addr := n1 }] with hM
  set copy : FileLock := { x with addr := n2 } with hcp
  simp only [map_append, map_cons, append_assoc, cons_append, mem_append, mem_cons,
    not_or] at h1 h2 hnd
  rw [nodup_middle, nodup_cons, mem_append, not_or, mem_append, not_or] at hnd
  have hMx : x.addr ∉ M.map addr := by
    cases added with
    | true => simp [hM]
    | false => simpa [hM] using Ne.symm (h1 rfl).1.2.1
  have hMn : n2 ∉ M.map addr := by
    cases added with
    | true => simp [hM]
    | false => simpa [hM] using Ne.symm (h1 rfl).2
  have hrs : (if added then x :: B ++ Q else { r with addr := n1 } :: (x :: B ++ Q)) =
      M ++ x :: (B ++ Q) := by
    cases added <;> rfl
  have hfi : (M ++ x :: (B ++ Q)).find? (fun fl => fl.addr = x.addr) = some x := by
    rw [find?_append, find?_eq_none.2, Option.none_or, find?_cons_of_pos (by simp)]
    intro y hy
    simp only [decide_eq_true_eq]
    rintro heq
    exact hMx (heq ▸ mem_map_of_mem hy)
  have hrt : setLock x.addr ({ · with flStart := r.flEnd + 1 })
      (A ++ copy :: (M ++ x :: (B ++ Q))) =
        A ++ copy :: (M ++ { x with flStart := r.flEnd + 1 } :: (B ++ Q)) := by
    have hA : x.addr ∉ (A ++ copy :: M).map addr := by
      simp [hcp, hnd, Ne.symm h2.2.1, hMx]
    have hB : x.addr ∉ (B ++ Q).map addr := by simp [hnd]
    simpa using setLock_middle (f := ({ · with flStart := r.flEnd + 1 })) hA hB
  have hlf : setLock n2 ({ · with flEnd := r.flStart - 1 })
      (A ++ copy :: (M ++ { x with flStart := r.flEnd + 1 } :: (B ++ Q))) =
        A ++ { x with addr := n2, flEnd := r.flStart - 1 } ::
          (M ++ { x with flStart := r.flEnd + 1 } :: (B ++ Q)) := by
    have hA : copy.addr ∉ A.map addr := h2.1
    have hB : copy.addr ∉ (M ++ { x with flStart := r.flEnd + 1 } :: (B ++ Q)).map addr := by
      simp [hcp, hMn, h2]
    exact setLock_middle (f := ({ · with flEnd := r.flStart - 1 })) hA hB
  rw [posixTrim]
  dsimp only
  rw [hrs, hfi, if_pos rfl, if_pos rfl, trimLeft_eq]
  simp only [Option.map_some, Option.toList_some, singleton_append]
  rw [hrt, trimEnd, hlf]
  simp

/-- A request inside a lock of another type breaks it in two. -/
theorem Around.split (h : Around new new2 r none A (x :: B) Q) (hst : 0 ≤ r.flStart)
    (hr : r.flStart ≤ r.flEnd) (hmx : r.flEnd ≤ offsetMax) (hty : r.flType ≠ x.flType)
    (hlt : x.flStart < r.flStart) (he : r.flEnd < x.flEnd) : Outcome ex new new2 r A A (x :: B) Q
      (posixPass ex new new2 (x :: B ++ Q) ⟨A, r, false, none, none, blocked⟩) := by
  have hB' := ownerLocks_cons.1 h.own
  have hv := hB'.2.1
  rw [posixPass, cons_append,
    processOwner_right hB'.1 rfl hty (by omega) (by omega) he]
  rw [if_pos hlt]
  cases hnw2 : new2 with
  | none =>
    rw [posixFinish, if_pos ⟨rfl, rfl, rfl⟩]
    exact .noLock rfl (.inr rfl) (by simp)
  | some n2 =>
    have hx2 : OwnerLocks r.flOwner ({ x with flStart := r.flStart } :: B) :=
      ownerLocks_cons.2 ⟨hB'.1, ⟨hst, by dsimp only; omega, hv.end_le, hv.held⟩, hB'.2.2⟩
    have hn2 := h.fresh.second n2 hnw2
    have hBnodup := nodup_own h.nodup
    by_cases hunl : r.flType = .unlck
    · rw [if_pos hunl, posixFinish, if_neg (by simp)]
      refine .granted _ rfl (posixTrim_split A B Q x h.nodup (by simp) hn2) ?_
      apply Overwritten.split h.own _ hr hty hlt (by omega) _ rfl
      · exact overwritten_right hx2 hunl hst le_rfl hr he hBnodup
      · exact fun hmm => not_mem_own hn2 (by simpa using hmm)
    rw [if_neg hunl]
    cases hnw1 : new with
    | none =>
      rw [posixFinish, if_neg (by simp), if_neg (by simp [hunl])]
      exact .noLock rfl (.inl rfl) (by simp)
    | some n1 =>
      have hn1 := h.fresh.first n1 hnw1
      have hne : n1 ≠ n2 := fun heq => h.fresh.ne n1 hnw1 (heq ▸ hnw2)
      rw [posixFinish, if_neg (by simp), if_neg (by simp [hunl])]
      refine .granted _ rfl
        (posixTrim_split A B Q x h.nodup (fun _ => ⟨hn1, hne⟩) hn2) ?_
      have hm : ValidLock { r with addr := n1 } := ⟨hst, hr, hmx, hunl⟩
      have hn1B := not_mem_own hn1
      apply Overwritten.split h.own _ hr hty hlt (by omega) _ rfl
      · have habs := absorbed_trim hm hx2 hty hr le_rfl he
        exact habs.overwritten rfl rfl rfl rfl hunl hBnodup hn1B (.inr rfl)
      · simpa [hne.symm] using not_mem_own hn2

/-! ### The whole pass -/

/-- The address of a lock before is not used again. -/
theorem Around.addr_not_mem (ha : Around new new2 r left A (x :: B) Q)
    (h : Overwritten new new2 r B T) : x.addr ∉ T.map addr := by
  have hx : x.addr ∈ (A ++ (x :: B) ++ Q).map addr := by simp
  intro hm
  rcases h.addrs x.addr hm with hB | hn' | hn'
  · exact (nodup_cons.1 (nodup_own ha.nodup)).1 hB
  · exact ha.fresh.first _ hn' hx
  · exact ha.fresh.second _ hn' hx

/-- The outcome of the pass behind a lock that it leaves alone. -/
theorem Outcome.skip (h : Outcome ex new new2 r (A ++ [x]) (A ++ [x]) B Q res)
    (ha : Around new new2 r none A (x :: B) Q) (hlt : x.flEnd < r.flStart)
    (hg : r.flType = x.flType → x.flEnd < r.flStart - 1) :
    Outcome ex new new2 r A A (x :: B) Q res := by
  cases h with
  | noLock hr hno hli => exact .noLock hr hno (by simpa using hli)
  | noEntry hr hexi hunl hno _ hli =>
    refine .noEntry hr hexi hunl (fun b t hb hb' => ?_) rfl (by simpa using hli)
    rw [typeAt_cons, not_or]
    exact ⟨fun hc => by omega, hno b t hb hb'⟩
  | granted T hr hli hov =>
    exact .granted (x :: T) hr (by simpa using hli)
      (hov.skip ha.own hlt hg (ha.addr_not_mem hov))

/-- The outcome of the pass behind a lock that sticks out before the request. -/
theorem Outcome.trim (h : Outcome ex new new2 r (A ++ [x])
      (trimEnd (some x.addr) (r.flStart - 1) (A ++ [x])) B Q res)
    (ha : Around new new2 r none A (x :: B) Q) (hty : r.flType ≠ x.flType)
    (hlt : x.flStart < r.flStart) (hle : r.flStart ≤ x.flEnd) (he : x.flEnd ≤ r.flEnd) :
    Outcome ex new new2 r A A (x :: B) Q res := by
  have hA : x.addr ∉ A.map addr := by
    have hnd := ha.nodup
    simp only [map_append, append_assoc] at hnd
    intro hm
    exact disjoint_of_nodup_append hnd hm (by simp)
  rw [trimEnd, setLock_concat_self hA] at h
  cases h with
  | noLock hr hno hli => exact .noLock hr hno (by simpa using hli)
  | noEntry _ _ _ _ hb =>
    have he' : r.flStart - 1 = x.flEnd := by
      simpa using congrArg (fun L => (L.map flEnd).getLast?) hb
    omega
  | granted T hr hli hov =>
    exact .granted _ hr (by simpa using hli)
      (hov.trim ha.own hty hlt hle he (ha.addr_not_mem hov))

theorem FreshLocks.mono {L L' : List FileLock} (h : FreshLocks new new2 L)
    (hsub : ∀ x ∈ L', x ∈ L) : FreshLocks new new2 L' where
  first a ha hm := by
    obtain ⟨x, hx, rfl⟩ := mem_map.1 hm
    exact h.first _ ha (mem_map_of_mem (hsub x hx))
  second a ha hm := by
    obtain ⟨x, hx, rfl⟩ := mem_map.1 hm
    exact h.second _ ha (mem_map_of_mem (hsub x hx))
  ne := h.ne

/-- The pass goes on behind a lock. -/
theorem Around.next (h : Around new new2 r none A (x :: B) Q)
    (hlf : ∀ a, left = some a → a ∈ (A ++ [x]).map addr) :
    Around new new2 r left (A ++ [x]) B Q where
  own := (ownerLocks_cons.1 h.own).2.2.2
  others := h.others
  left_mem := hlf
  nodup := by simpa using h.nodup
  fresh := h.fresh.mono fun y hy => by simpa using hy

/-- A request whose owner's locks do not start before it. -/
theorem Around.front (h : Around new new2 r left A B Q) (hst : 0 ≤ r.flStart)
    (hr : r.flStart ≤ r.flEnd) (hm : r.flEnd ≤ offsetMax) (hle : ∀ x ∈ B, r.flStart ≤ x.flStart)
    (ha : if r.flType = .unlck then left.isSome → added = true else added = false)
    (hra : r.addr ∉ A.map addr) :
    Outcome ex new new2 r A (trimEnd left (r.flStart - 1) A) B Q
      (posixPass ex new new2 (B ++ Q) ⟨A, r, added, left, none, blocked⟩) := by
  by_cases hty : r.flType = .unlck
  · rw [if_pos hty] at ha
    exact h.unlock hty hst hle ha
  rw [if_neg hty] at ha
  subst ha
  exact h.ahead ⟨hst, hr, hm, hty⟩ hle hra

/-- **The pass**: the request is granted, or nothing is changed. -/
theorem posixPass_spec (ex : Bool) (blocked : List Waiter) (hst : 0 ≤ r.flStart)
    (hr : r.flStart ≤ r.flEnd) (hm : r.flEnd ≤ offsetMax) (h : Around new new2 r none A B Q)
    (hra : r.addr ∉ (A ++ B ++ Q).map addr) : Outcome ex new new2 r A A B Q
      (posixPass ex new new2 (B ++ Q) ⟨A, r, false, none, none, blocked⟩) := by
  induction B generalizing A with
  | nil =>
    exact h.front hst hr hm (by simp) (by split_ifs <;> simp)
      fun h => hra (by simp [mem_map.1 h])
  | cons x B ih =>
    have hB' := ownerLocks_cons.1 h.own
    have hltB : ∀ y ∈ B, x.flEnd < y.flStart := fun y hy => (hB'.2.2.1 y hy).1
    have hrA : r.addr ∉ A.map addr := fun h => hra (by simp [mem_map.1 h])
    by_cases hsk : x.flEnd < r.flStart ∧ (r.flType = x.flType → x.flEnd < r.flStart - 1)
    · have hps : posixPass ex new new2 (x :: B ++ Q)
          ⟨A, r, false, none, none, blocked⟩ =
            posixPass ex new new2 (B ++ Q) ⟨A ++ [x], r, false, none, none, blocked⟩ := by
        rw [posixPass, cons_append, processOwner_skip hB'.1 rfl hsk.1 hsk.2]
        rfl
      rw [hps]
      exact Outcome.skip (ih (h.next (by simp)) (by simpa using hra)) h hsk.1 hsk.2
    by_cases hfrt : r.flStart ≤ x.flStart
    · refine h.front hst hr hm ?_ (by split_ifs <;> simp) hrA
      rw [forall_mem_cons]
      refine ⟨hfrt, fun y hy => ?_⟩
      have := hltB y hy
      omega
    -- the first lock that is not skipped starts before the request
    have hcls : r.flStart ≤ x.flEnd + 1 := by omega
    by_cases hty : r.flType = x.flType
    · exact h.merge ⟨hst, hr, hm, hty ▸ hB'.2.1.held⟩ hty (by omega) hcls (by simp) hrA
    have hov : r.flStart ≤ x.flEnd := by
      by_contra hc
      exact hsk ⟨by omega, fun h => absurd h hty⟩
    by_cases he : r.flEnd < x.flEnd
    · exact h.split hst hr hm hty (not_le.1 hfrt) he
    have hps : posixPass ex new new2 (x :: B ++ Q)
        ⟨A, r, false, none, none, blocked⟩ =
          posixPass ex new new2 (B ++ Q)
            ⟨A ++ [x], r, if r.flType = .unlck then true else false, some x.addr, none,
              blocked⟩ := by
      rw [posixPass, cons_append, processOwner_left hB'.1 rfl hty hov (by omega)
        (not_le.1 hfrt) (not_lt.1 he)]
      rfl
    rw [hps]
    refine Outcome.trim ((h.next ?_).front hst hr hm (fun y hy => ?_) ?_ ?_) h hty
      (not_le.1 hfrt) hov (not_lt.1 he)
    · intro a ha
      obtain rfl := Option.some.inj ha
      simp
    · have := hltB y hy
      omega
    · by_cases hunl : r.flType = .unlck
      · simp [hunl]
      · simp [hunl]
    · exact fun hmm => hra (map_subset _ (fun y hy => by simp at hy ⊢; tauto) hmm)

end NestLinux.Locks
