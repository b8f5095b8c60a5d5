import NestLinux.Lib.Word32

/-!
# Copies between a kfifo and user space

`kernel/kfifo.c`: `__kfifo_from_user` and `__kfifo_to_user` move whole elements in two pieces,
around the end of the buffer. The user's memory is good up to some offset; a copy moves what it
can, from the front, and returns the number of bytes that it did not move.
-/

namespace NestLinux.KfifoUser

open Lib

/-- `struct __kfifo`, with less than `2 ^ 32` bytes and no more elements than it has room for. -/
structure Kfifo where
  inIdx : ℕ
  outIdx : ℕ
  mask : ℕ
  esize : ℕ
  esize_pos : 0 < esize
  bytes_lt : (mask + 1) * esize < 2 ^ 32
  in_lt : inIdx < 2 ^ 32
  out_lt : outIdx < 2 ^ 32
  used_le : sub32 inIdx outIdx ≤ mask + 1

/-- What a call leaves: its result, `*copied`, the index it advances, and how many bytes of the
user's memory were moved. -/
structure Outcome where
  err : ℤ
  copied : ℕ
  index : ℕ
  moved : ℕ
  deriving DecidableEq

/-- `copy_from_user` and `copy_to_user` of `n` bytes from an offset, where the user's memory is
good below `fault`: the bytes not moved, and those moved. -/
def copyUser (fault user n : ℕ) : ℕ × ℕ :=
  let done := min n (fault - user)
  (n - done, done)

def divRoundUp (n d : ℕ) : ℕ := add32 n (d - 1) / d

variable (f : Kfifo)

/-- `kfifo_copy_from_user` and `kfifo_copy_to_user`: the elements not copied, `*copied`, and the
bytes moved. -/
def kfifoCopyUser (fault len off : ℕ) : ℕ × ℕ × ℕ :=
  let off := (off &&& f.mask) * f.esize % 2 ^ 32
  let size := (f.mask + 1) * f.esize % 2 ^ 32
  let len := len * f.esize % 2 ^ 32
  let l := min len (sub32 size off)
  let c1 := copyUser fault 0 l
  let c2 := copyUser fault l (sub32 len l)
  let ret :=
    if c1.1 ≠ 0 then divRoundUp (sub32 (add32 c1.1 len) l) f.esize
    else if c2.1 ≠ 0 then divRoundUp c2.1 f.esize else c2.1
  (ret, sub32 len ret, if c1.1 ≠ 0 then c1.2 else c1.2 + c2.2)

/-- The elements to move, where there are `avail`. -/
def wanted (avail len : ℕ) : ℕ := min (len / f.esize) avail

/-- The two calls differ in the index, and in the elements that there are to move. -/
def kfifoUser (idx avail len fault : ℕ) : Outcome :=
  let len := wanted f avail len
  let r := kfifoCopyUser f fault len idx
  if r.1 ≠ 0 then ⟨-14, r.2.1, add32 idx (sub32 len r.1), r.2.2⟩
  else ⟨0, r.2.1, add32 idx len, r.2.2⟩

def kfifoUnused : ℕ := sub32 (f.mask + 1) (sub32 f.inIdx f.outIdx)

/-- `__kfifo_from_user`. -/
def kfifoFromUser (len fault : ℕ) : Outcome := kfifoUser f f.inIdx (kfifoUnused f) len fault

/-- `__kfifo_to_user`. -/
def kfifoToUser (len fault : ℕ) : Outcome :=
  kfifoUser f f.outIdx (sub32 f.inIdx f.outIdx) len fault

/-- The call reports what it did: `*copied` is the size of the elements by which the index
advanced, all of them were moved, and 0 is returned exactly if none of the bytes faulted. -/
structure Reports (idx bytes fault : ℕ) (o : Outcome) : Prop where
  copied : o.copied = f.esize * sub32 o.index idx
  complete : f.esize * sub32 o.index idx ≤ o.moved
  err : o.err = 0 ↔ bytes ≤ fault

variable {f} {fault idx n ret : ℕ}

theorem divRoundUp_le {x d : ℕ} (hd : 0 < d) (hx : x ≤ n * d) : divRoundUp x d ≤ n := by
  have hle : add32 x (d - 1) ≤ x + (d - 1) := Nat.mod_le _ _
  refine Nat.le_of_lt_succ ((Nat.div_lt_iff_lt_mul hd).2 ?_)
  rw [Nat.succ_mul]
  omega

theorem divRoundUp_one {x : ℕ} (hx : x < 2 ^ 32) : divRoundUp x 1 = x := by
  rw [divRoundUp, Nat.div_one, add32_of_lt hx]
  rfl

/-- The two pieces are one copy of all bytes. -/
theorem kfifoCopyUser_spec (hn : n ≤ f.mask + 1)
    (hret : (if n * f.esize ≤ fault then 0 else divRoundUp (n * f.esize - fault) f.esize) = ret) :
    ret ≤ n ∧ kfifoCopyUser f fault n idx = (ret, n * f.esize - ret, min (n * f.esize) fault) := by
  have hlt := (Nat.mul_le_mul_right f.esize hn).trans_lt f.bytes_lt
  have hle := Nat.le_mul_of_pos_right n f.esize_pos
  have hret_le : ret ≤ n := by
    rw [← hret]
    split_ifs
    · exact Nat.zero_le n
    · exact divRoundUp_le f.esize_pos (Nat.sub_le _ _)
  refine ⟨hret_le, ?_⟩
  rw [← sub32_of_le (hret_le.trans hle) (by omega), kfifoCopyUser, Nat.mod_eq_of_lt hlt]
  generalize n * f.esize = len at *
  generalize hl : min len (sub32 _ _) = l
  by_cases hflt : fault < l
  · have hrs : sub32 (add32 (l - fault) len) l = len - fault := by
      unfold sub32 add32
      omega
    have hdn : min l fault = fault := by omega
    rw [if_neg (by omega)] at hret
    simp only [copyUser, Nat.sub_zero, hdn, hrs, hret]
    rw [if_pos (by omega), if_pos (by omega), Nat.min_eq_right (by omega)]
  have hdn : min l fault = l := by omega
  have hsub : sub32 len l = len - l := sub32_of_le (by omega) (by omega)
  have hrs : len - l - min (len - l) (fault - l) = len - fault := by omega
  have hmvd : l + min (len - l) (fault - l) = min len fault := by omega
  have hret' : (if len - fault = 0 then len - fault else divRoundUp (len - fault) f.esize) =
      ret := by
    rw [← hret]
    split_ifs <;> omega
  simp only [copyUser, Nat.sub_zero, hdn, hsub, hrs, Nat.sub_self, hmvd, ne_eq, not_true, if_false,
    ite_not, hret']

/-- One of the two calls. -/
theorem kfifoUser_reports_iff {avail len : ℕ} (hidx : idx < 2 ^ 32) (hav : avail ≤ f.mask + 1) :
    Reports f idx (wanted f avail len * f.esize) fault (kfifoUser f idx avail len fault) ↔
      f.esize = 1 ∨ wanted f avail len * f.esize ≤ fault := by
  have hn : wanted f avail len ≤ f.mask + 1 := (Nat.min_le_right _ _).trans hav
  unfold kfifoUser
  generalize wanted f avail len = n at *
  have hp := f.esize_pos
  have hbyt := (Nat.mul_le_mul_right f.esize hn).trans_lt f.bytes_lt
  have hle' := Nat.le_mul_of_pos_right n hp
  have hadv {m : ℕ} (hm : m ≤ n) : sub32 (add32 idx m) idx = m := by
    unfold sub32 add32
    omega
  dsimp only
  by_cases hgood : n * f.esize ≤ fault
  · rw [(kfifoCopyUser_spec hn (if_pos hgood)).2, if_neg (not_not.2 rfl)]
    have ha : f.esize * sub32 (add32 idx n) idx = n * f.esize := by rw [hadv le_rfl, Nat.mul_comm]
    exact iff_of_true ⟨by simp [ha], by simp [ha, hgood], by simp [hgood]⟩ (.inr hgood)
  generalize hret : divRoundUp (n * f.esize - fault) f.esize = ret
  obtain ⟨hle, hcp⟩ := kfifoCopyUser_spec hn ((if_neg hgood).trans hret)
  rw [hcp, sub32_of_le hle (by omega)]
  by_cases hz : ret = 0
  · -- the rounding wrapped around, and the fault is not reported
    rw [if_neg (not_not.2 hz)]
    refine iff_of_false (fun h => hgood (h.err.1 rfl)) ?_
    rintro (ho | h)
    · rw [ho, Nat.mul_one] at hret hgood hbyt
      rw [divRoundUp_one (by omega)] at hret
      omega
    · exact hgood h
  rw [if_pos hz]
  constructor
  · intro h
    have hco := h.copied
    dsimp only at hco
    rw [hadv (Nat.sub_le _ _), Nat.mul_sub, Nat.mul_comm n] at hco
    have hmul := Nat.mul_le_mul_left f.esize hle
    have hret_le := Nat.le_mul_of_pos_left ret hp
    exact .inl (Nat.eq_of_mul_eq_mul_right (Nat.pos_of_ne_zero hz) (by omega))
  intro h
  have ho := h.resolve_right hgood
  rw [ho, divRoundUp_one (by omega)] at hret
  have ha : f.esize * sub32 (add32 idx (n - ret)) idx = n - ret := by
    rw [hadv (Nat.sub_le _ _), ho, Nat.one_mul]
  refine ⟨?_, ?_, by simp [hgood]⟩
  · rw [ha, ho, Nat.mul_one]
  rw [ha, ho]
  dsimp only
  omega

/-- **The user copies report what they did** exactly if elements are bytes or nothing faults. -/
theorem kfifo_reports_iff (f : Kfifo) (len fault : ℕ) :
    (Reports f f.inIdx (wanted f (kfifoUnused f) len * f.esize) fault (kfifoFromUser f len fault) ↔
      f.esize = 1 ∨ wanted f (kfifoUnused f) len * f.esize ≤ fault) ∧
    (Reports f f.outIdx (wanted f (sub32 f.inIdx f.outIdx) len * f.esize) fault
        (kfifoToUser f len fault) ↔
      f.esize = 1 ∨ wanted f (sub32 f.inIdx f.outIdx) len * f.esize ≤ fault) := by
  refine ⟨kfifoUser_reports_iff f.in_lt ?_, kfifoUser_reports_iff f.out_lt f.used_le⟩
  have hle := Nat.le_mul_of_pos_right (f.mask + 1) f.esize_pos
  have hlt := f.bytes_lt
  rw [kfifoUnused, sub32_of_le f.used_le (by omega)]
  exact Nat.sub_le _ _

/-- An empty fifo of two elements of two bytes. -/
def twoPairs : Kfifo where
  inIdx := 0
  outIdx := 0
  mask := 1
  esize := 2
  esize_pos := by decide
  bytes_lt := by decide
  in_lt := by decide
  out_lt := by decide
  used_le := by decide

/-- The second element faults: one element was copied, and `*copied` is 3. -/
theorem kfifo_not_reports : kfifoFromUser twoPairs 4 2 = ⟨-14, 3, 1, 2⟩ ∧
    ¬ Reports twoPairs 0 4 2 (kfifoFromUser twoPairs 4 2) := by
  constructor
  · decide
  intro h
  exact absurd h.copied (by decide)

end NestLinux.KfifoUser
