import NestLinux.Fs.Locks

/-!
# Byte ranges of `fcntl`

`flock64_to_posix_lock` adds up the start and the end of a lock in signed 64-bit words, and tells
from their signs and order whether the sums have wrapped.
-/

namespace NestLinux.Locks

/-- A sum in a `loff_t`. -/
def loff (n : ℤ) : ℤ := (n + 2 ^ 63) % 2 ^ 64 - 2 ^ 63

/-- `-EINVAL`. -/
def einval : ℤ := -22

/-- `-EOVERFLOW`. -/
def eoverflow : ℤ := -75

/-- What `l_start` counts from: `SEEK_SET`, `SEEK_CUR` or `SEEK_END`. -/
def seekBase (fPos iSize lWhence : ℤ) : Option ℤ :=
  if lWhence = 0 then some 0
  else if lWhence = 1 then some fPos
  else if lWhence = 2 then some iSize
  else none

/-- `F_RDLCK`, `F_WRLCK` or `F_UNLCK`. -/
def lockType (lType : ℤ) : Option LockType :=
  if lType = 0 then some .rdlck
  else if lType = 1 then some .wrlck
  else if lType = 2 then some .unlck
  else none

/-- `fl_start` and `fl_end` for `l_len`, from the start on. -/
def flockRange (start lLen : ℤ) : Except ℤ (ℤ × ℤ) :=
  if 0 < lLen then .ok (start, loff (loff (start + lLen) - 1))
  else if lLen < 0 then
    if loff (start + lLen) < 0 then .error einval
    else .ok (loff (start + lLen), loff (start - 1))
  else .ok (start, offsetMax)

def flock64ToPosixLock (fPos iSize lWhence lStart lLen lType : ℤ) : Except ℤ (LockType × ℤ × ℤ) :=
  match seekBase fPos iSize lWhence with
  | none => .error einval
  | some base =>
    if loff (base + lStart) < 0 then .error einval
    else
      match flockRange (loff (base + lStart)) lLen with
      | .error e => .error e
      | .ok (flStart, flEnd) =>
        if flEnd < flStart then .error eoverflow
        else
          match lockType lType with
          | none => .error einval
          | some flType => .ok (flType, flStart, flEnd)

/-- The `len` bytes from `pos` on, all from there on if `len` is 0, or the `-len` bytes before it,
as a range of offsets. -/
structure IsRange (pos len first last : ℤ) : Prop where
  forward : 0 < len → first = pos ∧ last = pos + len - 1
  rest : len = 0 → first = pos ∧ last = offsetMax
  backward : len < 0 → first = pos + len ∧ last = pos - 1
  nonneg : 0 ≤ first
  le : first ≤ last
  last_le : last ≤ offsetMax

variable {fPos iSize lWhence lStart lLen lType base start first last : ℤ} {t : LockType}

theorem flockRange_eq_ok_iff : flockRange start lLen = .ok (first, last) ↔
    0 < lLen ∧ first = start ∧ last = loff (loff (start + lLen) - 1) ∨
    lLen < 0 ∧ 0 ≤ first ∧ first = loff (start + lLen) ∧ last = loff (start - 1) ∨
    lLen = 0 ∧ first = start ∧ last = offsetMax := by
  rw [flockRange]
  split_ifs <;> simp <;> omega

theorem flock64ToPosixLock_eq_ok_iff (hba : seekBase fPos iSize lWhence = some base)
    (hty : lockType lType = some t) :
    flock64ToPosixLock fPos iSize lWhence lStart lLen lType = .ok (t, first, last) ↔
      0 ≤ loff (base + lStart) ∧ flockRange (loff (base + lStart)) lLen = .ok (first, last) ∧
        first ≤ last := by
  rw [flock64ToPosixLock, hba, hty]
  dsimp only
  rcases flockRange (loff (base + lStart)) lLen with e | ⟨a, b⟩
  · split_ifs <;> simp
  dsimp only
  split_ifs <;> simp <;> omega

/-- **`flock64_to_posix_lock` accepts the ranges that POSIX has, and these ranges**, unless it is
given the last bytes of all by their length before an end that is no offset. -/
theorem flock64ToPosixLock_exact_iff (hpos : 0 ≤ fPos ∧ fPos < 2 ^ 63)
    (hsize : 0 ≤ iSize ∧ iSize < 2 ^ 63) (hbase : seekBase fPos iSize lWhence = some base)
    (hstart : -2 ^ 63 ≤ lStart ∧ lStart < 2 ^ 63) (hlen : -2 ^ 63 ≤ lLen ∧ lLen < 2 ^ 63)
    (htype : lockType lType = some t) :
    (∀ first last, flock64ToPosixLock fPos iSize lWhence lStart lLen lType = .ok (t, first, last) ↔
      IsRange (base + lStart) lLen first last) ↔ ¬ (base + lStart = 2 ^ 63 ∧ lLen < 0) := by
  have hb : 0 ≤ base ∧ base < 2 ^ 63 := by
    rw [seekBase] at hbase
    split_ifs at hbase <;> cases hbase <;> omega
  have hmax : offsetMax = 2 ^ 63 - 1 := rfl
  simp only [flock64ToPosixLock_eq_ok_iff hbase htype, flockRange_eq_ok_iff, loff]
  constructor
  · rintro h ⟨hend, hneg⟩
    have hrange : IsRange (base + lStart) lLen (2 ^ 63 + lLen) offsetMax := by
      constructor <;> omega
    have := ((h _ _).2 hrange).1
    omega
  intro h first last
  constructor
  · rintro ⟨hge, hr, hle⟩
    constructor <;> omega
  rintro ⟨hforward, hrest, hbackward, hge, hle, hlast⟩
  rcases lt_trichotomy lLen 0 with hneg | hzero | hpos
  · obtain ⟨rfl, rfl⟩ := hbackward hneg
    exact ⟨by omega, .inr (.inl ⟨hneg, hge, by omega, by omega⟩), hle⟩
  · obtain ⟨rfl, rfl⟩ := hrest hzero
    exact ⟨by omega, .inr (.inr ⟨hzero, by omega, rfl⟩), hle⟩
  obtain ⟨rfl, rfl⟩ := hforward hpos
  exact ⟨by omega, .inl ⟨hpos, by omega, by omega⟩, hle⟩

theorem flock64ToPosixLock_exact_before :
    (∀ first last, flock64ToPosixLock 0 0 0 5 (-2) 1 = .ok (.wrlck, first, last) ↔
      IsRange (0 + 5) (-2) first last) ↔ ¬ ((0 + 5 : ℤ) = 2 ^ 63 ∧ (-2 : ℤ) < 0) :=
  flock64ToPosixLock_exact_iff (by decide) (by decide) rfl (by decide) (by decide) rfl

/-- The last offset is the byte before `2 ^ 63`, and is refused. -/
theorem flock64ToPosixLock_refused :
    flock64ToPosixLock 0 (2 ^ 63 - 1) 2 1 (-1) 1 = .error einval ∧
      IsRange (2 ^ 63 - 1 + 1) (-1) (2 ^ 63 - 1) (2 ^ 63 - 1) :=
  ⟨rfl, by constructor <;> decide⟩

end NestLinux.Locks
