import NestLinux.Lib.Word32
import Mathlib.Algebra.BigOperators.Group.List.Basic
import Mathlib.Algebra.Order.Ring.Int

/-!
# The rtime compressor of JFFS2

Each byte is written with the number of bytes behind it that are the same as those behind its
last occurrence, which both sides find in a table of positions. The decompressor believes what it
reads: it stops only where enough bytes are written. The positions do not wrap, as with data of
less than 2^31 bytes.
-/

namespace NestLinux.Jffs2.Rtime

open Function Lib

def toShort (n : ℕ) : ℤ := Int.bmod n (2 ^ 16)

/-- The inner loop of `jffs2_rtime_compress`: the run from `pos` on, of at most `room` bytes. -/
def runlen (dataIn : ℤ → UInt8) (sourcelen : ℕ) : ℕ → ℤ → ℕ → ℕ
  | 0, _, _ => 0
  | room + 1, backpos, pos =>
    if backpos < pos ∧ pos < sourcelen ∧ dataIn pos = dataIn backpos then
      runlen dataIn sourcelen room (backpos + 1) (pos + 1) + 1
    else 0

/-- The loop of `jffs2_rtime_compress`: what it writes, and `pos`. Each turn takes a byte, so
`sourcelen` turns are enough. -/
def compressLoop (dataIn : ℤ → UInt8) (sourcelen dstlen : ℕ) :
    ℕ → ℕ → ℕ → (UInt8 → ℤ) → List UInt8 × ℕ
  | 0, _, pos, _ => ([], pos)
  | turns + 1, outpos, pos, positions =>
    if pos < sourcelen ∧ outpos ≤ sub32 dstlen 2 then
      let value := dataIn pos
      let run := runlen dataIn sourcelen 255 (positions value) (pos + 1)
      let r := compressLoop dataIn sourcelen dstlen turns (outpos + 2) (pos + 1 + run)
        (update positions value (toShort (pos + 1)))
      (value :: UInt8.ofNat run :: r.1, r.2)
    else ([], pos)

/-- What `jffs2_rtime_compress` writes and how many bytes of the input it stands for, unless it is
no shorter. -/
def rtimeCompress (dataIn : ℤ → UInt8) (sourcelen dstlen : ℕ) : Option (List UInt8 × ℕ) :=
  let r := compressLoop dataIn sourcelen dstlen sourcelen 0 0 fun _ => 0
  if r.2 ≤ r.1.length then none else some r

/-- A run is copied byte by byte, and so may copy itself. -/
def copyRun : ℕ → ℤ → ℕ → (ℤ → UInt8) → ℤ → UInt8
  | 0, _, _, cpageOut => cpageOut
  | n + 1, backoffs, outpos, cpageOut =>
    copyRun n (backoffs + 1) (outpos + 1) (update cpageOut outpos (cpageOut backoffs))

def memcpy (n : ℕ) (backoffs : ℤ) (outpos : ℕ) (cpageOut : ℤ → UInt8) (i : ℤ) : UInt8 :=
  if outpos ≤ i ∧ i < outpos + n then cpageOut (backoffs + (i - outpos)) else cpageOut i

/-- A run is copied as a block if that does not overlap. -/
def copyOut (n : ℕ) (backoffs : ℤ) (outpos : ℕ) (cpageOut : ℤ → UInt8) : ℤ → UInt8 :=
  if outpos ≤ backoffs + n then copyRun n backoffs outpos cpageOut
  else memcpy n backoffs outpos cpageOut

/-- The loop of `jffs2_rtime_decompress`: the output, and what is left of the input. There is no
result if it reads behind the input or writes at `destlen` or behind. -/
def decompressLoop (destlen outpos : ℕ) (positions : UInt8 → ℤ) (cpageOut : ℤ → UInt8) :
    List UInt8 → Option ((ℤ → UInt8) × List UInt8)
  | value :: run :: dataIn =>
    if outpos < destlen then
      if destlen < outpos + 1 + run.toNat then none
      else
        decompressLoop destlen (outpos + 1 + run.toNat)
          (update positions value (toShort (outpos + 1)))
          (copyOut run.toNat (positions value) (outpos + 1) (update cpageOut outpos value)) dataIn
    else some (cpageOut, value :: run :: dataIn)
  | dataIn => if outpos < destlen then none else some (cpageOut, dataIn)

def rtimeDecompress (dataIn : List UInt8) (destlen : ℕ) (cpageOut : ℤ → UInt8) :
    Option ((ℤ → UInt8) × List UInt8) :=
  decompressLoop destlen 0 (fun _ => 0) cpageOut dataIn

variable {dataIn cpageOut : ℤ → UInt8} {sourcelen dstlen destlen outpos pos n : ℕ} {b : ℤ}
  {positions : UInt8 → ℤ} {data out : List UInt8}

/-! ### The round trip -/

theorem runlen_spec (room : ℕ) (dataIn : ℤ → UInt8) (b : ℤ) (hp : pos ≤ sourcelen) :
    runlen dataIn sourcelen room b pos ≤ room ∧
      pos + runlen dataIn sourcelen room b pos ≤ sourcelen ∧
      ∀ k < runlen dataIn sourcelen room b pos, dataIn (pos + k) = dataIn (b + k) := by
  induction room generalizing b pos with
  | zero => simp [runlen, hp]
  | succ room ih =>
    rw [runlen]
    split
    · rename_i hsm
      obtain ⟨hle, he, hr⟩ := ih (b + 1) (show pos + 1 ≤ sourcelen by omega)
      refine ⟨by omega, by omega, fun k hk => ?_⟩
      cases k with
      | zero => simpa using hsm.2.2
      | succ k => simpa [add_comm, add_left_comm] using hr k (by omega)
    · simp [hp]

/-- The output so far is the input. -/
def Same (cpageOut dataIn : ℤ → UInt8) (pos : ℕ) : Prop := ∀ i < pos, cpageOut i = dataIn i

section

variable (h : Same cpageOut dataIn pos)

include h

theorem Same.update {x : UInt8} (hx : x = dataIn pos) :
    Same (update cpageOut pos x) dataIn (pos + 1) := by
  intro i hi
  by_cases hp : i = pos
  · rw [hp, update_self, hx]
  · rw [update_of_ne (by omega), h i (by omega)]

/-- What the runs of the input repeat can be copied from the output. -/
theorem Same.copyRun (hb : 0 ≤ b) (hlt : b < pos)
    (hr : ∀ k < n, dataIn (pos + k) = dataIn (b + k)) :
    Same (copyRun n b pos cpageOut) dataIn (pos + n) := by
  induction n generalizing b pos cpageOut with
  | zero => exact h
  | succ n ih =>
    obtain ⟨i, rfl⟩ := Int.eq_ofNat_of_zero_le hb
    have hz : cpageOut i = dataIn pos := by simpa [h i (by omega)] using (hr 0 (by omega)).symm
    have := ih (h.update hz) (b := i + 1) (by omega) (by push_cast; omega) fun k hk => by
      simpa [add_comm, add_left_comm] using hr (k + 1) (by omega)
    rwa [Nat.add_assoc, Nat.add_comm 1 n] at this

theorem Same.memcpy (hb : 0 ≤ b) (hlt : b + n < pos)
    (hr : ∀ k < n, dataIn (pos + k) = dataIn (b + k)) :
    Same (memcpy n b pos cpageOut) dataIn (pos + n) := by
  intro i hi
  rw [Rtime.memcpy]
  split
  · obtain ⟨j, rfl⟩ := Int.eq_ofNat_of_zero_le hb
    obtain ⟨k, rfl⟩ := Nat.exists_eq_add_of_le (show pos ≤ i by omega)
    have hj := h (j + k) (by omega)
    simp_all
  · exact h i (by omega)

theorem Same.copyOut (hb : 0 ≤ b) (hlt : b < pos)
    (hr : ∀ k < n, dataIn (pos + k) = dataIn (b + k)) :
    Same (copyOut n b pos cpageOut) dataIn (pos + n) := by
  rw [Rtime.copyOut]
  split
  · exact h.copyRun hb hlt hr
  · exact h.memcpy hb (by omega) hr

end

/-- A table of positions that were passed. -/
def Behind (positions : UInt8 → ℤ) (pos : ℕ) : Prop := ∀ x, 0 ≤ positions x ∧ positions x ≤ pos

theorem Behind.update (h : Behind positions pos) (hlt : pos + 1 < 2 ^ 15) (x : UInt8) (n : ℕ) :
    Behind (update positions x (toShort (pos + 1))) (pos + 1 + n) := by
  intro y
  have hsh : toShort (pos + 1) = (pos + 1 : ℕ) :=
    Int.bmod_eq_of_le_mul_two (by omega) (by push_cast; omega)
  by_cases hy : y = x
  · rw [hy, update_self]
    omega
  rw [update_of_ne hy]
  have := h y
  omega

/-- The decompressor comes to where the compressor was, with the same table. -/
theorem decompressLoop_compressLoop {turns last : ℕ} (hl : sourcelen < 2 ^ 15)
    (hp : pos ≤ sourcelen) (hbk : Behind positions pos) (hsm : Same cpageOut dataIn pos)
    (h : compressLoop dataIn sourcelen dstlen turns outpos pos positions = (out, last)) :
    pos ≤ last ∧ last ≤ sourcelen ∧
      ∃ c, decompressLoop last pos positions cpageOut out = some (c, []) ∧ Same c dataIn last := by
  induction turns generalizing outpos pos positions cpageOut out with
  | zero =>
    obtain ⟨rfl, rfl⟩ := Prod.mk.inj h
    exact ⟨le_rfl, hp, cpageOut, if_neg (Nat.lt_irrefl pos), hsm⟩
  | succ turns ih =>
    rw [compressLoop] at h
    split at h
    · obtain ⟨rfl, rfl⟩ := Prod.mk.inj h
      obtain ⟨hz, hle⟩ := hbk (dataIn pos)
      obtain ⟨hr, he, hmat⟩ :=
        runlen_spec 255 dataIn (positions (dataIn pos)) (show pos + 1 ≤ sourcelen by omega)
      set run := runlen dataIn sourcelen 255 (positions (dataIn pos)) (pos + 1)
      have hby : (UInt8.ofNat run).toNat = run := by simp; omega
      have hnx := (hsm.update rfl).copyOut hz (by omega) hmat
      have := ih he (hbk.update (by omega) (dataIn pos) run) hnx rfl
      refine ⟨by omega, by omega, ?_⟩
      rw [decompressLoop, if_pos (by omega), hby, if_neg (by omega)]
      exact this.2.2
    · obtain ⟨rfl, rfl⟩ := Prod.mk.inj h
      exact ⟨le_rfl, hp, cpageOut, if_neg (Nat.lt_irrefl pos), hsm⟩

/-- **The decompressor gives back what was compressed**, and reads all of it. -/
theorem rtimeDecompress_rtimeCompress (hlen : sourcelen ≤ 32767)
    (h : rtimeCompress dataIn sourcelen dstlen = some (out, pos)) (cpageOut : ℤ → UInt8) :
    pos ≤ sourcelen ∧ ∃ c, rtimeDecompress out pos cpageOut = some (c, []) ∧ Same c dataIn pos := by
  rw [rtimeCompress] at h
  split at h
  · contradiction
  exact (decompressLoop_compressLoop (by omega) (Nat.zero_le _) (fun _ => ⟨le_rfl, le_rfl⟩)
    nofun (Option.some.inj h)).2

theorem rtimeDecompress_rtimeCompress_zeros :
    rtimeCompress (fun _ => 0) 5 8 = some ([0, 4], 5) ∧
      ∃ c, rtimeDecompress [0, 4] 5 (fun _ => 7) = some (c, []) ∧ Same c (fun _ => 0) 5 :=
  have h : rtimeCompress (fun _ => 0) 5 8 = some ([0, 4], 5) := rfl
  ⟨h, (rtimeDecompress_rtimeCompress (by decide) h _).2⟩

/-! ### Confinement -/

/-- Pairs at the start of the input stand for that many bytes. -/
def StandsFor (data : List UInt8) (n : ℕ) : Prop :=
  ∃ pairs : List (UInt8 × UInt8), pairs.flatMap (fun p => [p.1, p.2]) <+: data ∧
    (pairs.map fun p => p.2.toNat + 1).sum = n

theorem standsFor_zero : StandsFor data 0 := ⟨[], List.nil_prefix, rfl⟩

theorem standsFor_cons_iff {value run : UInt8} (hn : 0 < n) :
    StandsFor (value :: run :: data) n ↔ run.toNat < n ∧ StandsFor data (n - (run.toNat + 1)) := by
  constructor
  · rintro ⟨_ | ⟨p, pairs⟩, hp, rfl⟩
    · simp at hn
    obtain ⟨-, rfl, hpr⟩ : p.1 = value ∧ p.2 = run ∧ _ := by simpa using hp
    exact ⟨by simp; omega, pairs, hpr, by simp⟩
  rintro ⟨hlt, pairs, hp, hsm⟩
  refine ⟨(value, run) :: pairs, by simpa using hp, ?_⟩
  simp only [List.map_cons, List.sum_cons]
  omega

theorem isSome_decompressLoop (hle : outpos ≤ destlen) :
    (decompressLoop destlen outpos positions cpageOut data).isSome ↔
      StandsFor data (destlen - outpos) := by
  fun_induction decompressLoop destlen outpos positions cpageOut data with
  | case1 outpos positions cpageOut value run data hlt hbey =>
    rw [standsFor_cons_iff (by omega)]
    simp
    omega
  | case2 outpos positions cpageOut value run data hlt hin ih =>
    rw [standsFor_cons_iff (by omega), ih (by omega), and_iff_right (by omega)]
    congr! 1
    omega
  | case3 outpos positions cpageOut value run data hge =>
    simp [Nat.sub_eq_zero_of_le (Nat.not_lt.1 hge), standsFor_zero]
  | case4 outpos positions cpageOut data hsh hlt =>
    refine iff_of_false (by simp) ?_
    rintro ⟨_ | ⟨p, pairs⟩, ⟨rest, hda⟩, hsm⟩
    · simp at hsm
      omega
    · exact hsh _ _ _ hda.symm
  | case5 outpos positions cpageOut data hsh hge =>
    simp [Nat.sub_eq_zero_of_le (Nat.not_lt.1 hge), standsFor_zero]

/-- **`jffs2_rtime_decompress` stays inside of both buffers** if and only if pairs at the start of
the input stand for `destlen` bytes. -/
theorem rtimeDecompress_confined_iff (data : List UInt8) (destlen : ℕ) (cpageOut : ℤ → UInt8) :
    (rtimeDecompress data destlen cpageOut).isSome ↔ StandsFor data destlen :=
  isSome_decompressLoop (Nat.zero_le destlen)

/-- A run that is longer than the output, and an output that is longer than the input says. -/
theorem rtimeDecompress_beyond :
    (rtimeDecompress [0, 255] 1 fun _ => 0) = none ∧ (rtimeDecompress [0, 0] 2 fun _ => 0) = none :=
  ⟨rfl, rfl⟩

end NestLinux.Jffs2.Rtime
