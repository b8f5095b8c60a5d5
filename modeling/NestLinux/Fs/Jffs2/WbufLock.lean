import NestLinux.Fs.Jffs2.WbufRun

/-!
# The lock of the JFFS2 write buffer

`jffs2_flash_writev` with its error paths: each flush of the buffer, each write of pages and the
allocation in `jffs2_sum_add_kvec` succeeds or fails. The bytes are left out; what decides the
path is where the buffer is and how full it is.
-/

namespace NestLinux.WbufLock

open Lib (add32)
open Wbuf (Geometry pageDiv pageMod sectorAddr pad noOfs twoBlocks)

/-- Where the buffer is, how full it is, and whether `sum_size` is `JFFS2_SUMMARY_NOSUM_SIZE`. -/
structure Buffer where
  ofs : ℕ
  len : ℕ
  noSum : Bool
  /-- The calls into the flash so far. -/
  calls : ℕ := 0

/-- What the calls return: a flush also leaves a buffer of its own, a write its `retlen`. -/
structure Outcomes where
  flush : ℕ → Buffer → ℤ × Buffer
  write : ℕ → ℕ → ℤ × ℕ
  kmalloc : Bool

/-- The buffer, and how often `wbuf_sem` was taken and released. -/
structure SbInfo extends Buffer where
  downs : ℕ := 0
  ups : ℕ := 0

inductive Nodetype
  | inode | dirent | xattr | xref | padding | cleanmarker | summary | other
  deriving DecidableEq

variable (g : Geometry) (o : Outcomes)

/-- A result is the buffer with a value, or the `ret` of a `goto outerr` or `goto outfile`. -/
abbrev Result := Except (ℤ × Buffer)

variable (b : Buffer)

/-- `__jffs2_flush_wbuf`. -/
def flushWbuf : Result Buffer :=
  let r := o.flush b.calls b
  let b' := { r.2 with calls := b.calls + 1 }
  if r.1 = 0 then .ok b' else .error (r.1, b')

/-- `jffs2_fill_wbuf`, and the flush of a full buffer. -/
def fillFlush (vlen : ℕ) : Result (ℕ × Buffer) :=
  let n := if vlen ≠ 0 ∧ b.len = 0 ∧ g.pagesize ≤ vlen then 0 else min vlen (g.pagesize - b.len)
  let b := { b with len := b.len + n }
  if b.len = g.pagesize then (n, ·) <$> flushWbuf o b else .ok (n, b)

/-- The whole pages of a vector go to the flash. -/
def writePages (outvecTo vlen : ℕ) : Result (ℕ × Buffer) :=
  if g.pagesize ≤ vlen then
    let r := o.write b.calls (pageDiv g vlen)
    let b := { b with calls := b.calls + 1 }
    if r.1 < 0 ∨ r.2 ≠ pageDiv g vlen then .error (r.1, b)
    else .ok (r.2, { b with ofs := add32 outvecTo r.2 })
  else .ok (0, b)

/-- The loop of `jffs2_flash_writev` over the lengths of the vectors. -/
def writeVecs : ℕ → Buffer → List ℕ → Result Buffer
  | _, b, [] => .ok b
  | outvecTo, b, vlen :: invecs => do
    let r1 ← fillFlush g o b vlen
    let to1 := add32 outvecTo r1.1
    let r2 ← writePages g o r1.2 to1 (vlen - r1.1)
    let r3 ← fillFlush g o r2.2 (vlen - r1.1 - r2.1)
    writeVecs (add32 (add32 to1 r2.1) r3.1) r3.2 invecs

/-- A write to a new block flushes what is in the buffer first. -/
def switchBlock (dst : ℕ) : Result Buffer :=
  let b := if b.ofs = noOfs then { b with ofs := pageDiv g dst, len := pageMod g dst } else b
  if sectorAddr g dst ≠ sectorAddr g b.ofs then do
    let b ← if b.len ≠ 0 then flushWbuf o b else pure b
    return { b with ofs := pageDiv g dst, len := pageMod g dst }
  else return b

def alignWbuf (dst : ℕ) : Result Buffer :=
  if b.len ≠ pageMod g dst then
    if pageMod g dst = 0 then flushWbuf o { b with len := g.pagesize }
    else return { b with len := pageMod g dst }
  else return b

/-- `jffs2_flash_writev` up to the summary; `none` is its `BUG()`. -/
def writeAll (invecs : List ℕ) (dst : ℕ) : Option (Result Buffer) :=
  match switchBlock g o b dst with
  | .error e => some (.error e)
  | .ok b =>
    if dst ≠ pad (add32 b.ofs b.len) then none
    else some (alignWbuf g o b dst >>= (writeVecs g o dst · invecs))

/-- `jffs2_sum_add_kvec` for `count` vectors, the first of which is a node of type `t`. -/
def sumAddKvec (noSum : Bool) (t : Nodetype) (count : ℕ) : Option ℤ :=
  if noSum then some 0
  else match t with
    | .inode | .xattr | .xref => some (if o.kmalloc then 0 else -12)
    | .dirent =>
      if !o.kmalloc then some (-12) else if count = 1 ∨ count = 2 then some 0 else none
    | .padding | .cleanmarker | .summary => some 0
    | .other => none

/-- `jffs2_flash_writev`: what it returns, and the state. -/
def flashWritev (c : SbInfo) (t : Nodetype) (invecs : List ℕ) (dst : ℕ) : Option (ℤ × SbInfo) := do
  let downs := c.downs + 1
  match ← writeAll g o c.toBuffer invecs dst with
  | .error e => return (e.1, { e.2 with downs := downs, ups := c.ups + 1 })
  | .ok b =>
    let res ← sumAddKvec o b.noSum t invecs.length
    if res ≠ 0 then return (res, { b with downs := downs, ups := c.ups })
    else return (0, { b with downs := downs, ups := c.ups + 1 })

/-- The types of node for which `jffs2_sum_add_kvec` allocates. -/
def Nodetype.Allocates (t : Nodetype) : Prop := t = inode ∨ t = dirent ∨ t = xattr ∨ t = xref

/-- The vectors were written, and then the allocation for the summary fails. -/
def NoMem (c : SbInfo) (t : Nodetype) (invecs : List ℕ) (dst : ℕ) : Prop :=
  ∃ b, writeAll g o c.toBuffer invecs dst = some (.ok b) ∧ b.noSum = false ∧ t.Allocates ∧
    o.kmalloc = false

variable {g o} {c c' : SbInfo} {t : Nodetype} {invecs : List ℕ} {dst : ℕ} {ret : ℤ}

theorem sumAddKvec_ne_zero_iff {noSum : Bool} {count : ℕ} {res : ℤ}
    (h : sumAddKvec o noSum t count = some res) :
    res ≠ 0 ↔ noSum = false ∧ t.Allocates ∧ o.kmalloc = false := by
  unfold sumAddKvec at h
  cases noSum <;> cases t <;> cases hk : o.kmalloc <;>
    simp_all [Nodetype.Allocates] <;> omega

/-- The lock is released as often as it was taken, unless the summary has no memory. -/
theorem wbufSem_released_iff (h : flashWritev g o c t invecs dst = some (ret, c')) :
    c'.downs + c.ups = c'.ups + c.downs ↔ ¬ NoMem g o c t invecs dst := by
  unfold flashWritev at h
  simp only [Option.bind_eq_bind, Option.bind_eq_some_iff] at h
  obtain ⟨r, hwrite, h⟩ := h
  cases r with
  | error e =>
    cases h
    simp [NoMem, hwrite]
    omega
  | ok b =>
    obtain ⟨res, hsum, h⟩ := Option.bind_eq_some_iff.1 h
    have hiff := sumAddKvec_ne_zero_iff hsum
    by_cases hres : res ≠ 0
    · rw [if_pos hres] at h
      cases h
      simp [NoMem, hwrite, hiff.1 hres]
      omega
    rw [if_neg hres] at h
    cases h
    simp [NoMem, hwrite, ← hiff, not_not.1 hres]
    omega

/-! ## Without errors -/

variable (g) in
/-- Every write to the flash succeeds. -/
def allWritten (kmalloc : Bool) : Outcomes where
  flush _ b := (0, if b.len = 0 then b else { b with ofs := add32 b.ofs g.pagesize, len := 0 })
  write _ len := (0, len)
  kmalloc := kmalloc

/-- The buffer is that of the model with the bytes. -/
def Sees (b : Buffer) (w : Wbuf.SbInfo) : Prop := b.ofs = w.ofs ∧ b.len = w.len

section Sees

variable {k : Bool} {b : Buffer} {w : Wbuf.SbInfo}

theorem Sees.flushWbuf (h : Sees b w) (mode : Wbuf.PadMode) :
    ∃ b', flushWbuf (allWritten g k) b = .ok b' ∧ Sees b' (Wbuf.flushWbuf g mode w) := by
  refine ⟨_, rfl, ?_⟩
  by_cases hlen : w.len = 0
  · simp [Sees, allWritten, Wbuf.flushWbuf, h.1, h.2, hlen]
  · cases mode <;>
      simp [Sees, allWritten, Wbuf.flushWbuf, Wbuf.mtdWrite, Wbuf.padWbuf, h.1, h.2, hlen]

theorem Sees.fillFlush (h : Sees b w) (v : List Wbuf.Byte) :
    ∃ b', fillFlush g (allWritten g k) b v.length = .ok ((Wbuf.fillFlush g w v).1, b') ∧
      Sees b' (Wbuf.fillFlush g w v).2 := by
  have hfill : (if v.length ≠ 0 ∧ w.len = 0 ∧ g.pagesize ≤ v.length then 0
        else min v.length (g.pagesize - w.len)) = (Wbuf.fillWbuf g w v).1 ∧
      Sees { b with len := w.len + (Wbuf.fillWbuf g w v).1 } (Wbuf.fillWbuf g w v).2 := by
    unfold Wbuf.fillWbuf
    split
    · exact ⟨rfl, h.1, rfl⟩
    · exact ⟨by grind, h.1, rfl⟩
  simp only [WbufLock.fillFlush, Wbuf.fillFlush, h.2, hfill.1, ← hfill.2.2]
  split
  · obtain ⟨b', hflush, h'⟩ := hfill.2.flushWbuf (g := g) (k := k) .noPad
    exact ⟨b', by rw [hflush]; rfl, h'⟩
  · exact ⟨_, rfl, hfill.2⟩

theorem Sees.writePages (h : Sees b w) (outvecTo : ℕ) (v : List Wbuf.Byte) :
    ∃ b', writePages g (allWritten g k) b outvecTo v.length =
        .ok ((Wbuf.writePages g w outvecTo v).1, b') ∧
      Sees b' (Wbuf.writePages g w outvecTo v).2 := by
  by_cases hv : g.pagesize ≤ v.length
  · simp [WbufLock.writePages, Wbuf.writePages, hv, allWritten, Sees, Wbuf.mtdWrite, h.2]
  · simpa [WbufLock.writePages, Wbuf.writePages, hv] using h

theorem Sees.writeVecs (h : Sees b w) (outvecTo : ℕ) (invecs : List (List Wbuf.Byte)) :
    ∃ b', writeVecs g (allWritten g k) outvecTo b (invecs.map List.length) = .ok b' ∧
      Sees b' (Wbuf.writeVecs g outvecTo w invecs) := by
  induction invecs generalizing outvecTo b w with
  | nil => exact ⟨b, rfl, h⟩
  | cons v invecs ih =>
    obtain ⟨b₁, hfill, h₁⟩ := h.fillFlush (g := g) (k := k) v
    obtain ⟨b₂, hpages, h₂⟩ := h₁.writePages (g := g) (k := k) (add32 outvecTo _) (v.drop _)
    obtain ⟨b₃, hrest, h₃⟩ := h₂.fillFlush (g := g) (k := k) ((v.drop _).drop _)
    obtain ⟨b', hvecs, h'⟩ := ih h₃ _
    refine ⟨b', ?_, h'⟩
    rw [List.length_drop] at hpages
    rw [List.length_drop, List.length_drop] at hrest
    simp only [List.map_cons, WbufLock.writeVecs, hfill, bind, Except.bind, hpages, hrest]
    exact hvecs

theorem Sees.switchBlock (h : Sees b w) (dst : ℕ) :
    ∃ b', switchBlock g (allWritten g k) b dst = .ok b' ∧
      Sees b' (Wbuf.switchBlock g (Wbuf.initWbuf g w dst) dst) := by
  have hinit : Sees
      (if b.ofs = noOfs then { b with ofs := pageDiv g dst, len := pageMod g dst } else b)
      (Wbuf.initWbuf g w dst) := by
    unfold Wbuf.initWbuf
    rw [h.1]
    split
    · exact ⟨rfl, rfl⟩
    · exact h
  simp only [WbufLock.switchBlock, Wbuf.switchBlock, hinit.1, hinit.2]
  split
  · split
    · obtain ⟨b', hflush, -⟩ := hinit.flushWbuf (g := g) (k := k) .padNoaccount
      exact ⟨_, by rw [hflush]; rfl, rfl, rfl⟩
    · exact ⟨_, rfl, rfl, rfl⟩
  · exact ⟨_, rfl, hinit⟩

theorem Sees.alignWbuf (h : Sees b w) (dst : ℕ) :
    ∃ b', alignWbuf g (allWritten g k) b dst = .ok b' ∧ Sees b' (Wbuf.alignWbuf g w dst) := by
  simp only [WbufLock.alignWbuf, Wbuf.alignWbuf, h.2]
  split
  · split
    · have hfull : Sees { b with len := g.pagesize } { w with len := g.pagesize } := ⟨h.1, rfl⟩
      exact hfull.flushWbuf _
    · exact ⟨_, rfl, h.1, rfl⟩
  · exact ⟨_, rfl, h⟩

/-- Without errors a write does to the buffer what the model with the bytes does. -/
theorem Sees.writeAll (h : Sees b w) (invecs : List (List Wbuf.Byte)) (dst : ℕ) :
    Option.Rel (fun r w' => ∃ b', r = .ok b' ∧ Sees b' w')
      (writeAll g (allWritten g k) b (invecs.map List.length) dst)
      (Wbuf.flashWritev g w invecs dst) := by
  obtain ⟨b₁, hswitch, h₁⟩ := h.switchBlock (g := g) (k := k) dst
  obtain ⟨b₂, halign, h₂⟩ := h₁.alignWbuf (g := g) (k := k) dst
  simp only [WbufLock.writeAll, Wbuf.flashWritev, hswitch, h₁.1, h₁.2]
  split
  · exact .none
  · rw [halign]
    exact .some (h₂.writeVecs dst invecs)

end Sees

/-- Nothing is in the buffer, and the lock is free. -/
def mounted : SbInfo := { ofs := noOfs, len := 0, noSum := false }

/-- Five bytes of an inode are written, and there is no memory for the summary. -/
theorem wbufSem_kept :
    ((flashWritev twoBlocks (allWritten twoBlocks false) mounted .inode [3, 2] 8).map
      fun r => (r.1, r.2.downs, r.2.ups)) = some (-12, 1, 0) := by
  decide

theorem wbufSem_released_iff_fiveBytes :
    flashWritev twoBlocks (allWritten twoBlocks true) mounted .inode [3, 2] 8 =
      some (0, { ofs := 12, len := 1, noSum := false, calls := 1, downs := 1, ups := 1 }) ∧
    ¬ NoMem twoBlocks (allWritten twoBlocks true) mounted .inode [3, 2] 8 := by
  constructor
  · rfl
  · exact (@wbufSem_released_iff _ _ _ ⟨⟨12, 1, false, 1⟩, 1, 1⟩ _ _ _ 0 rfl).1 rfl

end NestLinux.WbufLock
