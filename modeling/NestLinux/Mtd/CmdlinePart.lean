import NestLinux.Kernel.Strtoul

/-!
# Partitions on the command line

A model of `drivers/mtd/cmdlinepart.c`, with `unsigned long` of 32 bits and partition offsets and
sizes of 64. `newpart` reads the definitions of one device from the front and enters them from the
back: the names go one after the other into the memory behind the table. Memory can be had.
-/

namespace NestLinux.Mtd.CmdlinePart

open Strtoul List

def sizeRemaining : ℕ := 2 ^ 32 - 1

def offsetContinuous : ℕ := 2 ^ 32 - 1

def pageSize : ℕ := 4096

/-- `memparse`: the number, and what is left of the string. -/
def memparse (ptr : List Char) : ℕ × List Char :=
  let (ret, endptr) := simpleStrtoull ptr 0
  match endptr with
  | [] => (ret, [])
  | c :: rest =>
    if c = 'G' ∨ c = 'g' then (ret <<< 30 % 2 ^ 64, rest)
    else if c = 'M' ∨ c = 'm' then (ret <<< 20 % 2 ^ 64, rest)
    else if c = 'K' ∨ c = 'k' then (ret <<< 10 % 2 ^ 64, rest)
    else (ret, endptr)

/-- `struct mtd_partition`, with the two flags that may be masked. The name is where it starts in
the memory behind the table. -/
structure MtdPartition where
  size : ℕ
  offset : ℕ
  ro : Bool
  lk : Bool
  name : ℕ

/-- What `newpart` returns: the table from this partition on, what is left of the command line, the
memory behind the table and where it is free. -/
structure Table where
  parts : List MtdPartition
  retptr : List Char
  extraMem : List Char
  extraMemPtr : ℕ

/-- A string and its NUL are written. -/
def strcpy (mem : List Char) (dest : ℕ) (src : List Char) : List Char :=
  mem.take dest ++ (src ++ '\x00' :: mem.drop (dest + src.length + 1))

/-- `sprintf` with `"Partition_%03d"`. -/
def partitionName (n : ℕ) : List Char :=
  let digits := Nat.toDigits 10 n
  ['P', 'a', 'r', 't', 'i', 't', 'i', 'o', 'n', '_'] ++ replicate (3 - digits.length) '0' ++ digits

/-- A partition is entered into the table. -/
def Table.enter (t : Table) (size offset : ℕ) (ro lk : Bool) (name : Option (List Char))
    (thisPart : ℕ) : Table :=
  let nameLen := name.elim 13 length
  { t with
    parts := ⟨size, offset, ro, lk, t.extraMemPtr⟩ :: t.parts
    extraMem := strcpy t.extraMem t.extraMemPtr (name.getD (partitionName thisPart))
    extraMemPtr := t.extraMemPtr + nameLen + 1 }

/-- The size of a partition, and the string after it. -/
def fetchSize (s : List Char) : ℕ × List Char :=
  if s.head? = some '-' then (sizeRemaining, s.tail)
  else ((memparse s).1 % 2 ^ 32, (memparse s).2)

/-- The offset of a partition, if it has one, and the string after it. -/
def fetchOffset (s : List Char) : ℕ × List Char :=
  if s.head? = some '@' then ((memparse s.tail).1 % 2 ^ 32, (memparse s.tail).2)
  else (offsetContinuous, s)

/-- The name in brackets, if there is one, and the string after it; none if it has no end. -/
def fetchName (s : List Char) : Option (Option (List Char) × List Char) :=
  match s with
  | '(' :: name =>
    let p := name.dropWhile (· ≠ ')')
    if p = [] then none else some (some (name.takeWhile (· ≠ ')')), p.tail)
  | s => some (none, s)

/-- Whether the string starts with the two letters of an option, and the string after them. -/
def fetchOption (option s : List Char) : Bool × List Char :=
  if s.take 2 = option then (true, s.drop 2) else (false, s)

/-- `newpart`, for a string shorter than `fuel`; none if the definition is refused. -/
def newpart : ℕ → List Char → ℕ → Option Table
  | 0, _, _ => none
  | fuel + 1, s, thisPart =>
    let (size, s) := fetchSize s
    if size < pageSize then none
    else
      let (offset, s) := fetchOffset s
      match fetchName s with
      | none => none
      | some (name, s) =>
        let (ro, s) := fetchOption ['r', 'o'] s
        let (lk, s) := fetchOption ['l', 'k'] s
        let table :=
          match s with
          | ',' :: s => if size = sizeRemaining then none else newpart fuel s (thisPart + 1)
          | s => some ⟨[], s, [], 0⟩
        table.map fun t => t.enter size offset ro lk name thisPart

/-- `struct cmdline_mtd_partition`. -/
structure CmdlineMtd where
  mtdId : List Char
  table : Table

/-- `mtdpart_setup_real`, for a string shorter than `fuel`: what it returns, and `partitions`. -/
def mtdpartSetupReal : ℕ → List Char → List CmdlineMtd → ℤ × List CmdlineMtd
  | 0, _, partitions => (0, partitions)
  | fuel + 1, s, partitions =>
    match s.dropWhile (· ≠ ':') with
    | [] => (0, partitions)
    | _ :: p =>
      match newpart (p.length + 1) p 0 with
      | none => (0, partitions)
      | some table =>
        let partitions := ⟨s.takeWhile (· ≠ ':'), table⟩ :: partitions
        match table.retptr with
        | [] => (1, partitions)
        | ';' :: s => mtdpartSetupReal fuel s partitions
        | _ => (0, partitions)

/-- The definitions for a device: the first in the chain if it has no name. -/
def partsOf (cmdline : List Char) (name : Option (List Char)) : List MtdPartition :=
  let partitions := (mtdpartSetupReal (cmdline.length + 1) cmdline []).2
  match partitions.find? fun part => name.all (part.mtdId = ·) with
  | none => []
  | some part => part.table.parts

/-- The loop of `parse_cmdline_partitions` over the table: the partitions up to the first that
exceeds the flash. -/
def place (size : ℕ) : ℕ → List MtdPartition → List MtdPartition
  | _, [] => []
  | offset, p :: parts =>
    let p := if p.offset = offsetContinuous then { p with offset := offset } else p
    let offset := p.offset % 2 ^ 32
    let p := if p.size = sizeRemaining then
      { p with size := (2 ^ 64 + size - offset) % 2 ^ 64 } else p
    if size < (offset + p.size) % 2 ^ 64 then []
    else p :: place size ((offset + p.size) % 2 ^ 32) parts

/-- `parse_cmdline_partitions`, for a device of some name and size: the table it returns. -/
def parseCmdlinePartitions (cmdline : List Char) (name : Option (List Char)) (size : ℕ) :
    List MtdPartition :=
  place size 0 (partsOf cmdline name)

variable {size offset fuel thisPart : ℕ} {s : List Char} {table : Table}
  {parts : List MtdPartition} {partitions : List CmdlineMtd} {p : MtdPartition}

/-- The partitions as `newpart` enters them: only the last one can take what is left. -/
def Entered (parts : List MtdPartition) : Prop :=
  (∀ p ∈ parts, p.size < 2 ^ 32 ∧ p.offset < 2 ^ 32) ∧ ∀ p ∈ parts.dropLast, p.size ≠ sizeRemaining

theorem newpart_entered (h : newpart fuel s thisPart = some table) : Entered table.parts := by
  induction fuel generalizing s thisPart table with
  | zero => exact absurd h (by simp [newpart])
  | succ fuel ih =>
    have hword (n : ℕ) : n % 2 ^ 32 < 2 ^ 32 := Nat.mod_lt _ (by decide)
    have hsize : (fetchSize s).1 < 2 ^ 32 := by
      rw [fetchSize]
      split
      · exact show sizeRemaining < 2 ^ 32 by decide
      · exact hword _
    have hoffset (s : List Char) : (fetchOffset s).1 < 2 ^ 32 := by
      rw [fetchOffset]
      split
      · exact hword _
      · exact show offsetContinuous < 2 ^ 32 by decide
    simp only [newpart] at h
    split at h
    · cases h
    split at h
    · cases h
    obtain ⟨t, ht, rfl⟩ := Option.map_eq_some_iff.1 h
    split at ht
    · split at ht
      · cases ht
      · rename_i hrem
        refine ⟨forall_mem_cons.2 ⟨⟨hsize, hoffset _⟩, (ih ht).1⟩, fun p hp => ?_⟩
        rcases hparts : t.parts with _ | ⟨p', parts⟩
        · simp [Table.enter, hparts] at hp
        · rw [Table.enter, hparts, dropLast_cons_cons, ← hparts] at hp
          rcases mem_cons.1 hp with rfl | hp
          · exact hrem
          · exact (ih ht).2 p hp
    · cases ht
      exact ⟨forall_mem_cons.2 ⟨⟨hsize, hoffset _⟩, by simp⟩, by simp [Table.enter]⟩

theorem mtdpartSetupReal_entered (h : ∀ part ∈ partitions, Entered part.table.parts) :
    ∀ part ∈ (mtdpartSetupReal fuel s partitions).2, Entered part.table.parts := by
  induction fuel generalizing s partitions with
  | zero => exact h
  | succ fuel ih =>
    rw [mtdpartSetupReal]
    split
    · exact h
    split
    · exact h
    rename_i table hn
    have hcons := forall_mem_cons (a := (⟨s.takeWhile (· ≠ ':'), table⟩ : CmdlineMtd)) |>.2
      ⟨newpart_entered hn, h⟩
    split
    · exact hcons
    · exact ih hcons
    · exact hcons

theorem partsOf_entered (cmdline : List Char) (name : Option (List Char)) :
    Entered (partsOf cmdline name) := by
  rw [partsOf]
  split
  · simp [Entered]
  rename_i part hpart
  exact mtdpartSetupReal_entered (by simp) part (mem_of_find?_eq_some hpart)

/-- Where a partition starts: at its own offset, or behind the one before it. -/
def startOf (offset : ℕ) (p : MtdPartition) : ℕ :=
  if p.offset = offsetContinuous then offset else p.offset

/-- The partitions as they are defined end inside the flash. -/
def Fits (size : ℕ) : ℕ → List MtdPartition → Prop
  | _, [] => True
  | offset, p :: parts =>
    startOf offset p + p.size ≤ size ∧ Fits size (startOf offset p + p.size) parts

/-- A partition takes what is left behind an offset of its own beyond the flash. -/
def Beyond (size : ℕ) (p : MtdPartition) : Prop :=
  p.size = sizeRemaining ∧ p.offset ≠ offsetContinuous ∧ size < p.offset

theorem place_cons (offset : ℕ) (hp : p.offset < 2 ^ 32) (ho : offset < 2 ^ 32) :
    place size offset (p :: parts) =
      let o := startOf offset p
      let n := if p.size = sizeRemaining then (2 ^ 64 + size - o) % 2 ^ 64 else p.size
      if size < (o + n) % 2 ^ 64 then []
      else { p with offset := o, size := n } :: place size ((o + n) % 2 ^ 32) parts := by
  have hcont : (if p.offset = offsetContinuous then { p with offset := offset } else p) =
      { p with offset := startOf offset p } := by
    rw [startOf]
    split <;> rfl
  have hlt : startOf offset p % 2 ^ 32 = startOf offset p := by
    rw [startOf]
    split <;> omega
  rw [place]
  simp only [hcont, hlt]
  split <;> rfl

/-- **The loop** accepts a partition beyond the flash only as the last one, if those before it
fit. -/
theorem place_inside_iff (hsize : size < 2 ^ 32) (h : Entered parts) (hoff : offset ≤ size) :
    (∀ q ∈ place size offset parts, q.offset + q.size ≤ size) ↔
      ¬ (Fits size offset parts.dropLast ∧ ∃ p ∈ parts.getLast?, Beyond size p) := by
  induction parts generalizing offset with
  | nil => simp [place]
  | cons p parts ih =>
    obtain ⟨⟨hp, hparts⟩, hlast⟩ := And.imp_left forall_mem_cons.1 h
    rw [place_cons offset hp.2 (by omega)]
    have hstart : startOf offset p < 2 ^ 32 := by
      rw [startOf]
      split <;> omega
    rcases parts with _ | ⟨p', parts⟩
    · have hbeyond : size < startOf offset p ↔ p.offset ≠ offsetContinuous ∧ size < p.offset := by
        rw [startOf]
        split <;> omega
      simp only [dropLast_singleton, Fits, getLast?_singleton, Option.mem_some_iff, exists_eq_left',
        Beyond, ← hbeyond, true_and, place]
      split_ifs <;> simp <;> omega
    · rw [dropLast_cons_cons] at hlast ⊢
      obtain ⟨hrem, hlast⟩ := forall_mem_cons.1 hlast
      simp only [if_neg hrem, Fits, getLast?_cons_cons]
      split
      · simp
        omega
      · rw [forall_mem_cons, Nat.mod_eq_of_lt (by omega), ih ⟨hparts, hlast⟩ (by omega)]
        have hfits : startOf offset p + p.size ≤ size := by omega
        simp [hfits]

/-- **The partitions of a device lie inside it** unless the last definition takes what is left
behind an offset of its own beyond the end, and the definitions before it fit. -/
theorem parseCmdlinePartitions_inside_iff (cmdline : List Char) (name : Option (List Char))
    (hsize : size < 2 ^ 32) :
    (∀ q ∈ parseCmdlinePartitions cmdline name size, q.offset + q.size ≤ size) ↔
      ¬ (Fits size 0 (partsOf cmdline name).dropLast ∧
        ∃ p ∈ (partsOf cmdline name).getLast?, Beyond size p) :=
  place_inside_iff hsize (partsOf_entered cmdline name) (Nat.zero_le size)

theorem parseCmdlinePartitions_inside_two :
    {q | q ∈ parseCmdlinePartitions "nor:16k(boot)ro,-".toList none 65536 ∧
      65536 < q.offset + q.size} = ∅ := by
  refine Set.eq_empty_of_forall_notMem fun q hq => Nat.not_lt.2 ?_ hq.2
  refine (parseCmdlinePartitions_inside_iff _ _ (by decide)).2 (fun h => ?_) q hq.1
  obtain ⟨p, hp, hbeyond⟩ := h.2
  have hall : ∀ p ∈ (partsOf "nor:16k(boot)ro,-".toList none).getLast?,
    p.offset = offsetContinuous := by decide +kernel
  exact hbeyond.2.1 (hall p hp)

/-- A device of 64 KB, and a partition behind it. -/
theorem parseCmdlinePartitions_beyond :
    (parseCmdlinePartitions "nor:-@128k(data)".toList none 65536).map
      (fun p => (p.offset, p.size)) =
      [(131072, 2 ^ 64 - 65536)] := by
  decide +kernel

end NestLinux.Mtd.CmdlinePart
