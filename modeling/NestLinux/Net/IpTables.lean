import NestLinux.Lib.Buffer
import NestLinux.Lib.Interpreter
import NestLinux.Lib.Word32

/-!
# Loading a table of rules

`net/ipv4/netfilter/ip_tables.c` takes a table of rules from user space as a block of bytes: each
rule has a header with two offsets, to its target and to the next rule, then its matches, then
its target. `translate_table` walks over the rules and checks their sizes, and where the hooks
enter the table and what they fall back to. `mark_source_chains` then follows the jumps from each
hook, to find loops and to note in each rule the hooks that lead to it; it keeps the way back in
the packet counters, and whether a rule is on the way in a bit of `comefrom`.

Positions are offsets into the block. What is read and written there is bytes, wherever an
offset leads; an access that is not inside of the block is a fault, and ends the model. The
layout is that of a 32-bit little-endian machine.
-/

namespace NestLinux.IpTables

open Lib Function

/-! ## Accesses -/

/-- What the calls return other than 0. -/
inductive Errno
  | einval
  | eloop
  deriving DecidableEq, Repr

/-- Why a table is not loaded: an access outside of it, or a check that fails. -/
inductive Fail
  | fault
  | errno (e : Errno)
  deriving DecidableEq, Repr

variable (b : Buffer)

/-- Read a field of `k` bytes. -/
def read (a k : ℕ) : Except Fail ℕ :=
  match b.load a k with
  | some v => .ok v
  | none => .error .fault

/-- Write a field of `k` bytes. -/
def write (a k v : ℕ) : Except Fail Buffer :=
  match b.store a k v with
  | some b => .ok b
  | none => .error .fault

/-- `strcmp` with a string, its last byte 0 included: whether they are equal. It reads up to
the first difference. -/
def strcmpEq (b : Buffer) (a : ℕ) : List ℕ → Except Fail Bool
  | [] => .ok true
  | c :: cs => do
    let x ← read b a 1
    if x = c then strcmpEq b (a + 1) cs else .ok false

/-- A 32-bit word as an `int`. -/
def asInt (v : ℕ) : ℤ := if v < 2 ^ 31 then v else (v : ℤ) - 2 ^ 32

/-! ## Rules -/

/-- `NF_INET_NUMHOOKS`. -/
def numHooks : ℕ := 5

/-- `sizeof(struct ipt_entry)`. -/
def sizeofEntry : ℕ := 112

/-- `XT_STANDARD_TARGET`. -/
def standardTarget : List ℕ := [0]

/-- `XT_ERROR_TARGET`. -/
def errorTarget : List ℕ := [69, 82, 82, 79, 82, 0]

/-- `e->target_offset`. -/
def readTargetOffset (e : ℕ) : Except Fail ℕ := read b (e + 88) 2

/-- `e->next_offset`. -/
def readNextOffset (e : ℕ) : Except Fail ℕ := read b (e + 90) 2

/-- `e->comefrom`. -/
def readComefrom (e : ℕ) : Except Fail ℕ := read b (e + 92) 4

/-- `e->comefrom = v`. -/
def writeComefrom (e v : ℕ) : Except Fail Buffer := write b (e + 92) 4 v

/-- `e->counters.pcnt`, as an `unsigned int`. -/
def readPcnt (e : ℕ) : Except Fail ℕ := do
  let v ← read b (e + 96) 8
  return v % 2 ^ 32

/-- `e->counters.pcnt = v`. -/
def writePcnt (e v : ℕ) : Except Fail Buffer := write b (e + 96) 8 v

/-- `strcmp(t->u.user.name, name) == 0`. -/
def targetIs (t : ℕ) (name : List ℕ) : Except Fail Bool := strcmpEq b (t + 2) name

/-- `((struct xt_standard_target *)t)->verdict`. -/
def readVerdict (t : ℕ) : Except Fail ℕ := read b (t + 32) 4

/-- `unconditional(&e->ip)`: all bytes are 0. -/
def unconditional (e : ℕ) : Except Fail Bool := do
  let ip ← read b e 84
  return decide (ip = 0)

/-! ## The walk -/

/-- `struct ipt_replace`. The size is that of the block. -/
structure Replace where
  numEntries : ℕ
  hookEntry : ℕ → ℕ
  underflow : ℕ → ℕ
  validHooks : ℕ

/-- `struct xt_table_info`. -/
structure Info where
  hookEntry : ℕ → ℕ
  underflow : ℕ → ℕ
  stacksize : ℕ

def checkUnderflow (e : ℕ) : Except Fail Bool := do
  let always ← unconditional b e
  if !always then return false
  else
    let targetOffset ← readTargetOffset b e
    let standard ← targetIs b (e + targetOffset) standardTarget
    if !standard then return false
    else
      let verdict ← readVerdict b (e + targetOffset)
      -- `-verdict - 1` is NF_DROP or NF_ACCEPT
      let verdict := 2 ^ 32 - 1 - verdict
      return decide (verdict = 0 ∨ verdict = 1)

/-- The loop of `check_entry_size_and_hooks` over some hooks. -/
def checkHooks (repl : Replace) (b : Buffer) (e : ℕ) : List ℕ → Info → Except Fail Info
  | [], info => .ok info
  | h :: hs, info =>
    if !repl.validHooks.testBit h then checkHooks repl b e hs info
    else
      let info :=
        if e = repl.hookEntry h then
          { info with hookEntry := update info.hookEntry h (repl.hookEntry h) }
        else info
      if e = repl.underflow h then do
        let ok ← checkUnderflow b e
        if !ok then .error (.errno .einval)
        else
          checkHooks repl b e hs
            { info with underflow := update info.underflow h (repl.underflow h) }
      else checkHooks repl b e hs info

def checkEntrySizeAndHooks (repl : Replace) (b : Buffer) (info : Info) (e : ℕ) :
    Except Fail (Buffer × Info) := do
  if e % 8 ≠ 0 ∨ b.size ≤ e + sizeofEntry then .error (.errno .einval)
  else
    let nextOffset ← readNextOffset b e
    if nextOffset < 144 then .error (.errno .einval)
    else
      let info ← checkHooks repl b e (List.range numHooks) info
      -- Clear counters and comefrom
      let b ← write b (e + 96) 16 0
      let b ← writeComefrom b e 0
      return (b, info)

/-- What the walk of `translate_table` changes. -/
structure Walk where
  block : Buffer
  info : Info
  i : ℕ
  pos : ℕ

def walkEntry (repl : Replace) (w : Walk) : Except Fail Walk := do
  let (b, info) ← checkEntrySizeAndHooks repl w.block w.info w.pos
  let targetOffset ← readTargetOffset b w.pos
  let isError ← targetIs b (w.pos + targetOffset) errorTarget
  let info := if isError then { info with stacksize := info.stacksize + 1 } else info
  let nextOffset ← readNextOffset b w.pos
  return ⟨b, info, w.i + 1, w.pos + nextOffset⟩

/-- The walk goes on while it is in the block. -/
def walkStep (repl : Replace) (w : Walk) : Outcome Walk (Except Fail Walk) :=
  if w.block.size ≤ w.pos then .done (.ok w)
  else
    match walkEntry repl w with
    | .error f => .done (.error f)
    | .ok w => .next w

/-- The checks of `translate_table` after the walk: the number of entries, and that the hooks
are all assigned. -/
def checkAssigned (repl : Replace) (w : Walk) : Bool :=
  decide (w.i = repl.numEntries) &&
    (List.range numHooks).all fun h => !repl.validHooks.testBit h ||
      (decide (w.info.hookEntry h ≠ 0xFFFFFFFF) && decide (w.info.underflow h ≠ 0xFFFFFFFF))

/-! ## Marking -/

/-- Where `mark_source_chains` is: at the start of a hook, at a rule, or on the way back from
one. -/
inductive Mark
  | hook (h : ℕ) (b : Buffer)
  | visit (h pos : ℕ) (b : Buffer)
  | back (h pos : ℕ) (b : Buffer)

/-- The test for an unconditional return or verdict. -/
def endsChain (e : ℕ) : Except Fail Bool := do
  let targetOffset ← readTargetOffset b e
  if targetOffset ≠ sizeofEntry then return false
  else
    let standard ← targetIs b (e + targetOffset) standardTarget
    if !standard then return false
    else
      let verdict ← readVerdict b (e + targetOffset)
      if 0 ≤ asInt verdict then return false else unconditional b e

/-- A rule is visited. Returning 0 is the error `eloop`, as the caller makes it. -/
def markVisit (h pos : ℕ) (b : Buffer) : Except Fail Mark := do
  let targetOffset ← readTargetOffset b pos
  let t := pos + targetOffset
  let comefrom ← readComefrom b pos
  if comefrom.testBit numHooks then .error (.errno .eloop)
  else
    let b ← writeComefrom b pos (comefrom ||| (1 <<< h ||| 1 <<< numHooks))
    let ends ← endsChain b pos
    if ends || comefrom.testBit h then
      let standard ← targetIs b t standardTarget
      if standard then
        let verdict ← readVerdict b t
        if asInt verdict < -5 - 1 then .error (.errno .eloop) else return .back h pos b
      else return .back h pos b
    else
      let newpos ← readVerdict b t
      let standard ← targetIs b t standardTarget
      if standard && decide (0 ≤ asInt newpos) then
        if sub32 b.size sizeofEntry < newpos then .error (.errno .eloop)
        else
          -- This a jump; chase it.
          let b ← writePcnt b newpos pos
          return .visit h newpos b
      else
        -- ... this is a fallthru
        let nextOffset ← readNextOffset b pos
        let b ← writePcnt b (pos + nextOffset) pos
        return .visit h (pos + nextOffset) b

/-- One turn of the loop that backtracks, and what comes after its last turn. -/
def markBack (h pos : ℕ) (b : Buffer) : Except Fail Mark := do
  let comefrom ← readComefrom b pos
  let b ← writeComefrom b pos (comefrom ^^^ (1 <<< numHooks))
  let oldpos := pos
  let pos ← readPcnt b oldpos
  let b ← writePcnt b oldpos 0
  -- We're at the start.
  if pos = oldpos then return .hook (h + 1) b
  else
    let nextOffset ← readNextOffset b pos
    if oldpos = pos + nextOffset then return .back h pos b
    else
      -- Move along one
      let b ← writePcnt b (pos + nextOffset) pos
      return .visit h (pos + nextOffset) b

/-- One step of `mark_source_chains`. -/
def markStep (info : Info) (validHooks : ℕ) (m : Mark) : Outcome Mark (Except Fail Buffer) :=
  let next : Except Fail Mark → Outcome Mark (Except Fail Buffer)
    | .ok m => .next m
    | .error f => .done (.error f)
  match m with
  | .hook h b =>
    if numHooks ≤ h then .done (.ok b)
    else if !validHooks.testBit h then .next (.hook (h + 1) b)
    else
      -- Set initial back pointer.
      next (do
        let b ← writePcnt b (info.hookEntry h) (info.hookEntry h)
        return .visit h (info.hookEntry h) b)
  | .visit h pos b => next (markVisit h pos b)
  | .back h pos b => next (markBack h pos b)

/-! ## Both -/

/-- Where `translate_table` is: walking, or marking. -/
inductive Stage
  | walk (w : Walk)
  | mark (info : Info) (m : Mark)

/-- One step of `translate_table`, up to the checks of the matches and targets. -/
def loadStep (repl : Replace) : Stage → Outcome Stage (Except Fail (Buffer × Info))
  | .walk w =>
    match walkStep repl w with
    | .next w => .next (.walk w)
    | .done (.error f) => .done (.error f)
    | .done (.ok w) =>
      if !checkAssigned repl w then .done (.error (.errno .einval))
      else .next (.mark w.info (.hook 0 w.block))
  | .mark info m =>
    match markStep info repl.validHooks m with
    | .next m => .next (.mark info m)
    | .done (.error f) => .done (.error f)
    | .done (.ok b) => .done (.ok (b, info))

/-- The table info before the walk: all hooks have an impossible value. -/
def initInfo : Info where
  hookEntry _ := 0xFFFFFFFF
  underflow _ := 0xFFFFFFFF
  stacksize := 0

/-- `translate_table` before the walk. -/
def loadStart : Stage := .walk ⟨b, initInfo, 0, 0⟩

end NestLinux.IpTables
