import NestLinux.Fs.Jffs2.Fragtree

/-!
# Reading a JFFS2 inode

`fs/jffs2/readinode.c`: the data nodes of an inode are found on the flash in any order.
`jffs2_add_tn_to_tree` sorts them by offset and drops those that a newer node hides.
`jffs2_build_inode_fragtree` then eats the tree from its end, and adds the nodes of each run
of overlapped ones to the fragment tree by version.

A node on the flash carries a CRC of its data, which is checked at most once and only
when the answer matters; `good` says what the check would find. The reads it needs are
taken to succeed. As in the fragment tree, `none` is a `BUG()` or a loop that does not
end.
-/

namespace NestLinux.Jffs2

open BinaryTree Lib

/-- `struct jffs2_tmp_dnode_info`, named by the `id` of its `fn`. -/
structure TmpDnode where
  fn : FullDnode
  version : ℕ
  /-- Whether the data of the node has the right CRC. -/
  good : Bool
  deriving DecidableEq, Repr

/-- `struct jffs2_readinode_info`, with the fields of the nodes that change. -/
structure ReadinodeInfo where
  tnRoot : BinaryTree TmpDnode
  /-- How many times the tree was rebalanced. -/
  rotations : ℕ
  /-- `overlapped` of each node. -/
  overlapped : ℕ → Bool
  /-- `ref_flags(raw)` of each node. -/
  flags : ℕ → RefFlags
  mdataTn : Option TmpDnode

/-- Before the first node is read. -/
def ReadinodeInfo.empty (flags : ℕ → RefFlags) : ReadinodeInfo :=
  ⟨nil, 0, fun _ => false, flags, none⟩

variable (tn : TmpDnode)

/-- `tn->fn->ofs + tn->fn->size`. -/
def tnEnd : ℕ := add32 tn.fn.ofs tn.fn.size

/-- A pointer to the node `tn`. -/
def isTn : TmpDnode → Bool := sameKey (·.fn.id) tn

def tnNext (t : BinaryTree TmpDnode) : Option TmpDnode :=
  nextAfter (isTn tn) (inorder t)

def tnPrev (t : BinaryTree TmpDnode) : Option TmpDnode :=
  prevBefore (isTn tn) (inorder t)

def tnLast (t : BinaryTree TmpDnode) : Option TmpDnode := (inorder t).getLast?

def tnErase (rot : Rotations TmpDnode) (tn : TmpDnode) (rii : ReadinodeInfo) : ReadinodeInfo :=
  { rii with
    tnRoot := rot.rotate rii.rotations (unlink (isTn tn) rii.tnRoot)
    rotations := rii.rotations + 1 }

/-- `rb_replace_node`. -/
def replaceTn (old new : TmpDnode) (rii : ReadinodeInfo) : ReadinodeInfo :=
  { rii with tnRoot := rii.tnRoot.map fun t => if isTn old t then new else t }

/-- Store `overlapped` of a node. -/
def setOverlapped (v : Bool) (rii : ReadinodeInfo) : ReadinodeInfo :=
  { rii with overlapped := Function.update rii.overlapped tn.fn.id v }

/-- `check_tn_node`: whether it returns 0, and the flags after the check. -/
def checkTnNode (flags : ℕ → RefFlags) : Option (Bool × (ℕ → RefFlags)) :=
  if flags tn.fn.id = .obsolete then none
  else if flags tn.fn.id ≠ .unchecked then some (true, flags)
  else if tn.good then some (true, Function.update flags tn.fn.id .pristine)
  else some (false, Function.update flags tn.fn.id .obsolete)

/-- `jffs2_kill_tn`. -/
def killTn (flags : ℕ → RefFlags) : ℕ → RefFlags :=
  Function.update flags tn.fn.id .obsolete

/-- The loop of `jffs2_lookup_tn`, with the node visited last. -/
def lookupTnLoop (offset : ℕ) : BinaryTree TmpDnode → Option TmpDnode → Option TmpDnode
  | nil, tn => tn
  | node tn left right, _ =>
    if tn.fn.ofs < offset then lookupTnLoop offset right (some tn)
    else lookupTnLoop offset left (some tn)

/-- `jffs2_lookup_tn`. -/
def lookupTn (t : BinaryTree TmpDnode) (offset : ℕ) : Option TmpDnode := lookupTnLoop offset t none

/-- Back up over nodes that are overlapped by one before them. -/
def backUp : ℕ → TmpDnode → ReadinodeInfo → Option (TmpDnode × ReadinodeInfo)
  | 0, _, _ => none
  | fuel + 1, this, rii =>
    if rii.overlapped this.fn.id then
      match tnPrev this rii.tnRoot with
      -- the node that overlapped it was killed since
      | none => some (this, setOverlapped this false rii)
      | some ptn => backUp fuel ptn rii
    else some (this, rii)

/-- Kill the nodes from `this` on that end inside the new node and are older. -/
def killOverlapped (rot : Rotations TmpDnode) (tn : TmpDnode) :
    ℕ → Option TmpDnode → ReadinodeInfo → Option (Option TmpDnode × ReadinodeInfo)
  | 0, _, _ => none
  | _ + 1, none, rii => some (none, rii)
  | fuel + 1, some this, rii =>
    if tnEnd this ≤ tnEnd tn then
      let next := tnNext this rii.tnRoot
      if this.version < tn.version then
        let rii := tnErase rot this rii
        killOverlapped rot tn fuel next { rii with flags := killTn this rii.flags }
      else killOverlapped rot tn fuel next rii
    else some (some this, rii)

/-- The loop of `jffs2_add_tn_to_tree` over the nodes that may hide the new one or be
hidden by it; `false` says that the new node has been dealt with. -/
def ponder (rot : Rotations TmpDnode) (tn : TmpDnode) :
    ℕ → Option TmpDnode → ReadinodeInfo → Option (Bool × ReadinodeInfo)
  | 0, _, _ => none
  | _ + 1, none, rii => some (true, rii)
  | fuel + 1, some this, rii =>
    if tnEnd tn < this.fn.ofs then some (true, rii)
    else if this.version = tn.version then do
      -- the collector copied the node; either copy will do if its CRC is right
      let (ok, flags) ← checkTnNode this rii.flags
      let rii := { rii with flags := flags }
      if ok then some (false, { rii with flags := killTn tn rii.flags })
      else
        let rii := replaceTn this tn rii
        some (false, { rii with flags := killTn this rii.flags })
    else if this.version < tn.version ∧ tn.fn.ofs ≤ this.fn.ofs ∧ tnEnd this ≤ tnEnd tn then do
      -- the new node entirely overlaps `this`
      let (ok, flags) ← checkTnNode tn rii.flags
      let rii := { rii with flags := flags }
      if ok then
        let (this, rii) ← killOverlapped rot tn (rii.tnRoot.numNodes + 1) (some this) rii
        ponder rot tn fuel this rii
      else some (false, { rii with flags := killTn tn rii.flags })
    else if tn.version < this.version ∧ this.fn.ofs ≤ tn.fn.ofs ∧ tnEnd tn ≤ tnEnd this then do
      -- the new node is entirely overlapped by `this`
      let (ok, flags) ← checkTnNode this rii.flags
      let rii := { rii with flags := flags }
      if ok then some (false, { rii with flags := killTn tn rii.flags })
      else
        let rii := tnErase rot this rii
        some (true, { rii with flags := killTn this rii.flags })
    else ponder rot tn fuel (tnNext this rii.tnRoot) rii

/-- The comparison that leads to the place of a new node. -/
def tnDir (tn ip : TmpDnode) : Option Bool :=
  if ip.fn.ofs < tn.fn.ofs then some true
  else if tn.fn.ofs < ip.fn.ofs ∨ tn.fn.size < ip.fn.size then some false
  else some true

/-- Note on the new node whether a node behind it reaches into it. -/
def noteBehind (tn : TmpDnode) : ℕ → TmpDnode → ReadinodeInfo → Option ReadinodeInfo
  | 0, _, _ => none
  | fuel + 1, this, rii =>
    if tn.fn.ofs < tnEnd this then some (setOverlapped tn true rii)
    else if !rii.overlapped this.fn.id then some rii
    else
      match tnPrev this rii.tnRoot with
      -- the node that overlapped it was killed since
      | none => some (setOverlapped this false rii)
      | some ptn => noteBehind tn fuel ptn rii

/-- Note on the nodes ahead that the new one reaches into them. -/
def noteAhead (tn : TmpDnode) : ℕ → Option TmpDnode → ReadinodeInfo → Option ReadinodeInfo
  | 0, _, _ => none
  | _ + 1, none, rii => some rii
  | fuel + 1, some this, rii =>
    if this.fn.ofs < tnEnd tn then
      noteAhead tn fuel (tnNext this rii.tnRoot) (setOverlapped this true rii)
    else some rii

/-- The marks made once the new node is in the tree. -/
def noteOverlaps (rii : ReadinodeInfo) : Option ReadinodeInfo := do
  let fuel := rii.tnRoot.numNodes + 1
  let rii ← (tnPrev tn rii.tnRoot).elim (some rii) fun this => noteBehind tn fuel this rii
  noteAhead tn fuel (tnNext tn rii.tnRoot) rii

/-- The insertion at the end of `jffs2_add_tn_to_tree`. -/
def insertTn (rot : Rotations TmpDnode) (tn : TmpDnode) (rii : ReadinodeInfo) :
    Option ReadinodeInfo := do
  let t ← linkAt (tnDir tn) tn rii.tnRoot
  noteOverlaps tn
    { rii with tnRoot := rot.rotate rii.rotations t, rotations := rii.rotations + 1 }

/-- The first node to ponder: the one the lookup ends at, or one before it that may reach
further. -/
def startTn (rii : ReadinodeInfo) : Option (Option TmpDnode × ReadinodeInfo) :=
  match lookupTn rii.tnRoot tn.fn.ofs with
  | none => some (none, rii)
  | some this =>
    (backUp (rii.tnRoot.numNodes + 1) this rii).map fun (this, rii) => (some this, rii)

/-- `jffs2_add_tn_to_tree`. -/
def addTnToTree (rot : Rotations TmpDnode) (tn : TmpDnode) (rii : ReadinodeInfo) :
    Option ReadinodeInfo :=
  if tn.fn.size = 0 then
    match rii.mdataTn with
    | some mdata =>
      if mdata.version < tn.version then
        some { rii with flags := killTn mdata rii.flags, mdataTn := some tn }
      else some { rii with flags := killTn tn rii.flags }
    | none => some { rii with mdataTn := some tn }
  else do
    let (this, rii) ← startTn tn rii
    let (go, rii) ← ponder rot tn (rii.tnRoot.numNodes + 1) this rii
    if go then insertTn rot tn rii else some rii

def eatLast : BinaryTree TmpDnode → BinaryTree TmpDnode
  | nil => nil
  | node _ l nil => l
  | node tn l r => node tn l (eatLast r)

/-- What the build has produced so far. -/
structure BuildState where
  fragtree : Fragtree
  /-- The tree of the current run of nodes, in reverse version order. -/
  verRoot : BinaryTree TmpDnode
  rotations : ℕ
  highVer : ℕ
  latestRef : Option ℕ

/-- The comparison of `ver_insert`: left of the older nodes. -/
def verDir (tn this : TmpDnode) : Option Bool :=
  if this.version < tn.version then some false else some true

def verInsert (rot : Rotations TmpDnode) (tn : TmpDnode) (st : BuildState) : Option BuildState :=
  (linkAt (verDir tn) tn st.verRoot).map fun t =>
    { st with verRoot := rot.rotate st.rotations t, rotations := st.rotations + 1 }

/-- Add the nodes of the version tree to the fragment tree, oldest first. `alloc` says for
each node whether the two allocations of its addition succeed. -/
def replay (rot : Rotations Frag) (alloc : ℕ → Bool × Bool) :
    ℕ → Option TmpDnode → BuildState → Option (ℤ × BuildState)
  | 0, _, _ => none
  | _ + 1, none, st => some (0, st)
  | fuel + 1, some this, st => do
      let versNext := tnPrev this st.verRoot
      let st := { st with verRoot := eatLast st.verRoot }
      let (ok, flags) ← checkTnNode this st.fragtree.flags
      let st := { st with fragtree := { st.fragtree with flags := flags } }
      if ok then
        let latest :=
          if st.highVer < this.version then (this.version, some this.fn.id)
          else (st.highVer, st.latestRef)
        let (ret, fragtree) ← addFullDnodeToInode rot (alloc this.fn.id).1 (alloc this.fn.id).2
          this.fn st.fragtree
        let st := { st with fragtree := fragtree, highVer := latest.1, latestRef := latest.2 }
        if ret = 0 then replay rot alloc fuel versNext st else some (ret, st)
      else
        let flags := killTn this st.fragtree.flags
        replay rot alloc fuel versNext { st with fragtree := { st.fragtree with flags := flags } }

/-- The loop of `jffs2_build_inode_fragtree` over the nodes from the last one on. -/
def buildLoop (rotTn : Rotations TmpDnode) (rot : Rotations Frag) (alloc : ℕ → Bool × Bool)
    (overlapped : ℕ → Bool) :
    ℕ → Option TmpDnode → BinaryTree TmpDnode → BuildState → Option (ℤ × BuildState)
  | 0, _, _, _ => none
  | _ + 1, none, _, st => some (0, st)
  | fuel + 1, some last, tnRoot, st => do
      let pen := tnPrev last tnRoot
      let tnRoot := eatLast tnRoot
      let st ← verInsert rotTn last st
      if overlapped last.fn.id && pen.isSome then
        buildLoop rotTn rot alloc overlapped fuel pen tnRoot st
      else
        let (ret, st) ←
          replay rot alloc (st.verRoot.numNodes + 1) (tnLast st.verRoot) st
        if ret = 0 then buildLoop rotTn rot alloc overlapped fuel pen tnRoot st
        else some (ret, st)

/-- `jffs2_build_inode_fragtree`, for an inode that has no fragments yet. -/
def buildInodeFragtree (rotTn : Rotations TmpDnode) (rot : Rotations Frag)
    (alloc : ℕ → Bool × Bool) (rii : ReadinodeInfo) : Option (ℤ × BuildState) :=
  let st : BuildState :=
    ⟨Fragtree.empty rii.flags, nil, 0, rii.mdataTn.elim 0 (·.version), rii.mdataTn.map (·.fn.id)⟩
  buildLoop rotTn rot alloc rii.overlapped (rii.tnRoot.numNodes + 1) (tnLast rii.tnRoot)
    rii.tnRoot st

/-- Read the nodes of an inode in the order of the scan. -/
def feed (rot : Rotations TmpDnode) (fed : List TmpDnode) (rii : ReadinodeInfo) :
    Option ReadinodeInfo :=
  fed.foldlM (fun rii tn => addTnToTree rot tn rii) rii

end NestLinux.Jffs2
