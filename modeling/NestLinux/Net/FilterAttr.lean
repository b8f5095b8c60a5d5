import NestLinux.Net.Filter

/-!
# What the netlink extensions of a socket filter read

`SKF_AD_NLATTR` and `SKF_AD_NLATTR_NEST` look for an attribute in the packet itself. Both
compare the accumulator with `skb->len - sizeof(struct nlattr)`, which wraps on a packet
shorter than a header; the second one also compares the length of an attribute with
`A - skb->len`, whose operands are the wrong way round. Here are the bytes they read, and
exactly when these are bytes of the packet.
-/

namespace NestLinux.Filter

variable {nla rem t x : ℤ} {r r' : Set ℤ}

/-! ## The bytes read -/

/-- Where a search of `rem` bytes from `nla` on may read: nothing if no header fits. -/
def attrRange (nla rem _attrtype : ℤ) : Set ℤ :=
  {x | (nlaHdrLen : ℤ) ≤ rem ∧ nla ≤ x ∧ x < nla + rem}

/-- The addresses `nla_find` reads, in its order. The length of a header is read only where
a header fits, and its type only if the length is right. -/
def nlaFindReads (skb : SkBuff) (nla rem attrtype : ℤ) : List ℤ :=
  if rem < nlaHdrLen then []
  else if nlaOk skb nla rem then
    if (nlaType skb nla : ℤ) = attrtype then [nla, nla + 1, nla + 2, nla + 3]
    else
      let totlen : ℤ := nlaAlign (nlaLen skb nla)
      [nla, nla + 1, nla + 2, nla + 3] ++ nlaFindReads skb (nla + totlen) (rem - totlen) attrtype
  else [nla, nla + 1]
termination_by rem.toNat
decreasing_by
  rename_i hok _
  simp only [nlaOk, nlaHdrLen, nlaAlign] at *
  omega

namespace Regs

/-- The addresses `SKF_AD_NLATTR` reads if `find` gives those of `nla_find`. -/
def nlattrReads (find : ℤ → ℤ → ℤ → Set ℤ) (s : Regs) (skb : SkBuff) : Set ℤ :=
  let len := UInt32.ofNat skb.len
  if skb.isNonlinear then ∅
  else if len - UInt32.ofNat nlaHdrLen < s.A then ∅
  else find s.A.toNat (toInt (len - s.A)) (toInt s.X)

/-- The addresses `SKF_AD_NLATTR_NEST` reads if `find` gives those of `nla_find`: the length
of the attribute, and then what is nested in it. -/
def nlattrNestReads (find : ℤ → ℤ → ℤ → Set ℤ) (s : Regs) (skb : SkBuff) : Set ℤ :=
  let len := UInt32.ofNat skb.len
  let nla : ℤ := s.A.toNat
  if skb.isNonlinear then ∅
  else if len - UInt32.ofNat nlaHdrLen < s.A then ∅
  else if s.A - len < UInt32.ofNat (nlaLen skb nla) then {nla, nla + 1}
  else {nla, nla + 1} ∪ find (nla + nlaHdrLen) ((nlaLen skb nla : ℤ) - nlaHdrLen) (toInt s.X)

end Regs

/-- What `nla_find` reads, as a set. -/
def foundReads (skb : SkBuff) (nla rem t : ℤ) : Set ℤ := {x | x ∈ nlaFindReads skb nla rem t}

/-- The addresses are those of bytes of the packet. -/
def InPacket (skb : SkBuff) (reads : Set ℤ) : Prop := ∀ x ∈ reads, 0 ≤ x ∧ x < skb.len

/-! ## What is read lies where the search may read -/

theorem mem_attrRange : x ∈ attrRange nla rem t ↔ 4 ≤ rem ∧ nla ≤ x ∧ x < nla + rem := Iff.rfl

theorem mem_hdr : x ∈ [nla, nla + 1, nla + 2, nla + 3] ↔ nla ≤ x ∧ x < nla + 4 := by
  simp only [List.mem_cons, List.not_mem_nil, or_false]
  omega

theorem mem_attrRange_of_mem_nlaFindReads {skb : SkBuff} {attrtype : ℤ}
    (hx : x ∈ nlaFindReads skb nla rem attrtype) : x ∈ attrRange nla rem attrtype := by
  fun_induction nlaFindReads skb nla rem attrtype with
  | case1 => simp at hx
  | case2 nla rem hrem hok hty =>
    rw [nlaHdrLen] at hrem
    rw [mem_hdr] at hx
    rw [mem_attrRange]
    omega
  | case3 nla rem hrem hok hty totlen ih =>
    rw [nlaHdrLen] at hrem
    obtain hx | hx := List.mem_append.1 hx
    · rw [mem_hdr] at hx
      rw [mem_attrRange]
      omega
    have hrs := mem_attrRange.1 (ih hx)
    rw [mem_attrRange]
    omega
  | case4 nla rem hrem hok =>
    rw [nlaHdrLen] at hrem
    simp only [List.mem_cons, List.not_mem_nil, or_false] at hx
    rw [mem_attrRange]
    omega

theorem InPacket.mono {skb : SkBuff} (h : InPacket skb r') (hr : r ⊆ r') :
    InPacket skb r := fun x hx => h x (hr hx)

/-- The bytes really read are among those that may be. -/
theorem Regs.foundReads_subset (s : Regs) (skb : SkBuff) :
    s.nlattrReads (foundReads skb) skb ⊆ s.nlattrReads attrRange skb ∧
      s.nlattrNestReads (foundReads skb) skb ⊆ s.nlattrNestReads attrRange skb := by
  have hfi : ∀ nla rem t, foundReads skb nla rem t ⊆ attrRange nla rem t :=
    fun nla rem t x => mem_attrRange_of_mem_nlaFindReads
  simp only [Regs.nlattrReads, Regs.nlattrNestReads]
  split_ifs
  · exact ⟨Set.Subset.rfl, Set.Subset.rfl⟩
  · exact ⟨Set.Subset.rfl, Set.Subset.rfl⟩
  · exact ⟨hfi _ _ _, Set.Subset.rfl⟩
  · exact ⟨hfi _ _ _, Set.union_subset_union_right _ (hfi _ _ _)⟩

/-! ## The comparisons -/

section Compare

variable {s : Regs} {skb : SkBuff}

/-- The test of the accumulator against the length, in numbers. -/
theorem hdr_lt_A_iff : UInt32.ofNat skb.len - UInt32.ofNat nlaHdrLen < s.A ↔
      (skb.len + (2 ^ 32 - 4)) % 2 ^ 32 < s.A.toNat := by
  rw [UInt32.lt_iff_toNat_lt, UInt32.toNat_sub]
  simp only [UInt32.toNat_ofNat', nlaHdrLen]
  omega

/-- The test of the length of an attribute, in numbers. -/
theorem A_sub_lt_iff {n : ℕ} (hl : skb.len < 2 ^ 32) (hn : n < 2 ^ 16) :
    s.A - UInt32.ofNat skb.len < UInt32.ofNat n ↔
      (s.A.toNat + (2 ^ 32 - skb.len)) % 2 ^ 32 < n := by
  rw [UInt32.lt_iff_toNat_lt, UInt32.toNat_sub]
  simp only [UInt32.toNat_ofNat']
  omega

/-- The rest of the packet after the accumulator, as an `int`. -/
theorem toInt_sub (v w : UInt32) :
    toInt (v - w) = if (v.toNat + (2 ^ 32 - w.toNat)) % 2 ^ 32 < 2 ^ 31
      then (((v.toNat + (2 ^ 32 - w.toNat)) % 2 ^ 32 : ℕ) : ℤ)
      else (((v.toNat + (2 ^ 32 - w.toNat)) % 2 ^ 32 : ℕ) : ℤ) - 2 ^ 32 := by
  rw [toInt, BitVec.toInt_eq_toNat_cond, UInt32.toNat_toBitVec, UInt32.toNat_sub]
  split_ifs <;> omega

theorem nlaLen_lt (skb : SkBuff) (nla : ℤ) : nlaLen skb nla < 2 ^ 16 := by
  have h0 := (skb.mem nla).toNat_lt
  have h1 := (skb.mem (nla + 1)).toNat_lt
  rw [nlaLen]
  omega

theorem inPacket_empty : InPacket skb ∅ := fun x hx => absurd hx (Set.notMem_empty x)

/-- A search stays in the packet unless a header fits where it starts or ends outside. -/
theorem inPacket_attrRange (hnla : 0 ≤ nla) :
    InPacket skb (attrRange nla rem t) ↔ rem < 4 ∨ nla + rem ≤ skb.len := by
  constructor
  · intro h
    by_cases hrem : rem < 4
    · exact .inl hrem
    have hla := h (nla + rem - 1) (mem_attrRange.2 (by omega))
    omega
  · intro h x hx
    rw [mem_attrRange] at hx
    omega

theorem inPacket_union : InPacket skb (r ∪ r') ↔ InPacket skb r ∧ InPacket skb r' := by
  constructor
  · intro h
    exact ⟨h.mono Set.subset_union_left, h.mono Set.subset_union_right⟩
  intro h x hx
  exact hx.elim (h.1 x) (h.2 x)

theorem inPacket_pair (hnla : 0 ≤ nla) : InPacket skb {nla, nla + 1} ↔ nla + 2 ≤ skb.len := by
  constructor
  · intro h
    have hsec := h (nla + 1) (by simp)
    omega
  intro h x hx
  simp only [Set.mem_insert_iff, Set.mem_singleton_iff] at hx
  omega

/-! ## When the extensions stay in the packet -/

/-- The search from the accumulator on leaves a packet exactly if the packet is shorter than
a header, so that the test against the length wraps, and the accumulator is so large that
the rest of the packet wraps to a positive `int`. -/
theorem Regs.inPacket_nlattrReads (hlin : skb.isNonlinear = false) (hl : skb.len < 2 ^ 32) :
    InPacket skb (s.nlattrReads attrRange skb) ↔
      ¬(skb.len < 4 ∧ 2 ^ 31 + skb.len < s.A.toNat ∧ s.A.toNat + 4 ≤ 2 ^ 32 + skb.len) := by
  simp only [Regs.nlattrReads, hlin, Bool.false_eq_true, if_false, hdr_lt_A_iff]
  by_cases hhdr : (skb.len + (2 ^ 32 - 4)) % 2 ^ 32 < s.A.toNat
  · rw [if_pos hhdr]
    simp only [inPacket_empty, true_iff]
    omega
  · rw [if_neg hhdr, inPacket_attrRange (Int.natCast_nonneg _), toInt_sub, UInt32.toNat_ofNat']
    split_ifs <;> omega

theorem Regs.inPacket_nlattrNestReads (hlin : skb.isNonlinear = false) (hl : skb.len < 2 ^ 32) :
    InPacket skb (s.nlattrNestReads attrRange skb) ↔ (skb.len + (2 ^ 32 - 4)) % 2 ^ 32 < s.A.toNat ∨
      s.A.toNat + 2 ≤ skb.len ∧
        (nlaLen skb s.A.toNat < 8 ∨ s.A.toNat + nlaLen skb s.A.toNat ≤ skb.len ∨
          2 ^ 32 < skb.len - s.A.toNat + nlaLen skb s.A.toNat) := by
  have hn := nlaLen_lt skb s.A.toNat
  simp only [Regs.nlattrNestReads, hlin, Bool.false_eq_true, if_false, hdr_lt_A_iff,
    A_sub_lt_iff hl hn]
  by_cases hhdr : (skb.len + (2 ^ 32 - 4)) % 2 ^ 32 < s.A.toNat
  · simp only [hhdr, if_true, inPacket_empty, true_or]
  rw [if_neg hhdr]
  by_cases hsub : (s.A.toNat + (2 ^ 32 - skb.len)) % 2 ^ 32 < nlaLen skb s.A.toNat
  · rw [if_pos hsub, inPacket_pair (Int.natCast_nonneg _)]
    omega
  rw [if_neg hsub, inPacket_union, inPacket_pair (Int.natCast_nonneg _),
    inPacket_attrRange (by omega), nlaHdrLen]
  omega

/-- **Netlink attribute loads.** If `nla_find` reads headers anywhere in the range it is
given, `SKF_AD_NLATTR` stays in the packet unless the packet is shorter than a header and
the accumulator large, and `SKF_AD_NLATTR_NEST` exactly if the packet has the length of the
attribute and the attribute itself, or is left alone. -/
theorem nlattr_reads_iff (s : Regs) (skb : SkBuff) (hlin : skb.isNonlinear = false)
    (hlen : skb.len < 2 ^ 32) :
    (InPacket skb (s.nlattrReads attrRange skb) ↔
      ¬(skb.len < 4 ∧ 2 ^ 31 + skb.len < s.A.toNat ∧ s.A.toNat + 4 ≤ 2 ^ 32 + skb.len)) ∧
    (InPacket skb (s.nlattrNestReads attrRange skb) ↔
      (skb.len + (2 ^ 32 - 4)) % 2 ^ 32 < s.A.toNat ∨
      s.A.toNat + 2 ≤ skb.len ∧
        (nlaLen skb s.A.toNat < 8 ∨ s.A.toNat + nlaLen skb s.A.toNat ≤ skb.len ∨
          2 ^ 32 < skb.len - s.A.toNat + nlaLen skb s.A.toNat)) :=
  ⟨Regs.inPacket_nlattrReads hlin hlen, Regs.inPacket_nlattrNestReads hlin hlen⟩

/-- **The bytes really read** are bytes of the packet if a header fits in it, and for
`SKF_AD_NLATTR_NEST` if the attribute at the accumulator ends in it. -/
theorem nlattr_found_inPacket (s : Regs) (hlin : skb.isNonlinear = false)
    (hlen : skb.len < 2 ^ 32) (hhdr : 4 ≤ skb.len) :
    InPacket skb (s.nlattrReads (foundReads skb) skb) ∧
      (s.A.toNat + nlaLen skb s.A.toNat ≤ skb.len →
        InPacket skb (s.nlattrNestReads (foundReads skb) skb)) := by
  obtain ⟨hr, hns⟩ := s.foundReads_subset skb
  refine ⟨((Regs.inPacket_nlattrReads hlin hlen).2 (by omega)).mono hr, fun hend => ?_⟩
  refine ((Regs.inPacket_nlattrNestReads hlin hlen).2 ?_).mono hns
  omega

end Compare

/-! ## A packet with an attribute that is too long -/

/-- The registers with an accumulator and an index. -/
def withAX (A X : UInt32) : Regs := { pc := 0, A := A, X := X, mem := [], memvalid := 0 }

/-- The outer attribute says 65535 bytes, the one in it is empty and of type 1. -/
def longAttr : SkBuff := linearPacket [0xff, 0xff, 0, 0, 4, 0, 1, 0]

theorem nlattr_reads_longAttr :
    longAttr.isNonlinear = false ∧ longAttr.len < 2 ^ 32 ∧
      InPacket longAttr ((withAX 4 0).nlattrReads attrRange longAttr) ∧
      InPacket longAttr ((withAX 4 0).nlattrNestReads attrRange longAttr) := by
  have hlen : longAttr.len < 2 ^ 32 := by decide
  have h := nlattr_reads_iff (withAX 4 0) longAttr rfl hlen
  exact ⟨rfl, hlen, h.1.2 (by decide), h.2.2 (by decide)⟩

theorem nlattr_found_longAttr :
    InPacket longAttr ((withAX 4 0).nlattrReads (foundReads longAttr) longAttr) ∧
      InPacket longAttr ((withAX 4 0).nlattrNestReads (foundReads longAttr) longAttr) := by
  have h := nlattr_found_inPacket (withAX 4 0) (show longAttr.isNonlinear = false from rfl)
    (by decide) (by decide)
  exact ⟨h.1, h.2 (by decide)⟩

/-- A search in the long attribute for a type it does not have goes on behind the packet,
and a search in an empty packet reads where the accumulator says. -/
theorem nlattr_reads_outside :
    (longAttr.len = 8 ∧ (8 : ℤ) ∈ (withAX 0 2).nlattrNestReads
      (fun nla rem t => {x | x ∈ nlaFindReads longAttr nla rem t}) longAttr) ∧
    ((linearPacket []).len = 0 ∧ (0xfffffffc : ℤ) ∈ (withAX 0xfffffffc 0).nlattrReads
      (fun nla rem t => {x | x ∈ nlaFindReads (linearPacket []) nla rem t}) (linearPacket [])) := by
  refine ⟨⟨rfl, Or.inr ?_⟩, rfl, ?_⟩
  · change (8 : ℤ) ∈ nlaFindReads longAttr 4 65531 2
    rw [nlaFindReads, if_neg (by decide), if_pos (by decide), if_neg (by decide)]
    refine List.mem_append_right _ ?_
    change (8 : ℤ) ∈ nlaFindReads longAttr 8 65527 2
    rw [nlaFindReads]
    decide
  · change (0xfffffffc : ℤ) ∈ nlaFindReads (linearPacket []) 0xfffffffc 4 0
    rw [nlaFindReads]
    decide

end NestLinux.Filter
