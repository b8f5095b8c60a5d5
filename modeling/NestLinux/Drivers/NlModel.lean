import NestLinux.Kernel.Strtoul

/-!
# Model identifiers

A model of `nlmodel_parse` (`arch/arm/mach-omap2/board-diamond-nlmodel.c`). A model identifier is a
family, a dash, a product number and, after a dot, a revision number, such as `Diamond-1.10`. The
family may have dashes and dots of its own.
-/

namespace NestLinux.BoardDiamond

open Strtoul

/-- `struct nlmodel`. -/
structure NlModel where
  identifier : Option (List Char)
  family : Option (List Char)
  product : ℤ
  revision : ℤ

def nlModelUnknown : ℤ := -1

/-- `strrchr`: the string from the last `c` on. -/
def strrchr (c : Char) : List Char → Option (List Char)
  | [] => none
  | x :: s => (strrchr c s).or (if x = c then some (x :: s) else none)

/-- `kstrdup` and `kstrndup`, which may find no memory. -/
def kstrdup (memory : Bool) (s : List Char) : Option (List Char) := if memory then some s else none

/-- The conversion of an `unsigned long` to `int`. -/
def toInt (value : ℕ) : ℤ := (BitVec.ofNat 32 value).toInt

/-- `nlmodel_parse`, of pointers that may be null: what it returns, and the model. The flags say
whether the two copies find memory. -/
def nlmodelParse (identifier : Option (List Char)) (model : Option NlModel)
    (memory1 memory2 : Bool) :
    ℤ × Option NlModel :=
  match identifier, model with
  | some identifier, some model =>
    match strrchr '-' identifier with
    | none => (-1, some model)
    | some dashp =>
      let (value, endp) := simpleStrtoul dashp.tail 10
      if endp.length < dashp.tail.length ∧ (endp = [] ∨ endp.head? = some '.') then
        let revision :=
          match strrchr '.' dashp with
          | none => nlModelUnknown
          | some dotp =>
            let (value, endp) := simpleStrtoul dotp.tail 10
            if endp.length < dotp.tail.length ∧ endp = [] then toInt value else nlModelUnknown
        (0, some
          { identifier := kstrdup memory1 identifier
            family := kstrdup memory2 (identifier.take (identifier.length - dashp.length))
            product := toInt value
            revision := revision })
      else (-1, some model)
  | _, model => (-1, model)

/-- The text of a revision, if there is one. -/
def revisionText : Option ℕ → List Char
  | none => []
  | some r => '.' :: Nat.toDigits 10 r

def identifierText (family : List Char) (product : ℕ) (revision : Option ℕ) : List Char :=
  family ++ '-' :: (Nat.toDigits 10 product ++ revisionText revision)

variable {c : Char} {s t : List Char} {n product : ℕ} {revision : Option ℕ}

theorem strrchr_of_not_mem (h : c ∉ s) : strrchr c s = none := by
  induction s with
  | nil => rfl
  | cons x s ih =>
    rw [List.mem_cons, not_or] at h
    rw [strrchr, ih h.2, if_neg (Ne.symm h.1)]
    rfl

theorem strrchr_append (h : c ∉ t) (s : List Char) : strrchr c (s ++ c :: t) = some (c :: t) := by
  induction s with
  | nil => rw [List.nil_append, strrchr, strrchr_of_not_mem h, if_pos rfl, Option.none_or]
  | cons x s ih => rw [List.cons_append, strrchr, ih, Option.some_or]

theorem not_mem_toDigits (hc : c.isDigit = false) (n : ℕ) : c ∉ Nat.toDigits 10 n := by
  intro h
  rw [Nat.isDigit_of_mem_toDigits (by decide) (by decide) h] at hc
  cases hc

theorem toInt_of_lt (h : n < 2 ^ 31) : toInt n = n := by
  have hnat : (BitVec.ofNat 32 n).toNat = n := by
    rw [BitVec.toNat_ofNat, Nat.mod_eq_of_lt (by omega)]
  rw [toInt, BitVec.toInt_eq_toNat_of_lt (by omega), hnat]

/-- What is left after the product is the revision. -/
theorem stops_revisionText (revision : Option ℕ) : Stops 10 (revisionText revision) := by
  cases revision with
  | none => exact fun c hc => absurd hc (by simp [revisionText])
  | some r =>
    intro c hc
    obtain rfl : '.' = c := Option.some.inj hc
    exact fun value hvl => absurd hvl (by simp [show xdigit '.' = none by decide])

/-- The last dot is the one of the revision. -/
theorem strrchr_dot :
    strrchr '.' ('-' :: (Nat.toDigits 10 product ++ revisionText revision)) =
      revision.map fun r => '.' :: Nat.toDigits 10 r := by
  have hn (n : ℕ) : '.' ∉ Nat.toDigits 10 n := not_mem_toDigits (by decide) n
  cases revision with
  | none => exact strrchr_of_not_mem (by simp [revisionText, hn])
  | some r => exact strrchr_append (hn r) ('-' :: Nat.toDigits 10 product)

/-- **A model identifier is taken apart into what it was made of**, and where `nlmodel_parse` fails
the model is as it was. -/
theorem nlmodelParse_text (family : List Char) (hproduct : product < 2 ^ 31)
    (hrevision : ∀ r ∈ revision, r < 2 ^ 31) (model : NlModel) :
    nlmodelParse (some (identifierText family product revision)) (some model) true true =
        (0, some
          { identifier := some (identifierText family product revision)
            family := some family
            product := product
            revision := revision.elim nlModelUnknown fun r => r }) ∧
      ∀ identifier model memory1 memory2, (nlmodelParse identifier model memory1 memory2).1 = -1 →
          (nlmodelParse identifier model memory1 memory2).2 = model := by
  constructor
  · have hdash : strrchr '-' (identifierText family product revision) =
        some ('-' :: (Nat.toDigits 10 product ++ revisionText revision)) := by
      have hnot (n : ℕ) : '-' ∉ Nat.toDigits 10 n := not_mem_toDigits (by decide) n
      refine strrchr_append ?_ family
      cases revision <;> simp [revisionText, hnot]
    have hparse := simpleStrtoul_toDigits (Nat.lt_trans hproduct (by decide))
      (stops_revisionText revision)
    have hpos : 0 < (Nat.toDigits 10 product).length := Nat.length_toDigits_pos
    have hend : revisionText revision = [] ∨ (revisionText revision).head? = some '.' := by
      cases revision with
      | none => exact .inl rfl
      | some r => exact .inr rfl
    have hfamily : (identifierText family product revision).take
        ((identifierText family product revision).length -
          ('-' :: (Nat.toDigits 10 product ++ revisionText revision)).length) = family := by
      rw [identifierText, List.length_append, Nat.add_sub_cancel, List.take_left]
    rw [nlmodelParse, hdash]
    simp only [List.tail_cons, hparse, strrchr_dot, hfamily, toInt_of_lt hproduct]
    rw [if_pos ⟨by rw [List.length_append]; omega, hend⟩]
    cases revision with
    | none => rfl
    | some r =>
      have hr := hrevision r rfl
      have hnum := @simpleStrtoul_toDigits r [] (Nat.lt_trans hr (by decide)) (by simp [Stops])
      rw [List.append_nil] at hnum
      simp only [Option.map_some, List.tail_cons, hnum, toInt_of_lt hr]
      rw [if_pos ⟨Nat.length_toDigits_pos, trivial⟩]
      rfl
  · intro identifier model memory1 memory2 hfail
    rcases identifier with _ | identifier
    · rfl
    rcases model with _ | model
    · rfl
    simp only [nlmodelParse] at hfail ⊢
    split
    · rfl
    simp only [*] at hfail
    split
    · rename_i hparsed
      rw [if_pos hparsed] at hfail
      cases hfail
    · rfl

theorem nlmodelParse_text_diamond :
    nlmodelParse (some "Backplate-A.2-1.10".toList) (some ⟨none, none, -1, -1⟩) true true =
      (0, some ⟨some "Backplate-A.2-1.10".toList, some "Backplate-A.2".toList, 1, 10⟩) :=
  (nlmodelParse_text "Backplate-A.2".toList (show 1 < 2 ^ 31 by decide)
    (show ∀ r ∈ some 10, r < 2 ^ 31 by decide) ⟨none, none, -1, -1⟩).1

end NestLinux.BoardDiamond
