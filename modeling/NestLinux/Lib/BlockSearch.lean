import NestLinux.Lib.Digits
import NestLinux.Lib.SparseMap

/-!
# Searches over blocks of indices

A search through a table of tables looks at the slots of one table after the other, and
moves its index along: by one at the bottom, by a whole block above. The index is a word,
so after the last block it is 0. Three loops make up such a search: over the slots that are
passed over, over the slots of the bottom table, and from one bottom table to the next.
-/

namespace NestLinux.Lib

variable {α : Type*} {w B h : ℕ}

/-- Over the last `k` of `B` slots, each a block of `B ^ h` indices, up to one that passes the
test: that slot, if any, and the index. -/
def skipTo (w B : ℕ) (p : ℕ → Bool) (h : ℕ) : ℕ → ℕ → Option ℕ × ℕ
  | 0, index => (none, index)
  | k + 1, index =>
    if p (B - (k + 1)) then (some (B - (k + 1)), index)
    else
      let next := nextBlock B h index % w
      if next = 0 then (none, next) else skipTo w B p h k next

/-- Over the last `k` of `B` slots of one index each: what they hold, up to `room` values, and
the index. -/
def takeFrom (w B : ℕ) (f : ℕ → Option α) : ℕ → ℕ → ℕ → List α × ℕ
  | 0, index, _ => ([], index)
  | k + 1, index, room =>
    let next := (index + 1) % w
    match f (B - (k + 1)) with
    | none => takeFrom w B f k next room
    | some a =>
      if room = 1 then ([a], next)
      else
        let r := takeFrom w B f k next (room - 1)
        (a :: r.1, r.2)

/-- Search on from where the last search stopped, until there is enough or the index wraps or
is beyond the last one; with a bound on the turns. -/
def collect (search : ℕ → ℕ → List α × ℕ) (last max : ℕ) : ℕ → List α → ℕ → Option (List α)
  | 0, _, _ => none
  | n + 1, results, cur =>
    if max ≤ results.length then some results
    else if last < cur then some results
    else
      let r := search (max - results.length) cur
      if r.2 = 0 then some (results ++ r.1) else collect search last max n (results ++ r.1) r.2

/-- A word that is a bound or below it wraps to 0 only there. -/
theorem lt_of_mod_ne_zero {n : ℕ} (hle : n ≤ w) (hne : n % w ≠ 0) : n < w := by
  by_contra hc
  have heq : n = w := by omega
  rw [heq, Nat.mod_self] at hne
  exact hne rfl

theorem eq_of_mod_eq_zero {n : ℕ} (hp : 0 < n) (hle : n ≤ w) (hz : n % w = 0) : n = w := by
  by_contra hc
  rw [Nat.mod_eq_of_lt (by omega)] at hz
  omega

theorem nextBlock_congr {i j : ℕ} (hij : i / B ^ h = j / B ^ h) :
    nextBlock B h i = nextBlock B h j := by
  rw [nextBlock_eq, nextBlock_eq, hij]

/-- **Passing over slots** gets to a slot that passes the test, whose first index it is at
unless it started there, or to the end of the table or of the indices. -/
theorem skipTo_spec (hB : 0 < B) (hw : ∀ i < w, nextBlock B h i ≤ w) (p : ℕ → Bool)
    {k index : ℕ} (hi : index < w) (hk : digit B h index + k = B) :
    ∃ n, index ≤ n ∧ n ≤ w ∧ n ≤ nextBlock B (h + 1) index ∧
      (∀ j, index ≤ j → j < n → p (digit B h j) = false) ∧ (skipTo w B p h k index).2 = n % w ∧
      (((skipTo w B p h k index).1 = none ∧ index < n) ∨
        ((skipTo w B p h k index).1 = some (digit B h n) ∧ p (digit B h n) = true ∧ n < w ∧
          n / B ^ (h + 1) = index / B ^ (h + 1))) := by
  induction k generalizing index with
  | zero =>
    have hlt := digit_lt hB h index
    omega
  | succ k ih =>
    have hsl : B - (k + 1) = digit B h index := by omega
    rw [skipTo, hsl]
    cases hp : p (digit B h index) with
    | true =>
      rw [if_pos rfl]
      refine ⟨index, le_rfl, hi.le, (lt_nextBlock hB _ _).le, ?_, ?_, ?_⟩
      · omega
      · rw [Nat.mod_eq_of_lt hi]
      · exact .inr ⟨rfl, hp, hi, rfl⟩
    | false =>
      simp only [Bool.false_eq_true, if_false]
      have hle := hw index hi
      have hlt := lt_nextBlock hB h index
      have hup := nextBlock_le_succ hB h index
      have hno (j : ℕ) (h1 : index ≤ j) (h2 : j < nextBlock B h index) :
          p (digit B h j) = false := by
        rw [digit, div_eq_of_lt_nextBlock hB h1 h2]
        exact hp
      by_cases hwr : nextBlock B h index % w = 0
      · rw [if_pos hwr]
        exact ⟨nextBlock B h index, hlt.le, hle, hup, hno, rfl, .inl ⟨rfl, hlt⟩⟩
      rw [if_neg hwr]
      have hlt' := lt_of_mod_ne_zero hle hwr
      rw [Nat.mod_eq_of_lt hlt']
      cases k with
      | zero =>
        rw [skipTo]
        refine ⟨nextBlock B h index, hlt.le, hle, hup, hno, ?_, .inl ⟨rfl, hlt⟩⟩
        rw [Nat.mod_eq_of_lt hlt']
      | succ k =>
        have hdig := nextBlock_succ_digit hB (by omega : digit B h index + 1 < B)
        obtain ⟨n, h1, h2, h3, h4, h5, h6⟩ := ih hlt' (by omega)
        rw [nextBlock_congr hdig.2] at h3
        refine ⟨n, by omega, h2, h3, ?_, h5, ?_⟩
        · intro j hj1 hj2
          by_cases hj : j < nextBlock B h index
          · exact hno j hj1 hj
          · exact h4 j (by omega) hj2
        cases h6 with
        | inl he => exact .inl ⟨he.1, by omega⟩
        | inr hfnd =>
          rw [hdig.2] at hfnd
          exact .inr hfnd

/-- The last `k` slots of a bottom table, whose indices start at `base`. -/
theorem takeFrom_spec {m f : ℕ → Option α} {base : ℕ} (hm : ∀ i < B, m (base + i) = f i)
    {k room : ℕ} (hk : k ≤ B) (hrm : 0 < room) :
    ∃ n, base + (B - k) ≤ n ∧ (0 < k → base + (B - k) < n) ∧ n ≤ base + B ∧
      (takeFrom w B f k ((base + (B - k)) % w) room).2 = n % w ∧
      (takeFrom w B f k ((base + (B - k)) % w) room).1 = entries m (base + (B - k)) n ∧
      (takeFrom w B f k ((base + (B - k)) % w) room).1.length ≤ room := by
  induction k generalizing room with
  | zero =>
    refine ⟨base + B, by omega, by omega, le_rfl, rfl, ?_, ?_⟩ <;> simp [takeFrom]
  | succ k ih =>
    have hat : m (base + (B - (k + 1))) = f (B - (k + 1)) := hm _ (by omega)
    have hsc : base + (B - (k + 1)) + 1 = base + (B - k) := by omega
    have hnx : ((base + (B - (k + 1))) % w + 1) % w = (base + (B - k)) % w := by
      rw [Nat.mod_add_mod, hsc]
    rw [takeFrom, hnx]
    cases hit : f (B - (k + 1)) with
    | none =>
      obtain ⟨n, hle, -, hn, hnxt, hfnd, hl⟩ := ih (by omega) hrm
      refine ⟨n, by omega, by omega, hn, hnxt, ?_, hl⟩
      rw [hit] at hat
      rw [entries_cons (by omega), hat, hsc, hfnd]
      rfl
    | some a =>
      rw [hit] at hat
      simp only
      by_cases ho : room = 1
      · rw [if_pos ho]
        refine ⟨base + (B - k), by omega, by omega, by omega, rfl, ?_, ?_⟩
        · rw [entries_cons (by omega), hat, hsc, entries_self]
          rfl
        · simp [ho]
      rw [if_neg ho]
      obtain ⟨n, hle, -, hn, hnxt, hfnd, hl⟩ := ih (by omega) (by omega : 0 < room - 1)
      refine ⟨n, by omega, by omega, hn, hnxt, ?_, ?_⟩
      · rw [entries_cons (by omega), hat, hsc, hfnd]
        rfl
      simp only [List.length_cons]
      omega

/-- **A bottom table** from an index on. -/
theorem takeFrom_covered (hB : 0 < B) {index room : ℕ} (hi : index < w)
    (hw : nextBlock B 1 index ≤ w) (f : ℕ → Option α) (hrm : 0 < room) :
    ∃ n, index < n ∧ n ≤ w ∧ n ≤ nextBlock B 1 index ∧
      (takeFrom w B f (B - digit B 0 index) index room).2 = n % w ∧
      (takeFrom w B f (B - digit B 0 index) index room).1 =
        entries (fun j => f (digit B 0 j)) index n ∧
      (takeFrom w B f (B - digit B 0 index) index room).1.length ≤ room := by
  have hdig (j : ℕ) : digit B 0 j = j % B := by rw [digit, pow_zero, Nat.div_one]
  simp only [hdig]
  have hlt : index % B < B := Nat.mod_lt _ hB
  have hle := Nat.mod_le index B
  rw [nextBlock, pow_one] at hw ⊢
  have hm : ∀ i < B, (fun j => f (j % B)) (index - index % B + i) = f i := by
    intro i hi'
    have hdm := Nat.div_add_mod index B
    have hsub : index - index % B = B * (index / B) := by omega
    simp only
    rw [hsub, Nat.mul_add_mod, Nat.mod_eq_of_lt hi']
  obtain ⟨n, -, h1, h2, hnx, hfnd, hl⟩ :=
    @takeFrom_spec α w B (fun j => f (j % B)) f _ hm _ _ (by omega : B - index % B ≤ B) hrm
  have hst : index - index % B + (B - (B - index % B)) = index := by omega
  rw [hst] at h1 hnx hfnd hl
  rw [Nat.mod_eq_of_lt hi] at hnx hfnd hl
  exact ⟨n, h1 (by omega), by omega, h2, hnx, hfnd, hl⟩

/-- **Searching on** collects the first values, where each search finds the values of some
range from the index it is given. -/
theorem collect_eq {m : ℕ → Option α} {search : ℕ → ℕ → List α × ℕ} {last max : ℕ}
    (hla : ∀ j, last < j → j < w → m j = none)
    (hsea : ∀ room cur, 0 < room → cur < w → cur ≤ last → ∃ k, cur < k ∧ k ≤ w ∧
      (search room cur).2 = k % w ∧ (search room cur).1 = entries m cur k ∧
      (search room cur).1.length ≤ room)
    {first n cur : ℕ} {results : List α} (hcur : first ≤ cur) (hcur' : cur < w)
    (hr : results = entries m first cur) (hl : results.length ≤ max) (hn : w - cur < n) :
    collect search last max n results cur = some ((entries m first w).take max) := by
  induction n generalizing cur results with
  | zero => omega
  | succ n ih =>
    rw [collect]
    by_cases hen : max ≤ results.length
    · rw [if_pos hen, take_entries hcur hcur'.le (.inl (by rw [← hr]; omega)), hr]
    rw [if_neg hen]
    by_cases hbey : last < cur
    · rw [if_pos hbey]
      have hnl : entries m cur w = [] := by
        refine entries_eq_nil ?_
        intro j h1 h2
        exact hla j (by omega) h2
      rw [take_entries hcur hcur'.le (.inr ⟨by rw [← hr]; exact hl, hnl⟩), hr]
    rw [if_neg hbey]
    obtain ⟨k, k1, k2, k3, k4, k5⟩ :=
      hsea (max - results.length) cur (by omega) hcur' (by omega)
    have hmr : results ++ (search (max - results.length) cur).1 = entries m first k := by
      rw [entries_append hcur k1.le, ← hr, k4]
    have hl' : (entries m first k).length ≤ max := by
      rw [← hmr, List.length_append]
      omega
    simp only [hmr]
    by_cases hwr : (search (max - results.length) cur).2 = 0
    · rw [if_pos hwr]
      rw [k3] at hwr
      rw [eq_of_mod_eq_zero (by omega) k2 hwr] at hl' ⊢
      rw [List.take_of_length_le hl']
    rw [if_neg hwr]
    rw [k3] at hwr ⊢
    have hk := lt_of_mod_ne_zero k2 hwr
    rw [Nat.mod_eq_of_lt hk]
    exact ih (by omega) hk rfl hl' (by omega)

end NestLinux.Lib
