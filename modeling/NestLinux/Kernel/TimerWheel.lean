import NestLinux.Kernel.Timer
import NestLinux.Lib.Wheel
import NestLinux.Lib.Calendar
import Mathlib.Data.List.Nodup

/-!
# The timer wheel keeps a calendar

Each vector of the timer wheel is a wheel whose slots are wider than those of the one
before. A timer is linked into the finest vector that reaches its time, and the vectors
are visited so that it has moved on to a finer one before its time comes: the jiffy that
begins its slot distributes it again. So `tv1` always has exactly the timers of the next
256 jiffies, the one being processed included.
-/

namespace NestLinux.Timer

open Lib List

variable {b b' : TvecBase} {now : ℕ} {due : ℕ → Option ℕ} {t u d i : ℕ} {tv : Tv}
  {head : ListHead}

/-- The bits of a jiffy below those that select the list of the vector. -/
def Tv.shift : Tv → ℕ
  | .tv1 => 0
  | .tv2 => tvrBits
  | .tv3 => tvrBits + tvnBits
  | .tv4 => tvrBits + 2 * tvnBits
  | .tv5 => tvrBits + 3 * tvnBits

/-- How many jiffies share a list of the vector. -/
def Tv.width (tv : Tv) : ℕ := 2 ^ tv.shift

/-- How many lists the vector has. -/
def Tv.size : Tv → ℕ
  | .tv1 => tvrSize
  | _ => 1 <<< tvnBits

theorem Tv.width_pos (tv : Tv) : 0 < tv.width := Nat.two_pow_pos _

theorem Tv.width_le (tv : Tv) : tv.width ≤ 2 ^ 26 := by
  cases tv <;> decide

/-! ### Jiffies as words -/

/-- The jiffy in which a timer added now is to be run: the next one with the number `expires`, or
the next one at all if that has passed. -/
def dueOf (now expires : ℕ) : ℕ :=
  if sub32 expires (now % 2 ^ 32) < 2 ^ 31 then now + sub32 expires (now % 2 ^ 32) else now

theorem add_sub32_mod {a : ℕ} (h : a < 2 ^ 32) (n : ℕ) :
    (n + sub32 a (n % 2 ^ 32)) % 2 ^ 32 = a := by
  rw [sub32]
  omega

theorem sub32_mod_mod {a n : ℕ} (hle : n ≤ a) (hlt : a < n + 2 ^ 32) :
    sub32 (a % 2 ^ 32) (n % 2 ^ 32) = a - n := by
  rw [sub32]
  omega

theorem le_dueOf (now expires : ℕ) : now ≤ dueOf now expires := by
  rw [dueOf]
  split_ifs
  · exact Nat.le_add_right _ _
  · exact le_rfl

/-- A jiffy that is not too far ahead is known by its number. -/
theorem dueOf_mod (hle : now ≤ d) (hlt : d < now + 2 ^ 31) : dueOf now (d % 2 ^ 32) = d := by
  rw [dueOf, sub32_mod_mod hle (by omega), if_pos (by omega)]
  omega

theorem and_tvrMask (a : ℕ) : a % 2 ^ 32 &&& tvrMask = a % tvrSize := by
  rw [tvrMask, tvrSize, Nat.one_shiftLeft, Nat.and_two_pow_sub_one_eq_mod,
    Nat.mod_mod_of_dvd a (pow_dvd_pow 2 (by decide))]

theorem shift_and_tvnMask {s : ℕ} (hs : s ≤ 26) (a : ℕ) :
    (a % 2 ^ 32) >>> s &&& tvnMask = a / 2 ^ s % (1 <<< tvnBits) := by
  obtain ⟨k, hk⟩ := Nat.exists_eq_add_of_le hs
  have hword : 2 ^ 32 = 2 ^ s * 2 ^ (k + 6) := by
    rw [← pow_add]
    congr 1
    omega
  rw [tvnMask, tvnBits, Nat.one_shiftLeft, Nat.and_two_pow_sub_one_eq_mod,
    Nat.shiftRight_eq_div_pow, hword, Nat.mod_mul_right_div_self,
    Nat.mod_mod_of_dvd _ (pow_dvd_pow 2 (Nat.le_add_left 6 k))]

/-! ### Where a timer is linked -/

/-- A timer more than a slot, and less than a turn, ahead. -/
theorem onWheel_ahead (now : ℕ) {s idx : ℕ} (hs : s ≤ 26) (hle : 1 <<< s ≤ idx)
    (hlt : idx < 1 <<< (s + tvnBits)) :
    OnWheel (2 ^ s) (1 <<< tvnBits) now (((now + idx) % 2 ^ 32) >>> s &&& tvnMask) (now + idx) ∧
      now < slotStart (2 ^ s) (now + idx) := by
  rw [shift_and_tvnMask hs]
  constructor
  · apply onWheel_of_lt (Nat.two_pow_pos s) (by omega)
    rw [Nat.one_shiftLeft, ← pow_add]
    omega
  · exact lt_slotStart (Nat.two_pow_pos s) (by omega)

/-- **Where a timer is linked**: in a list visited by the time it is due, and not before it can be
linked further on. -/
theorem vecOf_spec {expires : ℕ} (hj : b.timerJiffies = now % 2 ^ 32) (hexp : expires < 2 ^ 32) :
    ∃ tv i, b.vecOf expires = .vec tv i ∧ OnWheel tv.width tv.size now i (dueOf now expires) ∧
      (tv ≠ .tv1 → expires = dueOf now expires % 2 ^ 32 ∧
        now < slotStart tv.width (dueOf now expires)) := by
  have hm := add_sub32_mod hexp now
  rw [TvecBase.vecOf, dueOf, hj]
  dsimp only
  generalize hidx : sub32 expires (now % 2 ^ 32) = idx at hm ⊢
  have hidx_lt : idx < 2 ^ 32 := hidx ▸ sub32_lt _ _
  by_cases hfut : idx < 2 ^ 31
  · rw [if_pos hfut]
    rw [← hm]
    split_ifs with h1 h2 h3 h4 h5 h6
    · refine ⟨.tv1, _, rfl, ?_, fun h => absurd rfl h⟩
      rw [and_tvrMask]
      exact onWheel_one (Nat.le_add_right _ _) (Nat.add_lt_add_left h1 now)
    · have hon := onWheel_ahead now (s := tvrBits) (by decide) (not_lt.1 h1) h2
      exact ⟨.tv2, _, rfl, hon.1, fun _ => ⟨rfl, hon.2⟩⟩
    · have hon := onWheel_ahead now (s := tvrBits + tvnBits) (by decide) (not_lt.1 h2) h3
      exact ⟨.tv3, _, rfl, hon.1, fun _ => ⟨rfl, hon.2⟩⟩
    · have hon := onWheel_ahead now (s := tvrBits + 2 * tvnBits) (by decide)
        (not_lt.1 h3) h4
      exact ⟨.tv4, _, rfl, hon.1, fun _ => ⟨rfl, hon.2⟩⟩
    · omega
    · omega
    have hon := onWheel_ahead now (s := tvrBits + 3 * tvnBits) (by decide)
      (not_lt.1 h4) hidx_lt
    exact ⟨.tv5, _, rfl, hon.1, fun _ => ⟨rfl, hon.2⟩⟩
  · rw [if_neg hfut, if_neg fun h => hfut (h.trans_le (by decide)),
      if_neg fun h => hfut (h.trans_le (by decide)), if_neg fun h => hfut (h.trans_le (by decide)),
      if_neg fun h => hfut (h.trans_le (by decide)), if_pos (not_lt.1 hfut)]
    refine ⟨.tv1, _, rfl, ?_, fun h => absurd rfl h⟩
    rw [and_tvrMask]
    exact onWheel_one le_rfl (Nat.lt_add_of_pos_right (by decide))

/-! ### The lists -/

def Listed (b : TvecBase) (t : ℕ) : Prop := ∃ head, t ∈ b.list head

/-- The lists hold timers of a calendar, each at most once and in its place. -/
structure Filed (b : TvecBase) (now : ℕ) (due : ℕ → Option ℕ) : Prop where
  timerJiffies : b.timerJiffies = now % 2 ^ 32
  vec : ∀ {tv i t}, t ∈ b.list (.vec tv i) → ∃ d, due t = some d ∧
    OnWheel tv.width tv.size now i d ∧ (tv ≠ .tv1 → (b.timer t).expires = d % 2 ^ 32)
  work : ∀ {t}, t ∈ b.list .workList → ∃ d, due t = some d ∧ d + 1 = now
  word : ∀ {head t}, t ∈ b.list head → (b.timer t).expires < 2 ^ 32
  nodup : ∀ head, (b.list head).Nodup
  unique : ∀ {t head head'}, t ∈ b.list head → t ∈ b.list head' → head = head'

/-- No list of the vector has a timer whose slot starts now. -/
def Clear (b : TvecBase) (now : ℕ) (due : ℕ → Option ℕ) (tv : Tv) : Prop :=
  ∀ i t d, t ∈ b.list (.vec tv i) → due t = some d → slotStart tv.width d ≠ now

/-- What is filed depends on the lists, and on the timers in them. -/
theorem Filed.congr {due' : ℕ → Option ℕ} (h : Filed b now due) (hli : b'.list = b.list)
    (hj : b'.timerJiffies = b.timerJiffies)
    (hexp : ∀ t, Listed b t → (b'.timer t).expires = (b.timer t).expires)
    (hd : ∀ t, Listed b t → due' t = due t) : Filed b' now due' where
  timerJiffies := hj.trans h.timerJiffies
  vec {tv i t} ht := by
    rw [hli] at ht
    rw [hexp t ⟨_, ht⟩, hd t ⟨_, ht⟩]
    exact h.vec ht
  work {t} ht := by
    rw [hli] at ht
    rw [hd t ⟨_, ht⟩]
    exact h.work ht
  word {head t} ht := by
    rw [hli] at ht
    rw [hexp t ⟨_, ht⟩]
    exact h.word ht
  nodup := by
    rw [hli]
    exact h.nodup
  unique := by
    rw [hli]
    exact h.unique

theorem Filed.sublist (h : Filed b now due) (hli : ∀ head, (b'.list head).Sublist (b.list head))
    (hj : b'.timerJiffies = b.timerJiffies)
    (htm : ∀ t, (b'.timer t).expires = (b.timer t).expires) :
    Filed b' now due where
  timerJiffies := hj.trans h.timerJiffies
  vec {tv i t} ht := by
    rw [htm]
    exact h.vec ((hli _).subset ht)
  work ht := h.work ((hli _).subset ht)
  word {head t} ht := by
    rw [htm]
    exact h.word ((hli _).subset ht)
  nodup head := (h.nodup head).sublist (hli head)
  unique ht ht' := h.unique ((hli _).subset ht) ((hli _).subset ht')

@[simp] theorem listAddTail_list :
    (b.listAddTail t head).list = Function.update b.list head (b.list head ++ [t]) := rfl

theorem listAddTail_timer :
    (b.listAddTail t head).timer u =
      { b.timer u with pending := if u = t then true else (b.timer u).pending } := by
  by_cases hut : u = t
  · subst hut
    simp [TvecBase.listAddTail, TvecBase.setTimer]
  · simp [TvecBase.listAddTail, TvecBase.setTimer, hut]

theorem mem_listAddTail {head' : ListHead} :
    u ∈ (b.listAddTail t head).list head' ↔ u ∈ b.list head' ∨ head' = head ∧ u = t := by
  by_cases hh : head' = head
  · subst hh
    simp
  · simp [hh]

theorem listed_listAddTail : Listed (b.listAddTail t head) u ↔ Listed b u ∨ u = t := by
  simp only [Listed, mem_listAddTail, exists_or, exists_eq_left]

theorem Filed.listAddTail (h : Filed b now due) (hn : ¬ Listed b t)
    (hword : (b.timer t).expires < 2 ^ 32) (hd : due t = some d)
    (hon : OnWheel tv.width tv.size now i d) (hexp : tv ≠ .tv1 → (b.timer t).expires = d % 2 ^ 32) :
    Filed (b.listAddTail t (.vec tv i)) now due where
  timerJiffies := h.timerJiffies
  vec {tv' i' u} hu := by
    rw [listAddTail_timer]
    rw [mem_listAddTail] at hu
    rcases hu with hu | ⟨heq, rfl⟩
    · exact h.vec hu
    cases heq
    exact ⟨d, hd, hon, hexp⟩
  work {u} hu := by
    rw [mem_listAddTail] at hu
    rcases hu with hu | ⟨heq, -⟩
    · exact h.work hu
    · cases heq
  word {head' u} hu := by
    rw [listAddTail_timer]
    rw [mem_listAddTail] at hu
    rcases hu with hu | ⟨-, rfl⟩
    · exact h.word hu
    · exact hword
  nodup head' := by
    rw [listAddTail_list]
    by_cases hh : head' = .vec tv i
    · subst hh
      rw [Function.update_self, ← concat_eq_append]
      exact (h.nodup _).concat fun hm => hn ⟨_, hm⟩
    · rw [Function.update_of_ne hh]
      exact h.nodup head'
  unique {u head1 head2} h1 h2 := by
    rw [mem_listAddTail] at h1 h2
    rcases h1 with h1 | ⟨rfl, rfl⟩
    · rcases h2 with h2 | ⟨rfl, rfl⟩
      · exact h.unique h1 h2
      · exact absurd ⟨_, h1⟩ hn
    rcases h2 with h2 | ⟨rfl, -⟩
    · exact absurd ⟨_, h2⟩ hn
    · rfl

/-- The timers `L`, which were in no list, are linked again. -/
structure Refiled (now : ℕ) (due : ℕ → Option ℕ) (L : List ℕ) (b b' : TvecBase) : Prop where
  filed : Filed b' now due
  listed : ∀ u, Listed b' u ↔ Listed b u ∨ u ∈ L
  clear : ∀ tv, tv ≠ .tv1 → Clear b now due tv → Clear b' now due tv
  expires : ∀ u, (b'.timer u).expires = (b.timer u).expires
  pending : ∀ u, (b'.timer u).pending = true ↔ (b.timer u).pending = true ∨ u ∈ L
  work : b'.list .workList = b.list .workList

/-- **Linking a timer** puts it where it belongs. -/
theorem refiled_internalAddTimer (h : Filed b now due) (hn : ¬ Listed b t)
    (hexp : (b.timer t).expires < 2 ^ 32) (hde : due t = some (dueOf now (b.timer t).expires)) :
    Refiled now due [t] b (internalAddTimer t b) := by
  obtain ⟨tv, i, hvec, hon, hfar⟩ := vecOf_spec h.timerJiffies hexp
  rw [internalAddTimer, hvec]
  constructor
  case filed => exact h.listAddTail hn hexp hde hon fun htv => (hfar htv).1
  case listed =>
    intro u
    rw [listed_listAddTail, mem_singleton]
  case clear =>
    intro tv' htv hc i' u d hu hd
    rw [mem_listAddTail] at hu
    rcases hu with hu | ⟨heq, rfl⟩
    · exact hc i' u d hu hd
    cases heq
    obtain rfl := Option.some.inj (hde.symm.trans hd)
    exact (hfar htv).2.ne'
  case expires =>
    intro u
    rw [listAddTail_timer]
  case pending =>
    intro u
    rw [listAddTail_timer]
    by_cases hut : u = t <;> simp [hut]
  case work => rfl

theorem refiled_foldl (L : List ℕ) (h : Filed b now due) (hL : L.Nodup)
    (hn : ∀ t ∈ L, ¬ Listed b t) (hd : ∀ t ∈ L, (b.timer t).expires < 2 ^ 32 ∧
      due t = some (dueOf now (b.timer t).expires)) :
    Refiled now due L b (L.foldl (fun b t => internalAddTimer t b) b) := by
  induction L generalizing b with
  | nil => exact ⟨h, by simp, fun _ _ hc => hc, fun _ => rfl, by simp, rfl⟩
  | cons t L ih =>
    rw [nodup_cons] at hL
    rw [forall_mem_cons] at hn hd
    have h1 := refiled_internalAddTimer h hn.1 hd.1.1 hd.1.2
    have hn1 : ∀ u ∈ L, ¬ Listed (internalAddTimer t b) u := by
      intro u hu hlst
      rw [h1.listed, mem_singleton] at hlst
      rcases hlst with hlst | rfl
      · exact hn.2 u hu hlst
      · exact hL.1 hu
    have h2 := ih h1.filed hL.2 hn1 fun u hu => by
      rw [h1.expires]
      exact hd.2 u hu
    constructor
    case filed => exact h2.filed
    case listed =>
      intro u
      rw [foldl_cons, h2.listed, h1.listed, mem_singleton, mem_cons, or_assoc]
    case clear => exact fun tv htv hcr => h2.clear tv htv (h1.clear tv htv hcr)
    case expires => exact fun u => (h2.expires u).trans (h1.expires u)
    case pending =>
      intro u
      rw [foldl_cons, h2.pending, h1.pending, mem_singleton, mem_cons, or_assoc]
    case work => exact h2.work.trans h1.work

/-! ### The calendar -/

/-- The wheel and a calendar agree on which timers are pending, and when they are due. -/
structure Refines (b : TvecBase) (now : ℕ) (due : ℕ → Option ℕ) : Prop extends
    Filed b now due where
  pending : ∀ t, (b.timer t).pending = true ↔ Listed b t
  listed : ∀ t d, due t = some d → Listed b t

/-- A step that moves timers between the vectors. -/
structure Shuffled (now : ℕ) (due : ℕ → Option ℕ) (b b' : TvecBase) : Prop where
  refines : Refines b' now due
  listed : ∀ u, Listed b' u ↔ Listed b u
  clear : ∀ tv, tv ≠ .tv1 → Clear b now due tv → Clear b' now due tv
  work : b'.list .workList = b.list .workList

theorem Shuffled.refl (h : Refines b now due) : Shuffled now due b b :=
  ⟨h, fun _ => .rfl, fun _ _ hc => hc, rfl⟩

theorem Shuffled.trans {b'' : TvecBase} (h1 : Shuffled now due b b')
    (h2 : Shuffled now due b' b'') : Shuffled now due b b'' :=
  ⟨h2.refines, fun u => (h2.listed u).trans (h1.listed u),
    fun tv htv hc => h2.clear tv htv (h1.clear tv htv hc), h2.work.trans h1.work⟩

/-- The timers of the list visited now are due within its slot. -/
theorem Filed.dueOf_of_slot (h : Filed b now due) (htv : tv ≠ .tv1) (hdd : tv.width ∣ now)
    (ht : t ∈ b.list (.vec tv (now / tv.width % tv.size))) :
    (b.timer t).expires < 2 ^ 32 ∧ due t = some (dueOf now (b.timer t).expires) := by
  obtain ⟨d, hd, hon, hexp⟩ := h.vec ht
  have hst := (hon.slot_iff tv.width_pos hdd).1 rfl
  have hlt := lt_slotStart_add tv.width_pos d
  have hword := tv.width_le
  rw [hexp htv]
  refine ⟨Nat.mod_lt _ (Nat.two_pow_pos 32), ?_⟩
  rw [hd, dueOf_mod hon.le_time (by omega)]

theorem listReplaceInit_list (old head : ListHead) :
    (b.listReplaceInit old).2.list head = if head = old then [] else b.list head := by
  rw [TvecBase.listReplaceInit]
  by_cases hh : head = old <;> simp [hh]

theorem Filed.listReplaceInit (h : Filed b now due) (old : ListHead) :
    Filed (b.listReplaceInit old).2 now due := by
  refine h.sublist (fun head => ?_) rfl fun _ => rfl
  rw [listReplaceInit_list]
  split_ifs
  · exact nil_sublist _
  · exact .refl _

theorem Filed.listed_listReplaceInit (h : Filed b now due) (old : ListHead) (u : ℕ) :
    Listed (b.listReplaceInit old).2 u ↔ Listed b u ∧ u ∉ b.list old := by
  constructor
  · rintro ⟨head, hu⟩
    rw [listReplaceInit_list] at hu
    split_ifs at hu with hh
    · cases hu
    · exact ⟨⟨head, hu⟩, fun hu' => hh (h.unique hu hu')⟩
  rintro ⟨⟨head, hu⟩, hn⟩
  refine ⟨head, ?_⟩
  rw [listReplaceInit_list, if_neg]
  · exact hu
  rintro rfl
  exact hn hu

theorem Filed.clear_listReplaceInit (h : Filed b now due) (hdd : tv.width ∣ now) :
    Clear (b.listReplaceInit (.vec tv (now / tv.width % tv.size))).2 now due tv := by
  intro i u d hu hd hst
  rw [listReplaceInit_list] at hu
  split_ifs at hu with hh
  · cases hu
  obtain ⟨d', hd', hon, -⟩ := h.vec hu
  obtain rfl := Option.some.inj (hd'.symm.trans hd)
  exact hh (by rw [(hon.slot_iff tv.width_pos hdd).2 hst])

/-- **Distributing a list** that comes up leaves no timer in the vector that is late. -/
theorem Refines.cascade (h : Refines b now due) (htv : tv ≠ .tv1) (hdd : tv.width ∣ now)
    (hi : i = now / tv.width % tv.size) :
    Shuffled now due b (cascade tv i b).2 ∧ Clear (Timer.cascade tv i b).2 now due tv := by
  subst hi
  have hf := h.toFiled
  have hre := refiled_foldl (b.list (.vec tv (now / tv.width % tv.size)))
    (hf.listReplaceInit (.vec tv (now / tv.width % tv.size))) (h.nodup _)
    (fun t ht hl => ((hf.listed_listReplaceInit _ t).1 hl).2 ht)
    fun t ht => hf.dueOf_of_slot htv hdd ht
  have hlst : ∀ u, Listed (Timer.cascade tv (now / tv.width % tv.size) b).2 u ↔ Listed b u := by
    intro u
    apply (hre.listed u).trans
    rw [hf.listed_listReplaceInit]
    constructor
    · rintro (hu | hu)
      · exact hu.1
      · exact ⟨_, hu⟩
    intro hu
    by_cases hm : u ∈ b.list (.vec tv (now / tv.width % tv.size))
    · exact .inr hm
    · exact .inl ⟨hu, hm⟩
  constructor
  · constructor
    case refines =>
      refine ⟨hre.filed, fun u => ?_, fun u d hd => (hlst u).2 (h.listed u d hd)⟩
      rw [hlst]
      apply (hre.pending u).trans
      constructor
      · rintro (hu | hu)
        · exact (h.pending u).1 hu
        · exact ⟨_, hu⟩
      · exact fun hu => .inl ((h.pending u).2 hu)
    case listed => exact hlst
    case clear =>
      intro tv' htv' hc
      apply hre.clear tv' htv'
      intro i u d hu hd
      rw [listReplaceInit_list] at hu
      split_ifs at hu
      · cases hu
      · exact hc i u d hu hd
    case work =>
      apply hre.work.trans
      rw [listReplaceInit_list, if_neg (by simp)]
  · exact hre.clear tv htv (hf.clear_listReplaceInit hdd)

/-! ### The next jiffy -/

/-- The vectors whose lists are narrower than `2 ^ s` are clear. -/
def ClearBelow (b : TvecBase) (now : ℕ) (due : ℕ → Option ℕ) (s : ℕ) : Prop :=
  ∀ tv, tv ≠ .tv1 → tv.shift < s → Clear b now due tv

/-- No wider list comes up in a jiffy that does not begin a slot of `2 ^ s`. -/
theorem ClearBelow.of_not_dvd {s : ℕ} (h : ClearBelow b now due s) (hd : ¬ 2 ^ s ∣ now)
    (htv : tv ≠ .tv1) : Clear b now due tv := by
  by_cases hs : tv.shift < s
  · exact h tv htv hs
  have hword : ¬ tv.width ∣ now := fun h => hd ((pow_dvd_pow 2 (not_lt.1 hs)).trans h)
  exact fun _ _ d _ _ => slotStart_ne_of_not_dvd hword

theorem Filed.index_eq (h : Filed b now due) {n : ℕ} (htv : tv ≠ .tv1)
    (hn : tv.shift = tvrBits + n * tvnBits) : b.index n = now / tv.width % tv.size := by
  have hle : tv.shift ≤ 26 := by cases tv <;> decide
  have hsz : tv.size = 1 <<< tvnBits := by cases tv <;> first | rfl | exact absurd rfl htv
  rw [TvecBase.index, h.timerJiffies, ← hn, shift_and_tvnMask hle, hsz, Tv.width]

/-- One vector of the chain: it is clear afterwards, and the next one comes up where its own list
was the first one. -/
theorem Shuffled.cascade {b1 : TvecBase} (tv : Tv) (n : ℕ) (h : Shuffled now due b b1)
    (hb : ClearBelow b1 now due tv.shift) (hd : 2 ^ tv.shift ∣ now) (htv : tv ≠ .tv1)
    (hn : tv.shift = tvrBits + n * tvnBits) : Shuffled now due b (cascade tv (b1.index n) b1).2 ∧
      ClearBelow (Timer.cascade tv (b1.index n) b1).2 now due (tv.shift + tvnBits) ∧
      ((Timer.cascade tv (b1.index n) b1).1 = 0 ↔ 2 ^ (tv.shift + tvnBits) ∣ now) := by
  have hi := h.refines.toFiled.index_eq htv hn
  obtain ⟨hsh, hc⟩ := h.refines.cascade htv hd hi
  refine ⟨h.trans hsh, ?_, ?_⟩
  · intro tv' htv' hs
    have hcases : tv' = tv ∨ tv'.shift < tv.shift := by
      cases tv <;> cases tv' <;> first | exact .inl rfl | exact .inr (by decide) | revert hs; decide
    rcases hcases with rfl | hlt
    · exact hc
    · exact hsh.clear tv' htv' (hb tv' htv' hlt)
  · have hsz : tv.size = 2 ^ tvnBits := by cases tv <;> first | rfl | exact absurd rfl htv
    rw [pow_add, ← hsz]
    apply Iff.trans _ (mul_dvd_iff_slot hd).symm
    rw [Timer.cascade]
    rw [hi, Tv.width]

/-- **Distributing what comes up** leaves no late timer behind `tv1`. -/
theorem Refines.cascadeTimers (h : Refines b now due) : Shuffled now due b (cascadeTimers b) ∧
      ∀ tv, tv ≠ .tv1 → Clear (Timer.cascadeTimers b) now due tv := by
  have hb : ClearBelow b now due Tv.tv2.shift := by
    intro tv htv hs
    cases tv <;> first | exact absurd rfl htv | exact absurd hs (by decide)
  have hidx : b.timerJiffies &&& tvrMask = 0 ↔ 2 ^ Tv.tv2.shift ∣ now := by
    rw [h.timerJiffies, and_tvrMask, Nat.dvd_iff_mod_eq_zero]
    rfl
  rw [Timer.cascadeTimers]
  -- the chain stops at the first vector that is not at its first list
  by_cases hi : b.timerJiffies &&& tvrMask = 0
  case neg =>
    rw [if_pos hi]
    exact ⟨.refl h, fun tv htv => hb.of_not_dvd (mt hidx.2 hi) htv⟩
  rw [if_neg (not_ne_iff.2 hi)]
  obtain ⟨h2, hb2, hd2⟩ := (Shuffled.refl h).cascade .tv2 0 hb (hidx.1 hi) (by decide) rfl
  by_cases hi2 : (Timer.cascade .tv2 (b.index 0) b).1 = 0
  case neg =>
    rw [if_pos hi2]
    exact ⟨h2, fun tv htv => hb2.of_not_dvd (mt hd2.2 hi2) htv⟩
  rw [if_neg (not_ne_iff.2 hi2)]
  generalize (Timer.cascade .tv2 (b.index 0) b).2 = b2 at h2 hb2 ⊢
  obtain ⟨h3, hb3, hd3⟩ := h2.cascade .tv3 1 hb2 (hd2.1 hi2) (by decide) rfl
  by_cases hi3 : (Timer.cascade .tv3 (b2.index 1) b2).1 = 0
  case neg =>
    rw [if_pos hi3]
    exact ⟨h3, fun tv htv => hb3.of_not_dvd (mt hd3.2 hi3) htv⟩
  rw [if_neg (not_ne_iff.2 hi3)]
  generalize (Timer.cascade .tv3 (b2.index 1) b2).2 = b3 at h3 hb3 ⊢
  obtain ⟨h4, hb4, hd4⟩ := h3.cascade .tv4 2 hb3 (hd3.1 hi3) (by decide) rfl
  by_cases hi4 : (Timer.cascade .tv4 (b3.index 2) b3).1 = 0
  case neg =>
    rw [if_pos hi4]
    exact ⟨h4, fun tv htv => hb4.of_not_dvd (mt hd4.mpr hi4) htv⟩
  rw [if_neg (not_ne_iff.2 hi4)]
  obtain ⟨h5, hb5, -⟩ := h4.cascade .tv5 3 hb4 (hd4.mp hi4) (by decide) rfl
  refine ⟨h5, fun tv htv => hb5 tv htv ?_⟩
  cases tv <;> decide

theorem takeJiffy_list : (takeJiffy i b).list head =
      if head = .workList then b.list (.vec .tv1 i)
      else if head = .vec .tv1 i then [] else b.list head := by
  simp [takeJiffy, TvecBase.listReplaceInit, Function.update_apply]

/-- The list a timer was in before the work list was made. -/
theorem mem_takeJiffy (hwo : b.list .workList = []) : u ∈ (takeJiffy i b).list head ↔
      head = .workList ∧ u ∈ b.list (.vec .tv1 i) ∨ head ≠ .vec .tv1 i ∧ u ∈ b.list head := by
  rw [takeJiffy_list]
  by_cases hw : head = .workList
  · subst hw
    simp [hwo]
  by_cases hv : head = .vec .tv1 i
  · simp [hv]
  · simp [hw]

theorem listed_takeJiffy (hwo : b.list .workList = []) : Listed (takeJiffy i b) u ↔ Listed b u := by
  constructor
  · rintro ⟨head, hu⟩
    rcases (mem_takeJiffy hwo).1 hu with ⟨-, hu⟩ | ⟨-, hu⟩ <;> exact ⟨_, hu⟩
  rintro ⟨head, hu⟩
  by_cases hv : head = .vec .tv1 i
  · subst hv
    exact ⟨.workList, (mem_takeJiffy hwo).2 (.inl ⟨rfl, hu⟩)⟩
  · exact ⟨head, (mem_takeJiffy hwo).2 (.inr ⟨hv, hu⟩)⟩

/-- **The timers of the jiffy** become the work list, and the others wait on. -/
theorem Refines.takeJiffy (h : Refines b now due) (hwo : b.list .workList = [])
    (hc : ∀ tv, tv ≠ .tv1 → Clear b now due tv) :
    Refines (takeJiffy (now % tvrSize) b) (now + 1) due := by
  have hsl : now / Tv.tv1.width % Tv.tv1.size = now % tvrSize := by
    rw [Tv.width, Tv.shift, pow_zero, Nat.div_one, Tv.size]
  have hdd : Tv.tv1.width ∣ now := one_dvd now
  constructor
  · constructor
    case timerJiffies =>
      change add32 b.timerJiffies 1 = _
      rw [add32, h.timerJiffies, Nat.mod_add_mod]
    case vec =>
      intro tv i u hu
      rcases (mem_takeJiffy hwo).1 hu with ⟨hhd, -⟩ | ⟨hne, hu⟩
      · cases hhd
      obtain ⟨d, hd, hon, hexp⟩ := h.vec hu
      refine ⟨d, hd, hon.succ ?_, hexp⟩
      by_cases htv : tv = .tv1
      · subst htv
        rw [← hsl] at hne
        intro hst
        exact hne (by rw [(hon.slot_iff Tv.tv1.width_pos hdd).2 hst])
      · exact hc tv htv i u d hu hd
    case work =>
      intro u hu
      rcases (mem_takeJiffy hwo).1 hu with ⟨-, hu⟩ | ⟨-, hu⟩
      · obtain ⟨d, hd, hon, -⟩ := h.vec hu
        have hst := (hon.slot_iff Tv.tv1.width_pos hdd).1 hsl.symm
        have hn : d = now := (slotStart_one).symm.trans hst
        exact ⟨d, hd, congrArg (· + 1) hn⟩
      · rw [hwo] at hu
        cases hu
    case word =>
      intro head u hu
      rcases (mem_takeJiffy hwo).1 hu with ⟨-, hu⟩ | ⟨-, hu⟩ <;> exact h.word hu
    case nodup =>
      intro head
      rw [takeJiffy_list]
      split_ifs
      · exact h.nodup _
      · exact nodup_nil
      · exact h.nodup _
    case unique =>
      intro u head head' hu hu'
      rcases (mem_takeJiffy hwo).1 hu with ⟨rfl, hu⟩ | ⟨hne, hu⟩
      · rcases (mem_takeJiffy hwo).1 hu' with ⟨rfl, -⟩ | ⟨hne', hu'⟩
        · rfl
        · exact absurd (h.unique hu' hu) hne'
      rcases (mem_takeJiffy hwo).1 hu' with ⟨rfl, hu'⟩ | ⟨-, hu'⟩
      · exact absurd (h.unique hu hu') hne
      · exact h.unique hu hu'
  · intro u
    rw [listed_takeJiffy hwo]
    exact h.pending u
  intro u d hd
  rw [listed_takeJiffy hwo]
  exact h.listed u d hd

theorem Filed.exists_due (h : Filed b now due) (ht : Listed b t) : ∃ d, due t = some d := by
  obtain ⟨head, ht⟩ := ht
  cases head with
  | vec tv i =>
    obtain ⟨d, hd, -⟩ := h.vec ht
    exact ⟨d, hd⟩
  | workList =>
    obtain ⟨d, hd, -⟩ := h.work ht
    exact ⟨d, hd⟩

/-- A pending timer is not late where no timer is waiting to be run. -/
theorem Refines.now_le (h : Refines b now due) (hwo : b.list .workList = []) (hd : due t = some d) :
    now ≤ d := by
  obtain ⟨head, ht⟩ := h.listed t d hd
  cases head with
  | workList =>
    rw [hwo] at ht
    cases ht
  | vec tv i =>
    obtain ⟨d', hd', hon, -⟩ := h.vec ht
    obtain rfl := Option.some.inj (hd'.symm.trans hd)
    exact hon.le_time

/-- **The next jiffy.** -/
theorem Refines.nextJiffy (h : Refines b now due) (hsp : nextJiffy b = some b') :
    Refines b' (now + 1) due ∧ ∀ t d, due t = some d → now ≤ d := by
  rw [Timer.nextJiffy] at hsp
  split_ifs at hsp with hcn
  obtain rfl := Option.some.inj hsp
  refine ⟨?_, fun t d hd => h.now_le hcn.1 hd⟩
  obtain ⟨hsh, hc⟩ := h.cascadeTimers
  rw [h.timerJiffies, and_tvrMask]
  exact hsh.refines.takeJiffy (hsh.work.trans hcn.1) hc

end NestLinux.Timer
