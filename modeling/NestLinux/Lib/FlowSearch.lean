import NestLinux.Lib.Interpreter
import Mathlib.Data.Finset.Card

/-!
# Looking for loops in a program of jumps

A program is a graph in which a node may have a node that follows it, and may jump to
another one. A depth-first search from a start goes to where a node jumps first and then to
what follows it, and keeps the path from the start. It meets a node of the path again
exactly when there is a loop to be reached from the start; if it does not, it has seen
exactly the nodes that are reached.

The search has no record of which of the two ways it took from a node on the path: it tells
by comparing what follows the node with the node it comes back from. A node that jumps to
what follows it is then done after one visit, as it should be.
-/

namespace NestLinux.Lib

open Finset List

section Closed

variable {α : Type*} {r r' : α → α → Prop} {S : α → Prop}

/-- A walk that starts in a closed set stays there, and goes by any relation that has its
steps. -/
theorem reflTransGen_of_closed (h : ∀ p, S p → ∀ q, r p q → r' p q ∧ S q) {p q : α} (hp : S p)
    (hpq : Relation.ReflTransGen r p q) : Relation.ReflTransGen r' p q ∧ S q := by
  induction hpq with
  | refl => exact ⟨.refl, hp⟩
  | tail _ hsp ih => exact ⟨ih.1.tail (h _ ih.2 _ hsp).1, (h _ ih.2 _ hsp).2⟩

theorem transGen_of_closed (h : ∀ p, S p → ∀ q, r p q → r' p q ∧ S q) {p q : α} (hp : S p)
    (hpq : Relation.TransGen r p q) : Relation.TransGen r' p q ∧ S q := by
  induction hpq with
  | single hsp => exact ⟨.single (h _ hp _ hsp).1, (h _ hp _ hsp).2⟩
  | tail _ hsp ih => exact ⟨ih.1.tail (h _ ih.2 _ hsp).1, (h _ ih.2 _ hsp).2⟩

end Closed

/-- Nodes that jump and are followed by others. A search may refuse a node, the first time it
gets there (`false`) or when it turns back from it (`true`). -/
structure Flow (α : Type*) where
  jump : α → Option α
  fall : α → Option α
  refuses : Bool → α → Bool
  jump_eq_none : ∀ p, fall p = none → jump p = none

namespace Flow

variable {α : Type*} {g : Flow α}

/-- From a node to where it jumps, and to what follows it. -/
def Edge (g : Flow α) (p q : α) : Prop := g.jump p = some q ∨ g.fall p = some q

/-- The nodes reached from a node, itself included. -/
def Reach (g : Flow α) : α → α → Prop := Relation.ReflTransGen g.Edge

/-- A loop is reached from a node. -/
def Loops (g : Flow α) (start : α) : Prop := ∃ p, g.Reach start p ∧ Relation.TransGen g.Edge p p

theorem not_edge_of_fall_eq_none {p q : α} (h : g.fall p = none) : ¬ g.Edge p q := by
  intro hed
  cases hed with
  | inl hjm =>
    rw [g.jump_eq_none p h] at hjm
    cases hjm
  | inr hfa =>
    rw [h] at hfa
    cases hfa

/-! ## The search -/

/-- The nodes seen, the path below the node that the search is at, innermost first, and
whether the search turns back from there. -/
structure Search (α : Type*) where
  seen : Finset α
  path : List α
  top : α
  back : Bool

inductive Found (α : Type*)
  | loop
  | refused
  | all (seen : Finset α)

/-- The search before its first step. -/
def searchFrom (start : α) : Search α := ⟨∅, [], start, false⟩

/-! ## The path -/

/-- The path from the start to a node, by edges. Where it goes on to what follows a node, the
jump of that node is done. -/
inductive Trail (g : Flow α) (done : α → Prop) (start : α) : α → List α → Prop
  | start : Trail g done start start []
  | step {q c : α} {rest : List α} (trail : Trail g done start q rest) (edge : g.Edge q c)
      (jumped : g.fall q = some c → ∀ t, g.jump q = some t → t = c ∨ done t) :
      Trail g done start c (q :: rest)

theorem Trail.mono {done done' : α → Prop} {start c : α} {path : List α}
    (h : Trail g done start c path) (hd : ∀ t, done t → done' t) : Trail g done' start c path := by
  induction h with
  | start => exact .start
  | step _ edge jumped ih =>
    refine .step ih edge ?_
    intro hfa t ht
    exact (jumped hfa t ht).imp_right (hd t)

theorem Trail.reach {done : α → Prop} {start c : α} {path : List α}
    (h : Trail g done start c path) : g.Reach start c := by
  induction h with
  | start => exact .refl
  | step _ edge _ ih => exact ih.tail edge

theorem Trail.transGen {done : α → Prop} {start c : α} {path : List α}
    (h : Trail g done start c path) {q : α} (hq : q ∈ path) : Relation.TransGen g.Edge q c := by
  induction h with
  | start => cases hq
  | step _ edge _ ih =>
    cases hq with
    | head => exact .single edge
    | tail _ hm => exact (ih hm).tail edge

theorem Trail.uncons {done : α → Prop} {start q c : α} {rest : List α}
    (h : Trail g done start c (q :: rest)) : Trail g done start q rest ∧ g.Edge q c ∧
      (g.fall q = some c → ∀ t, g.jump q = some t → t = c ∨ done t) := by
  cases h with
  | step trail edge jumped => exact ⟨trail, edge, jumped⟩

theorem Trail.eq_start {done : α → Prop} {start c : α} (h : Trail g done start c []) :
    c = start := by
  cases h
  rfl

/-! ## The invariant -/

/-- What holds during a search from a start: a node that was seen and is not on the path is
done, that is, so is everything it leads to, and no loop is reached from it. -/
structure Searched (g : Flow α) (start : α) (s : Search α) : Prop where
  trail : Trail g (fun t => t ∈ s.seen ∧ t ∉ s.path) start s.top s.path
  nodup : s.path.Nodup
  path_seen : ∀ q ∈ s.path, q ∈ s.seen ∧ g.fall q ≠ none
  reach : ∀ p ∈ s.seen, g.Reach start p
  closed : ∀ p ∈ s.seen, p ∉ s.path → ∀ q, g.Edge p q → q ∈ s.seen ∧ q ∉ s.path
  acyclic : ∀ p ∈ s.seen, p ∉ s.path → ¬ Relation.TransGen g.Edge p p
  back : s.back = true → s.top ∈ s.seen ∧ s.top ∉ s.path

theorem searched_start (g : Flow α) (start : α) : Searched g start (searchFrom start) where
  trail := .start
  nodup := nodup_nil
  path_seen := fun _ hq => by cases hq
  reach := fun _ hp => by simp [searchFrom] at hp
  closed := fun _ hp => by simp [searchFrom] at hp
  acyclic := fun _ hp => by simp [searchFrom] at hp
  back := fun h => by cases h

/-- A node whose edges lead to what is done is on no loop. -/
theorem not_transGen_of_closed {done : α → Prop} (hcld : ∀ p, done p → ∀ q, g.Edge p q → done q)
    {p : α} (hp : ¬ done p) (hedg : ∀ q, g.Edge p q → done q) : ¬ Relation.TransGen g.Edge p p := by
  intro hlp
  cases Relation.TransGen.head'_iff.1 hlp with
  | intro q hq =>
    cases Relation.reflTransGen_iff_eq_or_transGen.1 hq.2 with
    | inl heq =>
      rw [heq] at hp
      exact hp (hedg q hq.1)
    | inr htr => exact hp (transGen_of_closed (fun p hp q he => ⟨he, hcld p hp q he⟩)
        (hedg q hq.1) htr).2

/-- What a search that ends well has found. -/
def SearchEnd (g : Flow α) (start : α) : Found α → Prop
  | .loop => g.Loops start
  | .refused => ∃ again p, g.Reach start p ∧ g.refuses again p = true
  | .all seen => (∀ p, p ∈ seen ↔ g.Reach start p) ∧ ¬ g.Loops start

section Back

variable {start : α} {s : Search α}

section

variable (h : Searched g start s) (hbk : s.back = true)

include h hbk

/-- The search comes back to a node from what follows it: that node is done too. -/
theorem Searched.pop {q : α} {rest : List α} (hph : s.path = q :: rest)
    (hfa : g.fall q = some s.top) : Searched g start ⟨s.seen, rest, q, true⟩ := by
  obtain ⟨seen, path, top, back⟩ := s
  subst hph hbk
  have hnd := nodup_cons.1 h.nodup
  have htp := h.back rfl
  obtain ⟨trail, -, jumped⟩ := h.trail.uncons
  have hcld (p : α) (hp : p ∈ seen ∧ p ∉ q :: rest) (c : α) (hed : g.Edge p c) :
      c ∈ seen ∧ c ∉ q :: rest := h.closed p hp.1 hp.2 c hed
  have hedg (c : α) (hed : g.Edge q c) : c ∈ seen ∧ c ∉ q :: rest := by
    cases hed with
    | inl hjm =>
      cases jumped hfa c hjm with
      | inl heq =>
        rw [heq]
        exact htp
      | inr hdn => exact hdn
    | inr hnx =>
      rw [hfa, Option.some.injEq] at hnx
      rw [← hnx]
      exact htp
  have hn : ¬ (q ∈ seen ∧ q ∉ q :: rest) := fun hc => hc.2 mem_cons_self
  have hrs {p : α} (hp : p ∈ seen ∧ p ∉ q :: rest) : p ∈ seen ∧ p ∉ rest :=
    ⟨hp.1, fun hm => hp.2 (mem_cons_of_mem q hm)⟩
  refine ⟨trail.mono fun t ht => hrs ht, hnd.2, ?_, h.reach, ?_, ?_, ?_⟩
  · exact fun p hp => h.path_seen p (mem_cons_of_mem q hp)
  · intro p hp hp' c hed
    by_cases hpq : p = q
    · rw [hpq] at hed
      exact hrs (hedg c hed)
    · exact hrs (hcld p ⟨hp, by simp [hpq, hp']⟩ c hed)
  · intro p hp hp'
    by_cases hpq : p = q
    · rw [hpq]
      exact not_transGen_of_closed hcld hn hedg
    · exact h.acyclic p hp (by simp [hpq, hp'])
  · exact fun _ => ⟨(h.path_seen q mem_cons_self).1, hnd.1⟩

/-- The search comes back to a node from its jump, and goes on with what follows it. -/
theorem Searched.along {q f : α} {rest : List α}
    (hph : s.path = q :: rest) (hfa : g.fall q = some f) (hne : f ≠ s.top) :
    Searched g start ⟨s.seen, q :: rest, f, false⟩ := by
  obtain ⟨seen, path, top, back⟩ := s
  subst hph hbk
  have htp := h.back rfl
  obtain ⟨trail, edge, -⟩ := h.trail.uncons
  refine ⟨.step trail (Or.inr hfa) ?_, h.nodup, h.path_seen, h.reach, h.closed, h.acyclic, ?_⟩
  · intro _ t ht
    cases edge with
    | inl hjm =>
      rw [hjm, Option.some.injEq] at ht
      rw [← ht]
      exact .inr htp
    | inr hnx =>
      rw [hfa, Option.some.injEq] at hnx
      exact absurd hnx hne
  · intro hc
    cases hc

/-- A search that is back at the start has seen what is reached. -/
theorem Searched.all (hph : s.path = []) : SearchEnd g start (.all s.seen) := by
  obtain ⟨seen, path, top, back⟩ := s
  subst hph hbk
  have ht : start ∈ seen := by
    rw [← h.trail.eq_start]
    exact (h.back rfl).1
  have hse (p : α) (hp : g.Reach start p) : p ∈ seen := by
    induction hp with
    | refl => exact ht
    | tail _ hed ih => exact (h.closed _ ih not_mem_nil _ hed).1
  refine ⟨fun p => ⟨h.reach p, hse p⟩, ?_⟩
  rintro ⟨p, hp, hlp⟩
  exact h.acyclic p (hse p hp) not_mem_nil hlp

end

end Back

variable [DecidableEq α]

/-! ## The steps -/

def searchStep (g : Flow α) (s : Search α) : Outcome (Search α) (Found α) :=
  match s.back with
  | false =>
    if s.top ∈ s.path then .done .loop
    else
      match g.fall s.top with
      | none =>
        if g.refuses true s.top then .done .refused
        else .next ⟨insert s.top s.seen, s.path, s.top, true⟩
      | some f =>
        if s.top ∈ s.seen then
          if g.refuses true s.top then .done .refused
          else .next ⟨s.seen, s.path, s.top, true⟩
        else if g.refuses false s.top then .done .refused
        else .next ⟨insert s.top s.seen, s.top :: s.path, (g.jump s.top).getD f, false⟩
  | true =>
    match s.path with
    | [] => .done (.all s.seen)
    | q :: rest =>
      match g.fall q with
      | none => .done .refused
      | some f =>
        if f = s.top then .next ⟨s.seen, rest, q, true⟩
        else .next ⟨s.seen, q :: rest, f, false⟩

/-- The search from a start comes to a state. -/
def ComesTo (g : Flow α) (start : α) (s : Search α) : Prop :=
  ∃ n, runFor (searchStep g) n (searchFrom start) = .next s

/-- The search from a start gets to a node before it ends. -/
def Visits (g : Flow α) (start p : α) : Prop := ∃ s, g.ComesTo start s ∧ p ∈ s.top :: s.path

/-- The search from a start meets no loop and refuses no node. -/
def Completes (g : Flow α) (start : α) : Prop :=
  ∃ n seen, runFor (searchStep g) n (searchFrom start) = .done (.all seen)

/-- How much a path leaves to do: from a node left by its jump the search still goes on to
what follows it. -/
def pathWeight (g : Flow α) : α → List α → ℕ
  | _, [] => 0
  | c, q :: rest => (if g.fall q = some c then 1 else 5) + pathWeight g q rest

/-- The steps left, for a search among the nodes of a finite set. -/
def searchMeasure (g : Flow α) (nodes : Finset α) (s : Search α) : ℕ :=
  8 * (nodes \ s.seen).card + pathWeight g s.top s.path + (if s.back then 1 else 2)

section Steps

variable {start : α} {nodes : Finset α} {s : Search α}

theorem card_sdiff_insert {p : α} {seen : Finset α} (hp : p ∈ nodes) (hn : p ∉ seen) :
    (nodes \ insert p seen).card + 1 = (nodes \ seen).card := by
  have hm : p ∈ nodes \ seen := mem_sdiff.2 ⟨hp, hn⟩
  rw [sdiff_insert, card_erase_of_mem hm]
  have hps := card_pos.2 ⟨p, hm⟩
  omega

theorem card_sdiff_insert_le (p : α) (seen : Finset α) :
    (nodes \ insert p seen).card ≤ (nodes \ seen).card :=
  card_le_card (sdiff_subset_sdiff (Finset.Subset.refl _) (subset_insert _ _))

/-- The search turns back from a node that leads nowhere, or that was done before. -/
theorem Searched.turn (h : Searched g start s) (hph : s.top ∉ s.path)
    (hdn : g.fall s.top = none ∨ s.top ∈ s.seen) :
    Searched g start ⟨insert s.top s.seen, s.path, s.top, true⟩ := by
  refine ⟨?_, h.nodup, ?_, ?_, ?_, ?_, ?_⟩
  · exact h.trail.mono fun t ht => ⟨mem_insert_of_mem ht.1, ht.2⟩
  · exact fun q hq => ⟨mem_insert_of_mem (h.path_seen q hq).1, (h.path_seen q hq).2⟩
  · exact (forall_mem_insert ..).2 ⟨h.trail.reach, h.reach⟩
  · intro p hp hn q hed
    have hold (hse : p ∈ s.seen) : q ∈ insert s.top s.seen ∧ q ∉ s.path :=
      ⟨mem_insert_of_mem (h.closed p hse hn q hed).1, (h.closed p hse hn q hed).2⟩
    cases mem_insert.1 hp with
    | inl heq =>
      subst heq
      cases hdn with
      | inl hno => exact absurd hed (not_edge_of_fall_eq_none hno)
      | inr hse => exact hold hse
    | inr hse => exact hold hse
  · intro p hp hn
    cases mem_insert.1 hp with
    | inl heq =>
      subst heq
      cases hdn with
      | inl hno =>
        intro hlp
        obtain ⟨q, hq, -⟩ := Relation.TransGen.head'_iff.1 hlp
        exact not_edge_of_fall_eq_none hno hq
      | inr hse => exact h.acyclic _ hse hn
    | inr hse => exact h.acyclic p hse hn
  · exact fun _ => ⟨mem_insert_self _ _, hph⟩

/-- The search goes on from a node seen for the first time. -/
theorem Searched.push (h : Searched g start s) (hph : s.top ∉ s.path) (hn : s.top ∉ s.seen)
    {f : α} (hfa : g.fall s.top = some f) :
    Searched g start ⟨insert s.top s.seen, s.top :: s.path, (g.jump s.top).getD f, false⟩ := by
  have hdn (t : α) (ht : t ∈ s.seen ∧ t ∉ s.path) :
      t ∈ insert s.top s.seen ∧ t ∉ s.top :: s.path := by
    refine ⟨mem_insert_of_mem ht.1, ?_⟩
    rw [List.mem_cons, not_or]
    refine ⟨?_, ht.2⟩
    rintro rfl
    exact hn ht.1
  -- a node that is done was seen before
  have hold {p : α} (hp : p ∈ insert s.top s.seen) (hnt : p ∉ s.top :: s.path) :
      p ∈ s.seen ∧ p ∉ s.path := by
    rw [List.mem_cons, not_or] at hnt
    exact ⟨mem_of_mem_insert_of_ne hp hnt.1, hnt.2⟩
  refine ⟨?_, List.nodup_cons.2 ⟨hph, h.nodup⟩, ?_, ?_, ?_, ?_, ?_⟩
  · refine .step (h.trail.mono hdn) ?_ ?_
    · cases hjm : g.jump s.top with
      | none => exact .inr hfa
      | some t => exact .inl hjm
    intro _ t ht
    rw [ht]
    exact .inl rfl
  · intro q hq
    cases List.mem_cons.1 hq with
    | inl heq =>
      rw [heq, hfa]
      exact ⟨mem_insert_self _ _, Option.some_ne_none f⟩
    | inr hm => exact ⟨mem_insert_of_mem (h.path_seen q hm).1, (h.path_seen q hm).2⟩
  · exact (forall_mem_insert ..).2 ⟨h.trail.reach, h.reach⟩
  · intro p hp hnt q hed
    exact hdn q (h.closed p (hold hp hnt).1 (hold hp hnt).2 q hed)
  · intro p hp hnt
    exact h.acyclic p (hold hp hnt).1 (hold hp hnt).2
  intro hbk
  cases hbk

/-- **One step of the search** keeps the invariant and leaves less to do, or ends well. -/
theorem searchStep_safe (htop : s.top ∈ nodes) (h : Searched g start s) :
    SafeStep (Searched g start) (searchMeasure g nodes) (SearchEnd g start) s (searchStep g s) := by
  have hr := h.trail.reach
  unfold searchStep
  cases hbk : s.back with
  | false =>
    by_cases hph : s.top ∈ s.path
    · rw [if_pos hph]
      exact ⟨s.top, hr, h.trail.transGen hph⟩
    rw [if_neg hph]
    cases hfa : g.fall s.top with
    | none =>
      cases href : g.refuses true s.top with
      | true => exact ⟨true, s.top, hr, href⟩
      | false =>
        refine ⟨h.turn hph (Or.inl hfa), ?_⟩
        have hle := @card_sdiff_insert_le _ _ nodes s.top s.seen
        simp only [searchMeasure, hbk, if_true, Bool.false_eq_true, if_false]
        omega
    | some f =>
      simp only
      by_cases hse : s.top ∈ s.seen
      · rw [if_pos hse]
        cases href : g.refuses true s.top with
        | true => exact ⟨true, s.top, hr, href⟩
        | false =>
          have htr := h.turn hph (Or.inr hse)
          rw [insert_eq_self.2 hse] at htr
          refine ⟨htr, ?_⟩
          simp only [searchMeasure, hbk, if_true, Bool.false_eq_true, if_false]
          omega
      · rw [if_neg hse]
        cases href : g.refuses false s.top with
        | true => exact ⟨false, s.top, hr, href⟩
        | false =>
          refine ⟨h.push hph hse hfa, ?_⟩
          have hcd := card_sdiff_insert htop hse
          simp only [searchMeasure, pathWeight]
          split_ifs <;> omega
  | true =>
    cases hph : s.path with
    | nil => exact h.all hbk hph
    | cons q rest =>
      have hq := h.path_seen q (by simp [hph])
      obtain ⟨f, hfa⟩ := Option.ne_none_iff_exists'.1 hq.2
      simp only [hfa]
      by_cases ht : f = s.top
      · rw [if_pos ht]
        rw [ht] at hfa
        refine ⟨h.pop hbk hph hfa, ?_⟩
        simp only [searchMeasure, hph, pathWeight, hbk, hfa, if_true]
        omega
      rw [if_neg ht]
      refine ⟨h.along hbk hph hfa ht, ?_⟩
      simp only [searchMeasure, hph, pathWeight, hfa, if_true, Option.some.injEq, if_neg ht,
        Bool.false_eq_true, if_false]
      omega

/-! ## Where the search gets to -/

theorem comesTo_start (g : Flow α) (start : α) : g.ComesTo start (searchFrom start) := ⟨0, rfl⟩

theorem ComesTo.next {t : Search α} (h : g.ComesTo start s) (hst : searchStep g s = .next t) :
    g.ComesTo start t := by
  obtain ⟨n, hn⟩ := h
  exact ⟨n + 1, by rw [runFor_add hn, runFor_succ_next hst, runFor_zero]⟩

theorem ComesTo.searched (h : g.ComesTo start s) : Searched g start s := by
  obtain ⟨n, hn⟩ := h
  have hkeeps : Keeps (Searched g start) (SearchEnd g start)
      (runFor (searchStep g) n (searchFrom start)) :=
    runFor_keeps (fun s hs => (searchStep_safe (Finset.mem_singleton_self s.top) hs).keeps) n
      (searched_start g start)
  rwa [hn] at hkeeps

theorem Visits.reach {p : α} (h : g.Visits start p) : g.Reach start p := by
  obtain ⟨s, hs, hp⟩ := h
  have hsearched := hs.searched
  cases hp with
  | head => exact hsearched.trail.reach
  | tail _ hp => exact hsearched.reach p (hsearched.path_seen p hp).1

end Steps

/-- **The search comes to an end.** If it gets to finitely many nodes, it finds a loop, refuses a
node, or has seen what is reached. -/
theorem search_found {start : α} {nodes : Finset α} (hnds : ∀ p, g.Visits start p → p ∈ nodes)
    {n : ℕ} (hn : 8 * nodes.card + 2 < n) :
    ∃ r, runFor (searchStep g) n (searchFrom start) = .done r ∧ SearchEnd g start r := by
  have hstep (s : Search α) (hs : g.ComesTo start s) :
      SafeStep (g.ComesTo start) (searchMeasure g nodes) (SearchEnd g start) s
        (searchStep g s) := by
    have hsafe := searchStep_safe (hnds s.top ⟨s, hs, mem_cons_self⟩) hs.searched
    cases hst : searchStep g s with
    | next t =>
      rw [hst] at hsafe
      exact ⟨hs.next hst, hsafe.2⟩
    | done r =>
      rw [hst] at hsafe
      exact hsafe
  refine runFor_done_of_measure hstep (comesTo_start g start) ?_
  simp only [searchMeasure, searchFrom, sdiff_empty, pathWeight, Bool.false_eq_true, if_false]
  omega

end Flow

end NestLinux.Lib
