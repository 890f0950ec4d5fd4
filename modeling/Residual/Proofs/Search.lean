import Mathlib.Logic.Relation
import Residual.Worklist

/-!
This module contains the rule by which facts about searches are proved: what every step preserves
holds when the search ends. The closure of a graph follows from it.
-/

namespace Residual

open Std

namespace Worklist

variable {α : Type} [Ord α]

def HasLeft (q : Worklist α) (x : α) : Prop := ∃ i < q.cursor, q.seen.get? i = some x

variable {q q' : Worklist α} {x y : α}

theorem hasLeft_iff_of_pop (h : q.pop = some (x, q')) : q'.HasLeft y ↔ q.HasLeft y ∨ y = x := by
  have hx := get?_cursor_of_pop h
  unfold HasLeft
  rw [cursor_of_pop h, seen_of_pop h]
  constructor
  · rintro ⟨i, hlt, hi⟩
    rcases Nat.lt_succ_iff_lt_or_eq.1 hlt with hlt | rfl
    · exact Or.inl ⟨i, hlt, hi⟩
    · exact Or.inr (Option.some.inj (hi.symm.trans hx))
  · rintro (⟨i, hlt, hi⟩ | rfl)
    · exact ⟨i, Nat.lt_succ_of_lt hlt, hi⟩
    · exact ⟨q.cursor, Nat.lt_succ_self q.cursor, hx⟩

theorem HasLeft.mem_seen (h : q.HasLeft x) : x ∈ q.seen := by
  obtain ⟨i, _, hi⟩ := h
  exact Numbering.mem_of_get? hi

theorem not_hasLeft_of_pop (h : q.pop = some (x, q')) : ¬q.HasLeft x := by
  rintro ⟨i, hlt, hi⟩
  exact Nat.ne_of_lt hlt (Numbering.get?_inj hi (get?_cursor_of_pop h))

theorem hasLeft_of_pop_none (h : q.pop = none) (hx : x ∈ q.seen) : q.HasLeft x := by
  obtain ⟨i, hi⟩ := Numbering.mem_iff_exists_get?.1 hx
  refine ⟨i, ?_, hi⟩
  rw [cursor_of_pop_none h]
  exact Numbering.lt_size_of_get? hi

variable [TransOrd α] [LawfulEqOrd α]

theorem get?_seen_push_of_lt {i : Nat} (h : i < q.numSeen) (x : α) :
    (q.push x).2.seen.get? i = q.seen.get? i := by
  unfold push
  split
  · rfl
  next hx =>
    show (q.seen.push x hx).get? i = q.seen.get? i
    rw [Numbering.get?_push]
    apply if_neg
    exact Nat.ne_of_lt h

theorem hasLeft_push_iff : (q.push x).2.HasLeft y ↔ q.HasLeft y := by
  unfold HasLeft
  rw [cursor_push]
  apply exists_congr
  intro i
  apply and_congr_right
  intro hlt
  rw [get?_seen_push_of_lt (Nat.lt_of_lt_of_le hlt q.cursor_le)]

theorem hasLeft_pushAll_iff {l : List α} : (q.pushAll l).HasLeft y ↔ q.HasLeft y := by
  induction l generalizing q with
  | nil => rfl
  | cons x l ih => exact ih.trans hasLeft_push_iff

theorem mem_seen_roots_iff {roots : List α} : x ∈ (empty.pushAll roots).seen ↔ x ∈ roots := by
  rw [mem_seen_pushAll]
  constructor
  · rintro (hx | hx)
    · exact absurd hx (Numbering.not_mem_empty x)
    · exact hx
  · exact Or.inr

theorem not_hasLeft_roots (roots : List α) (x : α) : ¬(empty.pushAll roots).HasLeft x := by
  rw [hasLeft_pushAll_iff]
  rintro ⟨i, hlt, _⟩
  exact Nat.not_lt_zero i hlt

end Worklist

namespace Search

section Ends

variable {α σ ρ : Type} [Ord α]

/--
How a search can end: all that it has seen has been visited, or the step at an element stops it.
In both cases `I` held of the worklist and the state before.
-/
inductive Ends (w : Search α σ ρ) (I : Worklist α → σ → Prop) : Except ρ σ × Worklist α → Prop where
  | visited {q : Worklist α} {s : σ} (h : I q s) (left : ∀ x ∈ q.seen, q.HasLeft x) :
    w.Ends I (.ok s, q)
  | stopped {q q' : Worklist α} {s : σ} {x : α} {r : ρ} (h : I q s) (pop : q.pop = some (x, q'))
      (step : w.step s x = .error r) : w.Ends I (.error r, q')

theorem Ends.of_ok {w : Search α σ ρ} {I : Worklist α → σ → Prop} {r : Except ρ σ × Worklist α}
    {s : σ} (h : w.Ends I r) (hr : r.1 = .ok s) : I r.2 s ∧ ∀ x ∈ r.2.seen, r.2.HasLeft x := by
  cases h with
  | visited h left =>
    cases hr
    exact ⟨h, left⟩
  | stopped _ _ _ => contradiction

theorem Ends.of_error {w : Search α σ ρ} {I : Worklist α → σ → Prop} {r : Except ρ σ × Worklist α}
    {e : ρ} (h : w.Ends I r) (hr : r.1 = .error e) :
    ∃ q s x, I q s ∧ q.pop = some (x, r.2) ∧ w.step s x = .error e := by
  cases h with
  | visited _ _ => contradiction
  | stopped h pop step =>
    cases hr
    exact ⟨_, _, _, h, pop, step⟩

end Ends

section Rule

variable {α σ ρ : Type} [Ord α] [TransOrd α] [LawfulEqOrd α]

theorem ends_run {w : Search α σ ρ} {I : Worklist α → σ → Prop}
    (hstep : ∀ q q' s x s' next, I q s → q.pop = some (x, q') → w.step s x = .ok (s', next) →
      I (q'.pushAll next) s')
    {q : Worklist α} {hq : ∀ x ∈ q.seen, w.region.Mem x} {s : σ} (h : I q s) :
    w.Ends I (w.run q hq s) := by
  fun_induction run w q hq s with
  | case1 q hq s hp => exact .visited h fun x hx => Worklist.hasLeft_of_pop_none hp hx
  | case2 q hq s x q' hp r hs => exact .stopped h hp hs
  | case3 q hq s x q' hp s' next hs ih => exact ih (hstep q q' s x s' next h hp hs)

theorem ends_runFrom {w : Search α σ ρ} {I : Worklist α → σ → Prop}
    (hstep : ∀ q q' s x s' next, I q s → q.pop = some (x, q') → w.step s x = .ok (s', next) →
      I (q'.pushAll next) s')
    {roots : List α} {hroots : ∀ x ∈ roots, w.region.Mem x} {s : σ}
    (h : I (Worklist.empty.pushAll roots) s) : w.Ends I (w.runFrom roots hroots s) :=
  ends_run hstep h

theorem visits_runFrom {w : Search α σ Empty} {I : Worklist α → Prop}
    (hstep : ∀ q q' s x s' next, I q → q.pop = some (x, q') → w.step s x = .ok (s', next) →
      I (q'.pushAll next))
    {roots : List α} {hroots : ∀ x ∈ roots, w.region.Mem x} {s : σ}
    (h : I (Worklist.empty.pushAll roots)) :
    let q := (w.runFrom roots hroots s).2
    I q ∧ ∀ x ∈ q.seen, q.HasLeft x := by
  have hends : w.Ends (fun q _ => I q) (w.runFrom roots hroots s) := ends_runFrom hstep h
  cases hr : (w.runFrom roots hroots s).1 with
  | ok s' => exact hends.of_ok hr
  | error e => exact e.elim

end Rule

end Search

namespace Region.Graph

variable {α : Type} [Ord α]

structure Explored (g : Region.Graph α) (roots : List α) (q : Worklist α) : Prop where
  roots_seen : ∀ x ∈ roots, x ∈ q.seen
  next_seen : ∀ x, q.HasLeft x → ∀ y ∈ g.next x, y ∈ q.seen
  reached : ∀ x ∈ q.seen, ∃ r ∈ roots, Relation.ReflTransGen (fun x y => y ∈ g.next x) r x

variable {g : Region.Graph α} {roots : List α}

theorem Explored.mem_seen_of_path {q : Worklist α} (h : g.Explored roots q)
    (hleft : ∀ x ∈ q.seen, q.HasLeft x) {r x : α} (hr : r ∈ roots)
    (hx : Relation.ReflTransGen (fun x y => y ∈ g.next x) r x) : x ∈ q.seen := by
  induction hx with
  | refl => exact h.roots_seen r hr
  | tail _ hy ih => exact h.next_seen _ (hleft _ ih) _ hy

variable [TransOrd α] [LawfulEqOrd α]

theorem explored_roots (g : Region.Graph α) (roots : List α) :
    g.Explored roots (Worklist.empty.pushAll roots) where
  roots_seen := by
    intro x hx
    rw [Worklist.mem_seen_roots_iff]
    exact hx
  next_seen := by
    intro x hx
    exact absurd hx (Worklist.not_hasLeft_roots roots x)
  reached := by
    intro x hx
    rw [Worklist.mem_seen_roots_iff] at hx
    exact ⟨x, hx, .refl⟩

theorem Explored.visit {q q' : Worklist α} (h : g.Explored roots q) {x : α}
    (hp : q.pop = some (x, q')) : g.Explored roots (q'.pushAll (g.next x)) where
  roots_seen := by
    intro y hy
    rw [Worklist.mem_seen_pushAll, Worklist.seen_of_pop hp]
    exact Or.inl (h.roots_seen y hy)
  next_seen := by
    intro y hy z hz
    rw [Worklist.hasLeft_pushAll_iff, Worklist.hasLeft_iff_of_pop hp] at hy
    rw [Worklist.mem_seen_pushAll, Worklist.seen_of_pop hp]
    rcases hy with hy | rfl
    · exact Or.inl (h.next_seen y hy z hz)
    · exact Or.inr hz
  reached := by
    intro y hy
    rw [Worklist.mem_seen_pushAll, Worklist.seen_of_pop hp] at hy
    rcases hy with hy | hy
    · exact h.reached y hy
    · obtain ⟨r, hr, hx⟩ := h.reached x (Worklist.mem_seen_of_pop hp)
      exact ⟨r, hr, hx.tail hy⟩

theorem mem_closure_iff {hroots : ∀ x ∈ roots, g.Mem x} {x : α} :
    x ∈ g.closure roots hroots ↔
      ∃ r ∈ roots, Relation.ReflTransGen (fun x y => y ∈ g.next x) r x := by
  have hends : ∃ q, g.closure roots hroots = q.seen ∧ g.Explored roots q ∧
      ∀ x ∈ q.seen, q.HasLeft x := by
    refine ⟨_, rfl, ?_⟩
    apply Search.visits_runFrom (I := g.Explored roots)
    · intro q q' s x s' next h hp hs
      cases hs
      exact h.visit hp
    · exact g.explored_roots roots
  obtain ⟨q, hq, hexplored, hleft⟩ := hends
  rw [hq]
  constructor
  · exact hexplored.reached x
  · rintro ⟨r, hr, hx⟩
    exact hexplored.mem_seen_of_path hleft hr hx

end Region.Graph

end Residual
