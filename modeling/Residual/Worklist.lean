import Residual.Numbering

/-!
This module contains worklists, the queues behind every breadth-first search: an element enters a
worklist at most once, also after it has left it. A `Search` drives a worklist over a finite region
and ends because a region has room for finitely many elements.
-/

namespace Residual

open Std

/--
A queue that remembers everything it ever held. `seen` lists the elements in the order of their
arrival, the first `cursor` of them have left.
-/
structure Worklist (α : Type) [Ord α] where
  seen : Numbering α
  cursor : Nat
  cursor_le : cursor ≤ seen.size

namespace Worklist

section Queue

variable {α : Type} [Ord α]

def numSeen (q : Worklist α) : Nat := q.seen.size

def hasSeen (q : Worklist α) (x : α) : Bool := (q.seen.find? x).isSome

def pop (q : Worklist α) : Option (α × Worklist α) :=
  if h : q.cursor < q.seen.toArray.size then
    some (q.seen.toArray[q.cursor], { q with cursor := q.cursor + 1, cursor_le := h })
  else
    none

variable [TransOrd α]

def empty : Worklist α where
  seen := .empty
  cursor := 0
  cursor_le := Nat.zero_le _

variable [LawfulEqOrd α]

def pushNew (q : Worklist α) (x : α) (h : q.seen.find? x = none) : Worklist α where
  seen := q.seen.push x h
  cursor := q.cursor
  cursor_le := by have := q.cursor_le; rw [Numbering.size_push]; omega

def push (q : Worklist α) (x : α) : Bool × Worklist α :=
  match h : q.seen.find? x with
  | some _ => (false, q)
  | none => (true, q.pushNew x h)

def pushAll (q : Worklist α) (l : List α) : Worklist α :=
  l.foldl (fun q x => (q.push x).2) q

end Queue

section Lemmas

variable {α : Type} [Ord α]

theorem cursor_of_pop {q q' : Worklist α} {x : α} (h : q.pop = some (x, q')) :
    q'.cursor = q.cursor + 1 := by
  unfold pop at h
  split at h
  · simp only [Option.some.injEq, Prod.mk.injEq] at h
    rw [← h.2]
  · contradiction

theorem seen_of_pop {q q' : Worklist α} {x : α} (h : q.pop = some (x, q')) :
    q'.seen = q.seen := by
  unfold pop at h
  split at h
  · simp only [Option.some.injEq, Prod.mk.injEq] at h
    rw [← h.2]
  · contradiction

theorem cursor_of_pop_none {q : Worklist α} (h : q.pop = none) : q.cursor = q.numSeen := by
  unfold pop at h
  split at h
  · contradiction
  next hlt => exact Nat.le_antisymm q.cursor_le (Nat.le_of_not_lt hlt)

theorem get?_cursor_of_pop {q q' : Worklist α} {x : α} (h : q.pop = some (x, q')) :
    q.seen.get? q.cursor = some x := by
  unfold pop at h
  split at h
  next hlt =>
    simp only [Option.some.injEq, Prod.mk.injEq] at h
    rw [← h.1]
    exact Array.getElem?_eq_getElem hlt
  · contradiction

theorem mem_seen_of_pop {q q' : Worklist α} {x : α} (h : q.pop = some (x, q')) : x ∈ q.seen :=
  Numbering.mem_of_get? (get?_cursor_of_pop h)

theorem cursor_lt_of_pop {q q' : Worklist α} {x : α} (h : q.pop = some (x, q')) :
    q.cursor < q.numSeen :=
  Numbering.lt_size_of_get? (get?_cursor_of_pop h)

variable [TransOrd α] [LawfulEqOrd α]

@[simp]
theorem numSeen_pushNew (q : Worklist α) (x : α) (h) : (q.pushNew x h).numSeen = q.numSeen + 1 :=
  Numbering.size_push q.seen x h

@[simp]
theorem cursor_pushNew (q : Worklist α) (x : α) (h) : (q.pushNew x h).cursor = q.cursor := rfl

@[simp]
theorem cursor_push (q : Worklist α) (x : α) : (q.push x).2.cursor = q.cursor := by
  unfold push
  split <;> rfl

theorem mem_seen_push {q : Worklist α} {x y : α} :
    y ∈ (q.push x).2.seen ↔ y ∈ q.seen ∨ y = x := by
  unfold push
  split
  next i h =>
    have hx : x ∈ q.seen := Numbering.mem_of_get? (Numbering.find?_eq_some_iff.1 h)
    constructor
    · exact Or.inl
    · rintro (hy | rfl)
      · exact hy
      · exact hx
  next h => exact Numbering.mem_push (h := h)

@[simp]
theorem cursor_pushAll (q : Worklist α) (l : List α) : (q.pushAll l).cursor = q.cursor := by
  induction l generalizing q with
  | nil => rfl
  | cons x l ih => simpa [pushAll] using ih (q.push x).2

theorem mem_seen_pushAll {q : Worklist α} {l : List α} {y : α} :
    y ∈ (q.pushAll l).seen ↔ y ∈ q.seen ∨ y ∈ l := by
  induction l generalizing q with
  | nil => simp [pushAll]
  | cons x l ih =>
    have := ih (q := (q.push x).2)
    simp only [pushAll, List.foldl_cons] at this ⊢
    rw [this, mem_seen_push, List.mem_cons, or_assoc]

end Lemmas

end Worklist

structure Region (α : Type) where
  Mem : α → Prop
  size : Nat
  rank : α → Nat
  rank_lt : ∀ x, Mem x → rank x < size
  rank_inj : ∀ x y, Mem x → Mem y → rank x = rank y → x = y

namespace Region

def below (n : Nat) : Region Nat where
  Mem x := x < n
  size := n
  rank x := x
  rank_lt _ h := h
  rank_inj _ _ _ _ h := h

theorem length_le_of_forall_lt {l : List Nat} {n : Nat} (hl : l.Nodup) (h : ∀ x ∈ l, x < n) :
    l.length ≤ n := by
  induction n generalizing l with
  | zero =>
    match l with
    | [] => simp
    | x :: l => exact absurd (h x List.mem_cons_self) (Nat.not_lt_zero x)
  | succ n ih =>
    have hlen := ih (hl.erase n) fun x hx => by
      have hx' := hl.mem_erase_iff.1 hx
      have := h x hx'.2
      omega
    have := List.le_length_erase (a := n) (l := l)
    omega

theorem length_le_size {α : Type} (r : Region α) {l : List α} (hl : l.Nodup)
    (h : ∀ x ∈ l, r.Mem x) : l.length ≤ r.size := by
  rw [← List.length_map r.rank]
  apply length_le_of_forall_lt
  · refine List.pairwise_map.2 (hl.imp_of_mem fun {x y} hx hy hxy => ?_)
    exact fun heq => hxy (r.rank_inj x y (h x hx) (h y hy) heq)
  · intro k hk
    obtain ⟨x, hx, rfl⟩ := List.mem_map.1 hk
    exact r.rank_lt x (h x hx)

theorem numSeen_le_size {α : Type} [Ord α] (r : Region α) {q : Worklist α}
    (h : ∀ x ∈ q.seen, r.Mem x) : q.numSeen ≤ r.size :=
  r.length_le_size q.seen.nodup_toList fun x hx => h x (Array.mem_def.2 hx)

end Region

/--
A search over a region. A step at an element either stops with an answer or goes on with a new
state of the search and the elements to visit next, which stay inside the region.
-/
structure Search (α σ ρ : Type) where
  region : Region α
  step : σ → α → Except ρ (σ × List α)
  step_mem : ∀ s x s' next, region.Mem x → step s x = .ok (s', next) → ∀ y ∈ next, region.Mem y

namespace Search

variable {α σ ρ : Type} [Ord α] [TransOrd α] [LawfulEqOrd α]

def run (w : Search α σ ρ) (q : Worklist α) (hq : ∀ x ∈ q.seen, w.region.Mem x) (s : σ) :
    Except ρ σ × Worklist α :=
  match hp : q.pop with
  | none => (.ok s, q)
  | some (x, q') =>
    match hs : w.step s x with
    | .error r => (.error r, q')
    | .ok (s', next) =>
      w.run (q'.pushAll next) (by
        intro y hy
        rcases Worklist.mem_seen_pushAll.1 hy with hy | hy
        · exact hq y (Worklist.seen_of_pop hp ▸ hy)
        · exact w.step_mem s x s' next (hq x (Worklist.mem_seen_of_pop hp)) hs y hy) s'
termination_by w.region.size - q.cursor
decreasing_by
  have hlt := Worklist.cursor_lt_of_pop hp
  have hle := w.region.numSeen_le_size hq
  rw [Worklist.cursor_pushAll, Worklist.cursor_of_pop hp]
  omega

def runFrom (w : Search α σ ρ) (roots : List α) (h : ∀ x ∈ roots, w.region.Mem x) (s : σ) :
    Except ρ σ × Worklist α :=
  w.run (Worklist.empty.pushAll roots) (by
    intro x hx
    rcases Worklist.mem_seen_pushAll.1 hx with hx | hx
    · exact absurd hx (Numbering.not_mem_empty x)
    · exact h x hx) s

end Search

structure Region.Graph (α : Type) extends Region α where
  next : α → List α
  next_mem : ∀ x, Mem x → ∀ y ∈ next x, Mem y

namespace Region.Graph

variable {α : Type} [Ord α] [TransOrd α] [LawfulEqOrd α]

def closure (g : Region.Graph α) (roots : List α) (h : ∀ x ∈ roots, g.Mem x) : Numbering α :=
  let w : Search α Unit Empty := {
    region := g.toRegion
    step := fun s x => .ok (s, g.next x)
    step_mem := by
      intro s x s' next hx heq y hy
      simp only [Except.ok.injEq, Prod.mk.injEq] at heq
      exact g.next_mem x hx y (heq.2 ▸ hy) }
  (w.runFrom roots h ()).2.seen

end Region.Graph

end Residual
