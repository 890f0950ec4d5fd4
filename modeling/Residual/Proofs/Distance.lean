import Mathlib.Order.Lattice.Nat
import Residual.Proofs.Search

/-!
This module contains the order in which the closure of a graph lists its elements: those to which
fewer steps lead from the root come first.
-/

namespace Residual

open Std

inductive Steps {α : Type} (r : α → α → Prop) (x : α) : Nat → α → Prop where
  | refl : Steps r x 0 x
  | tail {n : Nat} {y z : α} (steps : Steps r x n y) (step : r y z) : Steps r x (n + 1) z

noncomputable def distance {α : Type} (r : α → α → Prop) (x y : α) : Nat := sInf {n | Steps r x n y}

section Steps

variable {α : Type} {r : α → α → Prop} {x y z : α} {n : Nat}

theorem exists_steps (h : Relation.ReflTransGen r x y) : ∃ n, Steps r x n y := by
  induction h with
  | refl => exact ⟨0, .refl⟩
  | tail _ hstep ih =>
    obtain ⟨n, hn⟩ := ih
    exact ⟨n + 1, hn.tail hstep⟩

theorem distance_le (h : Steps r x n y) : distance r x y ≤ n := Nat.sInf_le h

theorem steps_distance (h : Relation.ReflTransGen r x y) : Steps r x (distance r x y) y :=
  Nat.sInf_mem (exists_steps h)

@[simp]
theorem distance_self (r : α → α → Prop) (x : α) : distance r x x = 0 :=
  Nat.le_zero.1 (distance_le .refl)

theorem eq_of_distance_eq_zero (h : Relation.ReflTransGen r x y) (hzero : distance r x y = 0) :
    y = x := by
  have hsteps := steps_distance h
  rw [hzero] at hsteps
  cases hsteps
  rfl

theorem distance_le_of_step (h : Relation.ReflTransGen r x y) (hstep : r y z) :
    distance r x z ≤ distance r x y + 1 :=
  distance_le ((steps_distance h).tail hstep)

end Steps

namespace Worklist

variable {α : Type} [Ord α] {q q' : Worklist α} {x y : α}

theorem le_of_pop {f : α → Nat}
    (hordered : q.seen.toArray.toList.Pairwise fun x y => f x ≤ f y)
    (hp : q.pop = some (x, q')) (hy : y ∈ q.seen) (hwaits : ¬q.HasLeft y) : f x ≤ f y := by
  obtain ⟨i, hi⟩ := Numbering.mem_iff_exists_get?.1 hy
  have hle : q.cursor ≤ i := Nat.le_of_not_lt fun hlt => hwaits ⟨i, hlt, hi⟩
  have hx := get?_cursor_of_pop hp
  rcases Nat.eq_or_lt_of_le hle with rfl | hlt
  · cases hx.symm.trans hi
    exact Nat.le_refl _
  · rw [Numbering.get?, ← Array.getElem?_toList] at hx hi
    obtain ⟨hcursor, rfl⟩ := List.getElem?_eq_some_iff.1 hx
    obtain ⟨hlast, rfl⟩ := List.getElem?_eq_some_iff.1 hi
    exact List.pairwise_iff_getElem.1 hordered _ _ hcursor hlast hlt

variable [TransOrd α] [LawfulEqOrd α]

theorem toList_seen_push (q : Worklist α) (x : α) :
    (x ∈ q.seen ∧ (q.push x).2.seen.toArray.toList = q.seen.toArray.toList) ∨
      x ∉ q.seen ∧ (q.push x).2.seen.toArray.toList = q.seen.toArray.toList ++ [x] := by
  unfold push
  split
  next i h => exact .inl ⟨Numbering.mem_of_get? (Numbering.find?_eq_some_iff.1 h), rfl⟩
  next h => exact .inr ⟨Numbering.find?_eq_none_iff.1 h, Array.toList_push⟩

theorem exists_seen_pushAll (q : Worklist α) (l : List α) : ∃ new : List α,
    (q.pushAll l).seen.toArray.toList = q.seen.toArray.toList ++ new ∧
      ∀ y ∈ new, y ∈ l ∧ y ∉ q.seen := by
  induction l generalizing q with
  | nil => exact ⟨[], (List.append_nil _).symm, fun _ h => absurd h List.not_mem_nil⟩
  | cons x l ih =>
    obtain ⟨new, hnew, hmem⟩ := ih (q.push x).2
    have hlater : ∀ y ∈ new, y ∈ x :: l ∧ y ∉ q.seen := by
      intro y hy
      obtain ⟨hyl, hseen⟩ := hmem y hy
      exact ⟨List.mem_cons_of_mem x hyl, fun h => hseen (mem_seen_push.2 (.inl h))⟩
    rcases q.toList_seen_push x with ⟨_, hpush⟩ | ⟨hx, hpush⟩
    · exact ⟨new, hnew.trans (congrArg (· ++ new) hpush), hlater⟩
    · refine ⟨x :: new, ?_, List.forall_mem_cons.2 ⟨⟨List.mem_cons_self, hx⟩, hlater⟩⟩
      rw [List.append_cons, ← hpush]
      exact hnew

end Worklist

namespace Region.Graph

variable {α : Type} [Ord α] {g : Region.Graph α} {q q' : Worklist α} {x y z : α} {n : Nat}

noncomputable def distance (g : Region.Graph α) (x y : α) : Nat :=
  Residual.distance (fun x y => y ∈ g.next x) x y

theorem Explored.exists_waiting (h : g.Explored [x] q)
    (hsteps : Steps (fun x y => y ∈ g.next x) x n y) (hy : y ∉ q.seen) :
    ∃ z ∈ q.seen, ¬q.HasLeft z ∧ g.distance x z < n := by
  -- the last element on the way that has been seen has not left, or the next one would be seen
  induction hsteps with
  | refl => exact absurd (h.roots_seen x (List.mem_singleton_self x)) hy
  | @tail n z y hz hnext ih =>
    by_cases hseen : z ∈ q.seen
    · refine ⟨z, hseen, fun hleft => hy (h.next_seen z hleft y hnext), ?_⟩
      exact Nat.lt_succ_of_le (distance_le hz)
    · obtain ⟨u, hu, hwaits, hlt⟩ := ih hseen
      exact ⟨u, hu, hwaits, Nat.lt_succ_of_lt hlt⟩

structure Layered (g : Region.Graph α) (x : α) (q : Worklist α) : Prop where
  explored : g.Explored [x] q
  ordered : q.seen.toArray.toList.Pairwise fun y z => g.distance x y ≤ g.distance x z
  span : ∀ y ∈ q.seen, ∀ z ∈ q.seen, ¬q.HasLeft z → g.distance x y ≤ g.distance x z + 1

theorem Layered.path (h : g.Layered x q) (hy : y ∈ q.seen) :
    Relation.ReflTransGen (fun x y => y ∈ g.next x) x y := by
  obtain ⟨r, hr, hpath⟩ := h.explored.reached y hy
  rwa [List.mem_singleton.1 hr] at hpath

theorem Layered.distance_eq (h : g.Layered x q) (hp : q.pop = some (y, q')) (hz : z ∈ g.next y)
    (hnew : z ∉ q.seen) : g.distance x z = g.distance x y + 1 := by
  have hpath := h.path (Worklist.mem_seen_of_pop hp)
  apply Nat.le_antisymm (distance_le_of_step hpath hz)
  obtain ⟨u, hu, hwaits, hlt⟩ := h.explored.exists_waiting (steps_distance (hpath.tail hz)) hnew
  exact Nat.lt_of_le_of_lt (Worklist.le_of_pop h.ordered hp hu hwaits) hlt

variable [TransOrd α] [LawfulEqOrd α]

theorem layered_root (g : Region.Graph α) (x : α) : g.Layered x (Worklist.empty.pushAll [x]) where
  explored := g.explored_roots [x]
  ordered := List.pairwise_singleton ..
  span := by
    intro y hy z hz _
    rw [Worklist.mem_seen_roots_iff, List.mem_singleton] at hy hz
    rw [hy, hz]
    exact Nat.le_succ _

theorem Layered.exists_new (h : g.Layered x q) (hp : q.pop = some (y, q')) : ∃ new : List α,
    (q'.pushAll (g.next y)).seen.toArray.toList = q.seen.toArray.toList ++ new ∧
      ∀ z ∈ new, g.distance x z = g.distance x y + 1 := by
  obtain ⟨new, hnew, hmem⟩ := q'.exists_seen_pushAll (g.next y)
  rw [Worklist.seen_of_pop hp] at hnew hmem
  exact ⟨new, hnew, fun z hz => h.distance_eq hp (hmem z hz).1 (hmem z hz).2⟩

theorem Layered.visit (h : g.Layered x q) (hp : q.pop = some (y, q')) :
    g.Layered x (q'.pushAll (g.next y)) := by
  obtain ⟨new, hnew, heq⟩ := h.exists_new hp
  have hold : ∀ z ∈ q.seen, g.distance x z ≤ g.distance x y + 1 := fun z hz =>
    h.span z hz y (Worklist.mem_seen_of_pop hp) (Worklist.not_hasLeft_of_pop hp)
  have hcases : ∀ z ∈ (q'.pushAll (g.next y)).seen, z ∈ q.seen ∨ z ∈ new := by
    intro z hz
    have hz : z ∈ (q'.pushAll (g.next y)).seen.toArray.toList := Array.mem_def.1 hz
    rw [hnew, List.mem_append] at hz
    exact hz.imp_left Array.mem_def.2
  refine ⟨h.explored.visit hp, ?_, ?_⟩
  · rw [hnew, List.pairwise_append]
    refine ⟨h.ordered, List.pairwise_of_forall_mem_list ?_, ?_⟩
    · intro z hz u hu
      rw [heq z hz, heq u hu]
    · intro z hz u hu
      rw [heq u hu]
      exact hold z (Array.mem_def.2 hz)
  · intro z hz u hu hleft
    rw [Worklist.hasLeft_pushAll_iff, Worklist.hasLeft_iff_of_pop hp, not_or] at hleft
    have hle : g.distance x z ≤ g.distance x y + 1 := by
      rcases hcases z hz with hz | hz
      · exact hold z hz
      · exact Nat.le_of_eq (heq z hz)
    have hge : g.distance x y ≤ g.distance x u := by
      rcases hcases u hu with hu | hu
      · exact Worklist.le_of_pop h.ordered hp hu hleft.1
      · rw [heq u hu]
        exact Nat.le_succ _
    exact hle.trans (Nat.succ_le_succ hge)

theorem pairwise_closure {hroot : ∀ y ∈ [x], g.Mem y} :
    (g.closure [x] hroot).toArray.toList.Pairwise fun y z => g.distance x y ≤ g.distance x z := by
  have hlayered : ∃ q, g.closure [x] hroot = q.seen ∧ g.Layered x q := by
    refine ⟨_, rfl, And.left (Search.visits_runFrom (I := g.Layered x) ?_ ?_)⟩
    · intro q q' s y s' next h hp hs
      cases hs
      exact h.visit hp
    · exact g.layered_root x
  obtain ⟨q, hq, h⟩ := hlayered
  rw [hq]
  exact h.ordered

end Region.Graph

end Residual
