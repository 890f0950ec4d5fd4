import Mathlib.Data.Finset.Card
import Mathlib.Data.List.Induction
import Residual.Queue

/-!
This module contains what queues do over any sequence of calls: the elements leave in the order in
which each of them was pushed first, and no element leaves twice, whatever is pushed again. This is
proved from the laws of the single operations, which all kinds of queues obey.
-/

namespace Residual

open Std

section Distinct

variable {α : Type} [DecidableEq α]

theorem nodup_eraseDups (l : List α) : l.eraseDups.Nodup := by
  induction l using List.reverseRecOn with
  | nil => exact List.nodup_nil
  | append_singleton l x ih =>
    rw [eraseDups_snoc]
    split
    · exact ih
    next hx =>
      rw [← List.concat_eq_append, List.nodup_concat, List.mem_eraseDups]
      exact ⟨hx, ih⟩

theorem length_eraseDups (l : List α) : l.eraseDups.length = l.toFinset.card := by
  rw [← List.toFinset_card_of_nodup (nodup_eraseDups l)]
  apply congrArg Finset.card
  ext x
  rw [List.mem_toFinset, List.mem_toFinset, List.mem_eraseDups]

end Distinct

namespace Queue

class Lawful (Q : Type) {α : outParam Type} [Queue Q α] : Prop where
  push_of_seen : ∀ (q : Q) (x : α), hasSeen q x = true → (push q x).1 = false ∧
    waiting (push q x).2 = waiting q ∧ numSeen (push q x).2 = numSeen q
  push_of_new : ∀ (q : Q) (x : α), hasSeen q x = false → (push q x).1 = true ∧
    waiting (push q x).2 = waiting q ++ [x] ∧ numSeen (push q x).2 = numSeen q + 1
  hasSeen_push : ∀ (q : Q) (x y : α),
    hasSeen (push q x).2 y = true ↔ hasSeen q y = true ∨ y = x
  waiting_of_pop_none : ∀ q : Q, pop q = none → waiting q = []
  of_pop : ∀ (q q' : Q) (x : α), pop q = some (x, q') →
    waiting q = x :: waiting q' ∧ (∀ y, hasSeen q' y = hasSeen q y) ∧ numSeen q' = numSeen q

theorem push_isNew_iff {Q α : Type} [Queue Q α] [Lawful Q] {q : Q} {x : α} :
    (push q x).1 = true ↔ ¬hasSeen q x = true := by
  cases hx : hasSeen q x with
  | true => simp [(Lawful.push_of_seen q x hx).1]
  | false => simp [(Lawful.push_of_new q x hx).1]

inductive Call (α : Type) where
  | push (x : α)
  | pop

inductive Answer (α : Type) where
  | ofPush (isNew : Bool)
  | ofPop (x? : Option α)

section Calls

variable {Q α : Type}

def Call.pushed : Call α → List α
  | .push x => [x]
  | .pop => []

def Answer.popped : Answer α → List α
  | .ofPush _ => []
  | .ofPop x? => x?.toList

def pushed (calls : List (Call α)) : List α := calls.flatMap Call.pushed

variable [Queue Q α]

def respond (q : Q) : Call α → Answer α × Q
  | .push x => (.ofPush (push q x).1, (push q x).2)
  | .pop =>
    match pop q with
    | some (x, q') => (.ofPop (some x), q')
    | none => (.ofPop none, q)

def after (q : Q) (calls : List (Call α)) : Q := calls.foldl (fun q call => (respond q call).2) q

def answers (q : Q) : List (Call α) → List (Answer α)
  | [] => []
  | call :: calls => (respond q call).1 :: answers (respond q call).2 calls

def popped (q : Q) (calls : List (Call α)) : List α := (answers q calls).flatMap Answer.popped

end Calls

/--
Whether a queue to which the elements `before` were pushed lets elements out in the order of their
first pushes and remembers them all, after any further calls.
-/
structure FirstInFirstOut {Q α : Type} [Queue Q α] [DecidableEq α] (q : Q) (before : List α) :
    Prop where
  popped_inOrder : ∀ calls, popped q calls <+: (before ++ pushed calls).eraseDups
  popped_nodup : ∀ calls, (popped q calls).Nodup
  pop_eq : ∀ calls, (pop (after q calls)).map Prod.fst =
    (before ++ pushed calls).eraseDups[(popped q calls).length]?
  push_isNew_iff : ∀ calls x, (push (after q calls) x).1 = true ↔ x ∉ before ++ pushed calls
  hasSeen_iff : ∀ calls x, hasSeen (after q calls) x = true ↔ x ∈ before ++ pushed calls
  numSeen_eq : ∀ calls, numSeen (after q calls) = (before ++ pushed calls).toFinset.card

section Runs

variable {Q α : Type} [Queue Q α] [DecidableEq α] {q q' : Q} {arrived left : List α} {x : α}

structure Served (q : Q) (arrived left : List α) : Prop where
  waiting_eq : left ++ waiting q = arrived.eraseDups
  hasSeen_iff : ∀ x, hasSeen q x = true ↔ x ∈ arrived
  numSeen_eq : numSeen q = arrived.eraseDups.length

variable [Lawful Q]

theorem Served.push (h : Served q arrived left) (x : α) :
    Served (push q x).2 (arrived ++ [x]) left := by
  have hseen : ∀ y, hasSeen (Queue.push q x).2 y = true ↔ y ∈ arrived ++ [x] := by
    intro y
    rw [Lawful.hasSeen_push, h.hasSeen_iff, List.mem_append, List.mem_singleton]
  cases hx : hasSeen q x with
  | true =>
    obtain ⟨_, hwaiting, hsize⟩ := Lawful.push_of_seen q x hx
    have hdistinct : (arrived ++ [x]).eraseDups = arrived.eraseDups := by
      rw [eraseDups_snoc, if_pos ((h.hasSeen_iff x).1 hx)]
    refine ⟨?_, hseen, ?_⟩
    · rw [hwaiting, h.waiting_eq, hdistinct]
    · rw [hsize, h.numSeen_eq, hdistinct]
  | false =>
    obtain ⟨_, hwaiting, hsize⟩ := Lawful.push_of_new q x hx
    have hnew : x ∉ arrived := mt (h.hasSeen_iff x).2 (Bool.eq_false_iff.1 hx)
    have hdistinct : (arrived ++ [x]).eraseDups = arrived.eraseDups ++ [x] := by
      rw [eraseDups_snoc, if_neg hnew]
    refine ⟨?_, hseen, ?_⟩
    · rw [hwaiting, ← List.append_assoc, h.waiting_eq, hdistinct]
    · rw [hsize, h.numSeen_eq, hdistinct, List.length_append, List.length_singleton]

theorem Served.pop (h : Served q arrived left) (hp : pop q = some (x, q')) :
    Served q' arrived (left ++ [x]) := by
  obtain ⟨hwaiting, hseen, hsize⟩ := Lawful.of_pop q q' x hp
  constructor
  · rw [← h.waiting_eq, hwaiting, List.append_assoc, List.singleton_append]
  · intro y
    rw [hseen, h.hasSeen_iff]
  · rw [hsize, h.numSeen_eq]

theorem Served.respond (h : Served q arrived left) (call : Call α) :
    Served (respond q call).2 (arrived ++ call.pushed) (left ++ (respond q call).1.popped) := by
  cases call with
  | push x =>
    simp only [Queue.respond, Call.pushed, Answer.popped, List.append_nil]
    exact h.push x
  | pop =>
    simp only [Queue.respond, Call.pushed, List.append_nil]
    split
    next hp => exact h.pop hp
    · simpa [Answer.popped] using h

theorem Served.after (h : Served q arrived left) (calls : List (Call α)) :
    Served (after q calls) (arrived ++ pushed calls) (left ++ popped q calls) := by
  induction calls generalizing q arrived left with
  | nil => simpa [pushed, popped, answers, Queue.after] using h
  | cons call calls ih =>
    have hcalls := ih (h.respond call)
    rw [List.append_assoc, List.append_assoc] at hcalls
    exact hcalls

theorem Served.firstInFirstOut {before : List α} (h : Served q before []) :
    FirstInFirstOut q before := by
  have hrun : ∀ calls, popped q calls ++ waiting (Queue.after q calls) =
      (before ++ pushed calls).eraseDups := fun calls => (h.after calls).waiting_eq
  refine ⟨?_, ?_, ?_, ?_, ?_, ?_⟩
  · intro calls
    exact ⟨_, hrun calls⟩
  · intro calls
    have hnodup := nodup_eraseDups (before ++ pushed calls)
    rw [← hrun] at hnodup
    exact hnodup.of_append_left
  · intro calls
    rw [← hrun, List.getElem?_append_right (Nat.le_refl _), Nat.sub_self]
    cases hp : Queue.pop (Queue.after q calls) with
    | none => simp [Lawful.waiting_of_pop_none _ hp]
    | some r => simp [(Lawful.of_pop _ r.2 r.1 hp).1]
  · intro calls x
    rw [push_isNew_iff, (h.after calls).hasSeen_iff]
  · exact fun calls => (h.after calls).hasSeen_iff
  · intro calls
    rw [(h.after calls).numSeen_eq, length_eraseDups]

end Runs

section Agreement

variable {P Q α : Type} [Queue P α] [Queue Q α]

theorem answers_snoc (q : Q) (calls : List (Call α)) (call : Call α) :
    answers q (calls ++ [call]) = answers q calls ++ [(respond (after q calls) call).1] := by
  induction calls generalizing q with
  | nil => rfl
  | cons first calls ih => exact congrArg _ (ih (respond q first).2)

theorem respond_pop (q : Q) : (respond q .pop).1 = .ofPop ((pop q).map Prod.fst) := by
  rw [respond]
  split
  next hp => rw [hp, Option.map_some]
  next hp => rw [hp, Option.map_none]

theorem FirstInFirstOut.answers_eq [DecidableEq α] {p : P} {q : Q} {before : List α}
    (hp : FirstInFirstOut p before) (hq : FirstInFirstOut q before) (calls : List (Call α)) :
    answers p calls = answers q calls := by
  induction calls using List.reverseRecOn with
  | nil => rfl
  | append_singleton calls call ih =>
    have hpopped : popped p calls = popped q calls := congrArg (List.flatMap Answer.popped) ih
    rw [answers_snoc, answers_snoc, ih]
    cases call with
    | push x =>
      have hnew : (push (after p calls) x).1 = (push (after q calls) x).1 := by
        rw [Bool.eq_iff_iff, hp.push_isNew_iff, hq.push_isNew_iff]
      rw [respond, respond, hnew]
    | pop => rw [respond_pop, respond_pop, hp.pop_eq, hq.pop_eq, hpopped]

end Agreement

end Queue

namespace IndexQueue

theorem getD_rightpad (marks : Array Bool) (n i : Nat) :
    (marks.rightpad n false).getD i false = marks.getD i false := by
  rw [Array.getD_eq_getD_getElem?, Array.getD_eq_getD_getElem?, Array.rightpad,
    Array.getElem?_append]
  split
  · rfl
  next h =>
    rw [Array.getElem?_eq_none (Nat.le_of_not_lt h), Array.getElem?_replicate]
    split <;> rfl

theorem push_of_seen {q : IndexQueue} {i : Nat} (h : q.hasSeen i = true) :
    q.push i = (false, { q with marks := q.marks.rightpad (i + 1) false }) := by
  rw [push, getD_rightpad]
  exact if_pos h

theorem push_of_new {q : IndexQueue} {i : Nat} (h : q.hasSeen i = false) :
    q.push i = (true, ⟨q.waiting ++ [i], (q.marks.rightpad (i + 1) false).setIfInBounds i true,
      q.numSeen + 1⟩) := by
  rw [push, getD_rightpad]
  apply if_neg
  rw [← hasSeen, h]
  exact Bool.false_ne_true

theorem hasSeen_push {q : IndexQueue} {i j : Nat} :
    (q.push i).2.hasSeen j = true ↔ q.hasSeen j = true ∨ j = i := by
  cases h : q.hasSeen i with
  | true =>
    rw [push_of_seen h, hasSeen, getD_rightpad, ← hasSeen]
    refine (or_iff_left_of_imp ?_).symm
    rintro rfl
    exact h
  | false =>
    -- the table reaches to the index, so the mark is set
    have hlt : i < (q.marks.rightpad (i + 1) false).size := by
      rw [Array.size_rightpad]
      omega
    rw [push_of_new h, hasSeen, Array.getD_eq_getD_getElem?, Array.getElem?_setIfInBounds,
      if_pos hlt]
    split
    next heq => simp [heq]
    next hne =>
      rw [← Array.getD_eq_getD_getElem?, getD_rightpad, ← hasSeen]
      exact (or_iff_left (Ne.symm hne)).symm

instance : Queue.Lawful IndexQueue where
  push_of_seen q i h := by
    rw [show Queue.push q i = _ from push_of_seen h]
    exact ⟨rfl, rfl, rfl⟩
  push_of_new q i h := by
    rw [show Queue.push q i = _ from push_of_new h]
    exact ⟨rfl, rfl, rfl⟩
  hasSeen_push _ _ _ := hasSeen_push
  waiting_of_pop_none _ h := popFront_eq_none_iff.1 h
  of_pop _ _ _ h := by
    obtain ⟨_, hwaiting, rfl⟩ := popFront_eq_some_iff.1 h
    exact ⟨hwaiting, fun _ => rfl, rfl⟩

end IndexQueue

namespace BfsQueue

variable {α : Type} [DecidableEq α] [Hashable α]

theorem push_eq (q : BfsQueue α) (x : α) :
    q.push x = (!q.hasSeen x,
      ⟨if q.hasSeen x then q.waiting else q.waiting ++ [x], q.set.insert x⟩) := by
  have hknown : (q.set.containsThenInsert x).1 = q.hasSeen x := HashSet.containsThenInsert_fst
  have hset : (q.set.containsThenInsert x).2 = q.set.insert x := HashSet.containsThenInsert_snd
  unfold push
  simp only [hknown, hset]
  cases q.hasSeen x <;> rfl

theorem size_insert (q : BfsQueue α) (x : α) :
    (q.set.insert x).size = if q.hasSeen x then q.numSeen else q.numSeen + 1 := by
  rw [HashSet.size_insert]
  exact if_congr HashSet.mem_iff_contains rfl rfl

instance : Queue.Lawful (BfsQueue α) where
  push_of_seen q x h := by
    change q.hasSeen x = true at h
    have hsize := q.size_insert x
    rw [h] at hsize
    rw [show Queue.push q x = _ from q.push_eq x, h]
    exact ⟨rfl, rfl, hsize⟩
  push_of_new q x h := by
    change q.hasSeen x = false at h
    have hsize := q.size_insert x
    rw [h] at hsize
    rw [show Queue.push q x = _ from q.push_eq x, h]
    exact ⟨rfl, rfl, hsize⟩
  hasSeen_push q x y := by
    show (q.push x).2.hasSeen y = true ↔ q.hasSeen y = true ∨ y = x
    rw [push_eq, hasSeen, HashSet.contains_insert, Bool.or_eq_true, beq_iff_eq, or_comm,
      eq_comm (b := y), hasSeen]
  waiting_of_pop_none _ h := popFront_eq_none_iff.1 h
  of_pop _ _ _ h := by
    obtain ⟨_, hwaiting, rfl⟩ := popFront_eq_some_iff.1 h
    exact ⟨hwaiting, fun _ => rfl, rfl⟩

end BfsQueue

namespace Worklist

variable {α : Type} [Ord α] {q : Worklist α} {x : α}

theorem hasSeen_iff : q.hasSeen x = true ↔ x ∈ q.seen := by
  rw [hasSeen, ← Option.isNone_eq_false_iff, ← Bool.not_eq_true, Option.isNone_iff_eq_none,
    Numbering.find?_eq_none_iff, not_not]

variable [TransOrd α] [LawfulEqOrd α]

theorem push_of_seen (h : q.hasSeen x = true) : q.push x = (false, q) := by
  unfold push
  split
  · rfl
  next hx => exact absurd (hasSeen_iff.1 h) (Numbering.find?_eq_none_iff.1 hx)

theorem push_of_new (h : q.hasSeen x = false) :
    ∃ hx : q.seen.find? x = none, q.push x = (true, q.pushNew x hx) := by
  unfold push
  split
  next i hx => simp [hasSeen, hx] at h
  next hx => exact ⟨hx, rfl⟩

theorem waiting_pushNew (q : Worklist α) (x : α) (h) :
    (q.pushNew x h).waiting = q.waiting ++ [x] := by
  have hlist : (q.pushNew x h).seen.toArray.toList = q.seen.toArray.toList ++ [x] :=
    Array.toList_push
  rw [waiting, hlist, cursor_pushNew, List.drop_append_of_le_length q.cursor_le]
  rfl

instance : Queue.Lawful (Worklist α) where
  push_of_seen q x h := by
    rw [show Queue.push q x = _ from push_of_seen h]
    exact ⟨rfl, rfl, rfl⟩
  push_of_new q x h := by
    obtain ⟨hx, hpush⟩ := push_of_new h
    rw [show Queue.push q x = _ from hpush]
    exact ⟨rfl, q.waiting_pushNew x hx, q.numSeen_pushNew x hx⟩
  hasSeen_push q x y := by
    show (q.push x).2.hasSeen y = true ↔ q.hasSeen y = true ∨ y = x
    rw [hasSeen_iff, hasSeen_iff, mem_seen_push]
  waiting_of_pop_none q h := by
    show q.seen.toArray.toList.drop q.cursor = []
    rw [cursor_of_pop_none h]
    exact List.drop_length
  of_pop q q' x h := by
    have hx : q.seen.toArray.toList[q.cursor]? = some x := by
      rw [Array.getElem?_toList]
      exact get?_cursor_of_pop h
    obtain ⟨hlt, rfl⟩ := List.getElem?_eq_some_iff.1 hx
    refine ⟨?_, fun y => ?_, congrArg Numbering.size (seen_of_pop h)⟩
    · show q.seen.toArray.toList.drop q.cursor = _ :: q'.seen.toArray.toList.drop q'.cursor
      rw [seen_of_pop h, cursor_of_pop h]
      exact List.drop_eq_getElem_cons hlt
    · show q'.hasSeen y = q.hasSeen y
      rw [hasSeen, seen_of_pop h, ← hasSeen]

end Worklist

namespace Queue

section Start

variable {α : Type} [DecidableEq α]

theorem served_withSize (size : Nat) : Served (IndexQueue.withSize size) [] [] := by
  refine ⟨rfl, fun i => ?_, rfl⟩
  have hmark : (Array.replicate size false).getD i false = false := by
    rw [Array.getD_eq_getD_getElem?, Array.getElem?_replicate]
    split <;> rfl
  exact iff_of_false (Bool.not_eq_true _ ▸ hmark) List.not_mem_nil

theorem served_fromRoot [Hashable α] (root : α) : Served (BfsQueue.fromRoot root) [root] [] := by
  have hempty : Served (⟨[], {}⟩ : BfsQueue α) [] [] := by
    constructor
    · rfl
    · intro x
      exact iff_of_false (mt HashSet.mem_iff_contains.2 HashSet.not_mem_empty) List.not_mem_nil
    · show (∅ : HashSet α).size = 0
      exact HashSet.size_empty
  exact hempty.push root

theorem served_worklist [Ord α] [TransOrd α] [LawfulEqOrd α] :
    Served (Worklist.empty : Worklist α) [] [] := by
  refine ⟨rfl, fun x => ?_, rfl⟩
  exact iff_of_false (mt Worklist.hasSeen_iff.1 (Numbering.not_mem_empty x)) List.not_mem_nil

end Start

/--
Queues of indices, whatever room they start with, queues that find their elements by hashes, and the
worklists behind all searches let elements out in the order of their first pushes and tell new ones
from old ones. They answer any sequence of calls alike.
-/
theorem queues_exact {α : Type} [DecidableEq α] [Hashable α] [Ord α] [TransOrd α]
    [LawfulEqOrd α] :
    FirstInFirstOut IndexQueue.empty [] ∧
    (∀ size, FirstInFirstOut (IndexQueue.withSize size) []) ∧
    (∀ root : α, FirstInFirstOut (BfsQueue.fromRoot root) [root]) ∧
    FirstInFirstOut (Worklist.empty : Worklist α) [] ∧
    (∀ size calls,
      answers (IndexQueue.withSize size) calls = answers (Worklist.empty : Worklist Nat) calls) ∧
    ∀ (root : α) calls,
      answers (BfsQueue.fromRoot root) calls = answers (Worklist.empty.push root).2 calls := by
  have hindices : ∀ size, FirstInFirstOut (IndexQueue.withSize size) [] :=
    fun size => (served_withSize size).firstInFirstOut
  have hroot : ∀ root : α, FirstInFirstOut (BfsQueue.fromRoot root) [root] :=
    fun root => (served_fromRoot root).firstInFirstOut
  refine ⟨hindices 0, hindices, hroot, served_worklist.firstInFirstOut, ?_, ?_⟩
  · intro size
    exact (hindices size).answers_eq served_worklist.firstInFirstOut
  · intro root
    exact (hroot root).answers_eq (served_worklist.push root).firstInFirstOut

theorem queues_exact_indices :
    let calls : List (Call Nat) :=
      [.push 2, .push 0, .push 2, .push 9, .pop, .push 2, .pop, .pop, .pop]
    let q := IndexQueue.withSize 4
    popped q calls <+: [2, 0, 9] ∧ (pop (after q calls)).map Prod.fst = none ∧
      numSeen (after q calls) = 3 ∧ numSeen (after (BfsQueue.fromRoot 0) calls) = 3 ∧
      answers q calls = answers (Worklist.empty : Worklist Nat) calls := by
  intro calls q
  obtain ⟨_, hindices, hroot, _, halike, _⟩ := @queues_exact Nat _ _ _ _ _
  have hdistinct : ([] ++ pushed calls).eraseDups = [2, 0, 9] := by decide
  have hpopped : popped q calls = [2, 0, 9] := by decide
  refine ⟨?_, ?_, ?_, ?_, halike 4 calls⟩
  · rw [← hdistinct]
    exact (hindices 4).popped_inOrder calls
  · rw [(hindices 4).pop_eq, hpopped, hdistinct]
    rfl
  · rw [(hindices 4).numSeen_eq]
    rfl
  · rw [(hroot 0).numSeen_eq]
    rfl

end Queue

end Residual
