import Std.Data.HashSet
import Residual.Worklist

/-!
This module contains what the queues of searches have in common, and two kinds of queues that keep
the elements still waiting apart from those ever seen: one for indices, which are marked in a table,
and one for elements of any kind, which are collected in a set.
-/

namespace Residual

open Std

class Queue (Q : Type) (α : outParam Type) where
  push : Q → α → Bool × Q
  pop : Q → Option (α × Q)
  hasSeen : Q → α → Bool
  numSeen : Q → Nat
  waiting : Q → List α

namespace Worklist

variable {α : Type} [Ord α]

def waiting (q : Worklist α) : List α := q.seen.toArray.toList.drop q.cursor

instance [TransOrd α] [LawfulEqOrd α] : Queue (Worklist α) α where
  push := push
  pop := pop
  hasSeen := hasSeen
  numSeen := numSeen
  waiting := waiting

end Worklist

def popFront {α β : Type} (rest : List α → β) : List α → Option (α × β)
  | [] => none
  | x :: l => some (x, rest l)

theorem popFront_eq_none_iff {α β : Type} {rest : List α → β} {l : List α} :
    popFront rest l = none ↔ l = [] := by
  cases l <;> simp [popFront]

theorem popFront_eq_some_iff {α β : Type} {rest : List α → β} {l : List α} {x : α} {b : β} :
    popFront rest l = some (x, b) ↔ ∃ l', l = x :: l' ∧ rest l' = b := by
  cases l <;> simp [popFront, and_assoc]

/-- A queue of indices. An index beyond the end of `marks` has not been seen. -/
structure IndexQueue where
  waiting : List Nat
  marks : Array Bool
  numSeen : Nat

namespace IndexQueue

def empty : IndexQueue := ⟨[], #[], 0⟩

def withSize (size : Nat) : IndexQueue := ⟨[], Array.replicate size false, 0⟩

def hasSeen (q : IndexQueue) (i : Nat) : Bool := q.marks.getD i false

def push (q : IndexQueue) (i : Nat) : Bool × IndexQueue :=
  let marks := q.marks.rightpad (i + 1) false
  if marks.getD i false then (false, { q with marks })
  else
    (true, {
      waiting := q.waiting ++ [i]
      marks := marks.setIfInBounds i true
      numSeen := q.numSeen + 1 })

def pop (q : IndexQueue) : Option (Nat × IndexQueue) :=
  popFront (fun waiting => { q with waiting }) q.waiting

instance : Queue IndexQueue Nat where
  push := push
  pop := pop
  hasSeen := hasSeen
  numSeen := numSeen
  waiting := waiting

end IndexQueue

structure BfsQueue (α : Type) [BEq α] [Hashable α] where
  waiting : List α
  set : HashSet α

namespace BfsQueue

variable {α : Type} [BEq α] [Hashable α]

def hasSeen (q : BfsQueue α) (x : α) : Bool := q.set.contains x

def numSeen (q : BfsQueue α) : Nat := q.set.size

def push (q : BfsQueue α) (x : α) : Bool × BfsQueue α :=
  let (known, set) := q.set.containsThenInsert x
  if known then (false, { q with set }) else (true, { waiting := q.waiting ++ [x], set })

def pop (q : BfsQueue α) : Option (α × BfsQueue α) :=
  popFront (fun waiting => { q with waiting }) q.waiting

def fromRoot (root : α) : BfsQueue α := (push ⟨[], {}⟩ root).2

instance : Queue (BfsQueue α) α where
  push := push
  pop := pop
  hasSeen := hasSeen
  numSeen := numSeen
  waiting := waiting

end BfsQueue

end Residual
