import Residual.Automaton.Basic
import Residual.Worklist

/-!
This module contains the states that matter for the language of an automaton: those that a word
leads to and those from which a word can be accepted.
-/

namespace Residual

def Numbering.table (found : Numbering Nat) (n : Nat) : Array Bool :=
  (Array.range n).map fun i => (found.find? i).isSome

namespace Automaton

section Forward

def forward (a : Automaton) : Region.Graph StateId where
  toRegion := .below a.numStates
  next := a.successors
  next_mem := fun _ _ _ hd => successors_lt hd

def reachableStates (a : Automaton) : Array Bool :=
  (a.forward.closure [initial] (by
    intro s hs
    rw [List.mem_singleton.1 hs]
    exact a.size_pos)).table a.numStates

end Forward

section Backward

def enterPredecessor (s : StateId) (table : Array (List StateId)) (next : List StateId) :
    Array (List StateId) :=
  next.foldl (fun table d => table.modify d (s :: ·)) table

def predecessors (a : Automaton) : Array (List StateId) :=
  (List.range a.numStates).foldl (fun table s => enterPredecessor s table (a.successors s))
    (Array.replicate a.numStates [])

theorem mem_enterPredecessor {s : StateId} {t : Array (List StateId)} {next : List StateId}
    {d u : StateId} (hd : d < t.size) :
    u ∈ (enterPredecessor s t next).getD d [] ↔ u ∈ t.getD d [] ∨ u = s ∧ d ∈ next := by
  induction next generalizing t with
  | nil => simp [enterPredecessor]
  | cons e next ih =>
    have := ih (t := t.modify e (s :: ·)) (by simpa using hd)
    simp only [enterPredecessor, List.foldl_cons] at this ⊢
    rw [this]
    simp only [Array.getD_eq_getD_getElem?, Array.getElem?_modify, List.mem_cons]
    by_cases hed : e = d
    · subst hed
      simp [Array.getElem?_eq_getElem hd]
      grind
    · have : d ≠ e := fun h => hed h.symm
      simp [hed, this]

@[simp]
theorem size_enterPredecessor (s : StateId) (table : Array (List StateId)) (next : List StateId) :
    (enterPredecessor s table next).size = table.size := by
  induction next generalizing table with
  | nil => rfl
  | cons e next ih =>
    have := ih (table.modify e (s :: ·))
    simpa [enterPredecessor] using this

theorem mem_foldl_enterPredecessor {a : Automaton} {l : List StateId}
    {table : Array (List StateId)} {d u : StateId} (hd : d < table.size) :
    u ∈ (l.foldl (fun table s => enterPredecessor s table (a.successors s)) table).getD d [] ↔
      u ∈ table.getD d [] ∨ u ∈ l ∧ d ∈ a.successors u := by
  induction l generalizing table with
  | nil => simp
  | cons s l ih =>
    rw [List.foldl_cons, ih (by simpa using hd), mem_enterPredecessor hd, List.mem_cons]
    grind

theorem mem_predecessors {a : Automaton} {d u : StateId} (hd : d < a.numStates) :
    u ∈ a.predecessors.getD d [] ↔ u < a.numStates ∧ d ∈ a.successors u := by
  rw [predecessors, mem_foldl_enterPredecessor (by simpa using hd)]
  simp [Array.getD_eq_getD_getElem?, hd]

def backward (a : Automaton) : Region.Graph StateId :=
  let table := a.predecessors
  { toRegion := .below a.numStates
    next := fun d => table.getD d []
    next_mem := fun _ hd _ hu => ((mem_predecessors hd).1 hu).1 }

theorem lt_of_mem_finals {a : Automaton} {s : StateId} (h : s ∈ a.finals) : s < a.numStates :=
  List.mem_range.1 (List.mem_filter.1 h).1

def liveStates (a : Automaton) : Array Bool :=
  (a.backward.closure a.finals fun _ => lt_of_mem_finals).table a.numStates

def isDead (a : Automaton) (s : StateId) : Bool := !a.liveStates.getD s false

def isEmpty (a : Automaton) : Bool := a.isDead initial

end Backward

end Automaton

end Residual
