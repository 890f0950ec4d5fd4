import Residual.Symbol.Alphabet
import Residual.Term.Basic

/-!
This module contains deterministic automata. Each state has exactly one successor for each symbol
of the alphabet.
-/

namespace Residual

abbrev StateId := Nat

def StateId.text (s : StateId) : String := "s" ++ Nat.repr s

structure State where
  accepting : Bool
  term : Option TermId
deriving DecidableEq, Repr

/--
A deterministic automaton. State 0 is the initial one. The successors of all states stand in one
table, state by state and in the order of the alphabet.
-/
structure Automaton where
  alphabet : Alphabet
  numFinals : Nat
  states : Array State
  delta : Array StateId
  size_pos : 0 < states.size
  size_delta : delta.size = states.size * alphabet.size
  delta_lt : ∀ d ∈ delta, d < states.size
  numFinals_eq : numFinals = states.countP State.accepting
deriving DecidableEq

namespace Automaton

def numStates (a : Automaton) : Nat := a.states.size

abbrev initial : StateId := 0

def state? (a : Automaton) (s : StateId) : Option State := a.states[s]?

def accepting (a : Automaton) (s : StateId) : Bool :=
  match a.state? s with
  | some state => state.accepting
  | none => false

def finals (a : Automaton) : List StateId := (List.range a.numStates).filter a.accepting

def row (a : Automaton) (s : StateId) : Array StateId :=
  a.delta.extract (s * a.alphabet.size) ((s + 1) * a.alphabet.size)

def successors (a : Automaton) (s : StateId) : List StateId := (a.row s).toList

def successor? (a : Automaton) (s : StateId) (k : Nat) : Option StateId :=
  if k < a.alphabet.size then a.delta[s * a.alphabet.size + k]? else none

def edges (a : Automaton) (s : StateId) : List (Char × StateId) :=
  a.alphabet.symbols.zip (a.successors s)

section Lemmas

theorem successors_lt {a : Automaton} {s d : StateId} (h : d ∈ a.successors s) :
    d < a.numStates := by
  apply a.delta_lt
  rw [successors, row, Array.toList_extract] at h
  exact Array.mem_def.2 (List.mem_of_mem_drop (List.mem_of_mem_take h))

theorem size_row {a : Automaton} {s : StateId} (h : s < a.numStates) :
    (a.row s).size = a.alphabet.size := by
  have hle : (s + 1) * a.alphabet.size ≤ a.delta.size := by
    rw [a.size_delta]
    exact Nat.mul_le_mul_right _ h
  rw [row, Array.size_extract, Nat.min_eq_left hle, Nat.succ_mul, Nat.add_sub_cancel_left]

theorem length_successors {a : Automaton} {s : StateId} (h : s < a.numStates) :
    (a.successors s).length = a.alphabet.size := by
  rw [successors, Array.length_toList, size_row h]

theorem successors_of_le {a : Automaton} {s : StateId} (h : a.numStates ≤ s) :
    a.successors s = [] := by
  have hend : a.delta.size ≤ s * a.alphabet.size := by
    rw [a.size_delta]
    exact Nat.mul_le_mul_right _ h
  rw [successors, row, Array.extract_empty_of_size_le_start hend, Array.toList_empty]

theorem successor?_eq_getElem? (a : Automaton) (s : StateId) (k : Nat) :
    a.successor? s k = (a.successors s)[k]? := by
  rw [successors, Array.getElem?_toList, row, Array.getElem?_extract, successor?, Nat.succ_mul]
  by_cases hk : k < a.alphabet.size
  · rw [if_pos hk]
    split
    · rfl
    next hend =>
      apply Array.getElem?_eq_none
      omega
  · rw [if_neg hk, if_neg]
    omega

theorem lt_of_successor? {a : Automaton} {s d : StateId} {k : Nat}
    (h : a.successor? s k = some d) : s < a.numStates ∧ k < a.alphabet.size := by
  rw [successor?] at h
  split at h
  next hk =>
    obtain ⟨hlt, _⟩ := Array.getElem?_eq_some_iff.1 h
    rw [a.size_delta] at hlt
    exact ⟨Nat.lt_of_mul_lt_mul_right (Nat.lt_of_le_of_lt (Nat.le_add_right _ k) hlt), hk⟩
  · contradiction

theorem numFinals_eq_length (a : Automaton) : a.numFinals = a.finals.length := by
  have hstates : a.states.toList.map State.accepting = (List.range a.numStates).map a.accepting := by
    apply List.ext_getElem
    · simp [numStates]
    · intro i hi _
      have hlt : i < a.states.size := by simpa using hi
      simp [accepting, state?, Array.getElem?_eq_getElem hlt]
  have hcount := congrArg (List.countP id) hstates
  rw [List.countP_map, List.countP_map] at hcount
  rw [a.numFinals_eq, finals, ← List.countP_eq_length_filter, ← Array.countP_toList]
  exact hcount

end Lemmas

section Terms

def attachTerms (a : Automaton) (terms : Array TermId) : Automaton where
  alphabet := a.alphabet
  numFinals := a.numFinals
  states := a.states.mapIdx fun i state => { state with term := terms[i]?.or state.term }
  delta := a.delta
  size_pos := by simpa using a.size_pos
  size_delta := by simpa using a.size_delta
  delta_lt := by simpa using a.delta_lt
  numFinals_eq := by
    have haccepting : (a.states.mapIdx fun i state =>
        { state with term := terms[i]?.or state.term }).map State.accepting =
          a.states.map State.accepting := by
      apply Array.ext
      · simp
      · intro i _ _
        rw [Array.getElem_map, Array.getElem_mapIdx, Array.getElem_map]
    have hcount := congrArg (Array.countP id) haccepting
    rw [Array.countP_map, Array.countP_map] at hcount
    exact a.numFinals_eq.trans hcount.symm

end Terms

section Reading

def step (a : Automaton) (s : StateId) (c : Char) : Except Error StateId :=
  (a.alphabet.index c).map fun k => (a.successor? s k).getD initial

def run (a : Automaton) (s : StateId) (w : List Char) : Except Error StateId :=
  w.foldlM a.step s

def accepts (a : Automaton) (w : List Char) : Except Error Bool :=
  (a.run initial w).map a.accepting

end Reading

end Automaton

end Residual
