import Residual.Automaton.LengthBound
import Residual.Log

/-!
This module contains the exact numbers of words that an automaton accepts, by length and by the
state that reading starts from. They are kept in a table that grows when a longer length is asked
for, but never beyond the longest word that the automaton accepts.
-/

namespace Residual

/-- The sum of two lengths. It never exceeds the largest length that a machine word can hold. -/
def addLengths (m n : Nat) : Nat := min (m + n) (UInt64.size - 1)

namespace Automaton

def nextRow (a : Automaton) (row : Array Nat) : Array Nat :=
  (Array.range a.numStates).map fun s => (a.row s).foldl (fun n d => n + row.getD d 0) 0

def countRow (a : Automaton) : Nat → Array Nat
  | 0 => a.states.map fun s => if s.accepting then 1 else 0
  | k + 1 => a.nextRow (a.countRow k)

theorem getD_nextRow (a : Automaton) (row : Array Nat) (s : StateId) :
    (a.nextRow row).getD s 0 = (a.edges s).foldl (fun n e => n + row.getD e.2 0) 0 := by
  by_cases hs : s < a.numStates
  · have hlen : (a.successors s).length ≤ a.alphabet.symbols.length :=
      Nat.le_of_eq (length_successors hs)
    have hrow : (a.nextRow row).getD s 0 =
        (a.successors s).foldl (fun n d => n + row.getD d 0) 0 := by
      simp [nextRow, successors, Array.getD_eq_getD_getElem?, hs]
    rw [hrow, ← List.map_snd_zip hlen, List.foldl_map]
    rfl
  · have hnone : a.numStates ≤ s := Nat.le_of_not_lt hs
    rw [edges, successors_of_le hnone, List.zip_nil_right, List.foldl_nil, nextRow,
      Array.getD_eq_getD_getElem?, Array.getElem?_eq_none (by simpa using hnone), Option.getD_none]

end Automaton

structure Counts where
  automaton : Automaton
  bound : LengthBound
  reachable : Array Bool
  rows : Array (Array Nat)
  bound_eq : bound = automaton.lengthBound
  reachable_eq : reachable = automaton.reachableStates
  size_pos : 0 < rows.size
  rows_eq : ∀ k (h : k < rows.size), rows[k] = automaton.countRow k

namespace Counts

def ofAutomaton (a : Automaton) : Counts where
  automaton := a
  bound := a.lengthBound
  reachable := a.reachableStates
  rows := #[a.countRow 0]
  bound_eq := rfl
  reachable_eq := rfl
  size_pos := Nat.one_pos
  rows_eq k h := by
    obtain rfl : k = 0 := Nat.lt_one_iff.1 h
    rfl

def maxLength (g : Counts) : Nat := g.rows.size - 1

def lookup (g : Counts) (k : Nat) (s : StateId) : Nat := (g.rows.getD k #[]).getD s 0

theorem rows_push (a : Automaton) {rows : Array (Array Nat)} (hpos : 0 < rows.size)
    (h : ∀ k (h : k < rows.size), rows[k] = a.countRow k) (k : Nat)
    (hk : k < (rows.push (a.nextRow rows[rows.size - 1])).size) :
    (rows.push (a.nextRow rows[rows.size - 1]))[k] = a.countRow k := by
  rw [Array.getElem_push]
  split
  next hlt => exact h k hlt
  next hge =>
    obtain rfl : k = rows.size - 1 + 1 := by
      rw [Array.size_push] at hk
      omega
    rw [h]
    rfl

def grow (g : Counts) : Nat → Counts
  | 0 => g
  | n + 1 =>
    match g with
    | ⟨automaton, bound, reachable, rows, bound_eq, reachable_eq, size_pos, rows_eq⟩ =>
      let row := automaton.nextRow rows[rows.size - 1]
      grow ⟨automaton, bound, reachable, rows.push row, bound_eq, reachable_eq, by simp,
        rows_push automaton size_pos rows_eq⟩ n

def extendTo (g : Counts) (n : Nat) : Logged Counts :=
  if n ≤ g.maxLength then pure g
  else
    let previous := g.maxLength
    let states := g.automaton.numStates
    ⟨g.grow (n - previous), #[.extended previous n states]⟩

section Lemmas

theorem lookup_eq {g : Counts} {k : Nat} (hk : k ≤ g.maxLength) (s : StateId) :
    g.lookup k s = (g.automaton.countRow k).getD s 0 := by
  have hlt : k < g.rows.size := by
    have := g.size_pos
    unfold maxLength at hk
    omega
  have hrow : g.rows.getD k #[] = g.automaton.countRow k := by
    rw [← g.rows_eq k hlt, Array.getD_eq_getD_getElem?, Array.getElem?_eq_getElem hlt]
    rfl
  rw [lookup, hrow]

theorem lookup_succ {g : Counts} {k : Nat} (hk : k + 1 ≤ g.maxLength) (s : StateId) :
    g.lookup (k + 1) s = (g.automaton.edges s).foldl (fun n e => n + g.lookup k e.2) 0 := by
  simp only [lookup_eq hk, lookup_eq (Nat.le_of_succ_le hk), Automaton.countRow,
    Automaton.getD_nextRow]

@[simp]
theorem automaton_grow (g : Counts) (n : Nat) : (g.grow n).automaton = g.automaton := by
  induction n generalizing g with
  | zero => rfl
  | succ n ih => exact ih _

@[simp]
theorem maxLength_grow (g : Counts) (n : Nat) : (g.grow n).maxLength = g.maxLength + n := by
  induction n generalizing g with
  | zero => rfl
  | succ n ih =>
    have := g.size_pos
    refine (ih _).trans ?_
    simp only [maxLength, Array.size_push]
    omega

theorem maxLength_extendTo (g : Counts) (n : Nat) :
    (g.extendTo n).value.maxLength = max n g.maxLength := by
  unfold extendTo
  split
  · simpa using (Nat.max_eq_right ‹_›).symm
  · simp only [maxLength_grow]
    omega

theorem le_maxLength_extendTo (g : Counts) (n : Nat) : n ≤ (g.extendTo n).value.maxLength := by
  rw [maxLength_extendTo]
  exact Nat.le_max_left ..

end Lemmas

def ofAutomatonUpTo (a : Automaton) (n : Nat) : Logged Counts := (ofAutomaton a).extendTo n

def count (g : Counts) (s : StateId) (k : Nat) : Logged (Nat × Counts) :=
  -- the bound is about the words from the initial state, so it only helps if some word leads to `s`
  if g.reachable.getD s false && g.bound.excludes k then return (0, g)
  else do
    let g ← g.extendTo k
    return (g.lookup k s, g)

def countAccepted (g : Counts) (n : Nat) : Logged (Nat × Counts) :=
  if g.bound.excludes n then return (0, g) else g.count Automaton.initial n

def countUpTo (g : Counts) (n : Nat) : Logged (Nat × Counts) :=
  (List.range (n + 1)).foldlM (fun (sum, g) k => do
    let (m, g) ← g.countAccepted k
    return (sum + m, g)) (0, g)

def validLengths (g : Counts) (n : Nat) : Logged (List Nat × Counts) := do
  let (lengths, g) ← (List.range (n + 1)).foldlM (fun (lengths, g) k => do
    let (m, g) ← g.countAccepted k
    return (if m = 0 then lengths else lengths.push k, g)) (#[], g)
  return (lengths.toList, g)

def countCompletions (g : Counts) (stem : List Char) (k : Nat) :
    Logged (Except Error Nat × Counts) :=
  match g.automaton.run Automaton.initial stem with
  | .error e => return (.error e, g)
  | .ok s =>
    if g.bound.excludes (addLengths stem.length k) then return (.ok 0, g)
    else do
      let (n, g) ← g.count s k
      return (.ok n, g)

end Counts

end Residual
