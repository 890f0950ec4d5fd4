import Residual.Words.Sampling

/-!
This module contains the list of all accepted words up to some length, shorter words first and
words of one length in the order of the alphabet. The words are found one at a time by a depth-first
walk, which enters a state only if the counts promise a word there.
-/

namespace Residual

namespace Automaton

def edge? (a : Automaton) (s : StateId) (k : Nat) : Option (Char × StateId) :=
  match a.alphabet.symbol? k, a.successor? s k with
  | some c, some d => some (c, d)
  | _, _ => none

theorem lt_size_of_edge? {a : Automaton} {s : StateId} {k : Nat} {e : Char × StateId}
    (h : a.edge? s k = some e) : k < a.alphabet.size := by
  unfold edge? at h
  split at h
  next hc _ => exact (Array.getElem?_eq_some_iff.1 hc).1
  · contradiction

end Automaton

/--
A state on the path of a walk. Words go on for `rest` symbols from there; the symbols with an index
below `index` have been tried.
-/
structure Visit where
  state : StateId
  index : Nat
  rest : Nat
deriving DecidableEq

/--
A walk through the words of an automaton, all lengths up to `maxLength` one after the other. The
words that are being listed have the given length, `path` leads from the last visited state back to
the initial one and `stem` are the symbols along it, the last one first.
-/
structure Listing where
  counts : Counts
  maxLength : Nat
  length : Nat
  path : List Visit
  stem : List Char
  maxLength_le : maxLength ≤ counts.maxLength
  rest_le : ∀ v ∈ path, v.rest ≤ counts.maxLength

inductive Turn where
  | finished
  | found (word : List Char) (l : Listing)
  | more (l : Listing)

namespace Listing

def nextLength (l : Listing) : Nat :=
  match l.path with
  | [] => l.length
  | _ :: _ => l.length + 1

section Moves

def backtrack (l : Listing) (path : List Visit)
    (h : ∀ v ∈ path, v.rest ≤ l.counts.maxLength) : Listing :=
  { l with
    length := match path with
      | [] => l.length + 1
      | _ :: _ => l.length
    path
    stem := l.stem.tail
    rest_le := h }

def skipLength (l : Listing) : Listing := { l with length := l.length + 1 }

def start (l : Listing) (h : l.length ≤ l.maxLength) : Listing :=
  { l with
    path := [⟨Automaton.initial, 0, l.length⟩]
    stem := []
    rest_le := by simpa using Nat.le_trans h l.maxLength_le }

def advance (l : Listing) (v : Visit) (path : List Visit)
    (h : ∀ u ∈ v :: path, u.rest ≤ l.counts.maxLength) : Listing :=
  { l with path := { v with index := v.index + 1 } :: path, rest_le := by simpa using h }

def enter (l : Listing) (e : Char × StateId) (n : Nat) (h : n ≤ l.counts.maxLength) : Listing :=
  { l with
    path := ⟨e.2, 0, n⟩ :: l.path
    stem := e.1 :: l.stem
    rest_le := by simpa using ⟨h, l.rest_le⟩ }

end Moves

def turn (l : Listing) : Turn :=
  match l.path, l.rest_le with
  | [], _ =>
    if h : l.length ≤ l.maxLength then
      .more (if l.counts.lookup l.length Automaton.initial = 0 then l.skipLength else l.start h)
    else .finished
  | v :: path, hrest =>
    have hpath := fun u hu => hrest u (List.mem_cons_of_mem v hu)
    match h : v.rest with
    | 0 => .found l.stem.reverse (l.backtrack path hpath)
    | n + 1 =>
      have hn : n ≤ l.counts.maxLength := Nat.le_of_succ_le (h ▸ hrest v List.mem_cons_self)
      match l.counts.automaton.edge? v.state v.index with
      | none => .more (l.backtrack path hpath)
      | some e =>
        let l' := l.advance v path hrest
        .more (if l.counts.lookup n e.2 = 0 then l' else l'.enter e n hn)

inductive Takes (l : Listing) : Turn → Prop where
  | finish (hpath : l.path = []) (hlt : l.maxLength < l.length) : l.Takes .finished
  | skip (hpath : l.path = []) (hle : l.length ≤ l.maxLength)
      (hzero : l.counts.lookup l.length Automaton.initial = 0) : l.Takes (.more l.skipLength)
  | start (hpath : l.path = []) (hle : l.length ≤ l.maxLength)
      (hne : l.counts.lookup l.length Automaton.initial ≠ 0) : l.Takes (.more (l.start hle))
  | find {v : Visit} {path : List Visit} (hpath : l.path = v :: path) (hrest : v.rest = 0) (h) :
      l.Takes (.found l.stem.reverse (l.backtrack path h))
  | leave {v : Visit} {path : List Visit} (hpath : l.path = v :: path) {n : Nat}
      (hrest : v.rest = n + 1) (hedge : l.counts.automaton.edge? v.state v.index = none) (h) :
      l.Takes (.more (l.backtrack path h))
  | pass {v : Visit} {path : List Visit} (hpath : l.path = v :: path) {n : Nat}
      (hrest : v.rest = n + 1) {e : Char × StateId}
      (hedge : l.counts.automaton.edge? v.state v.index = some e) (h)
      (hzero : l.counts.lookup n e.2 = 0) : l.Takes (.more (l.advance v path h))
  | enter {v : Visit} {path : List Visit} (hpath : l.path = v :: path) {n : Nat}
      (hrest : v.rest = n + 1) {e : Char × StateId}
      (hedge : l.counts.automaton.edge? v.state v.index = some e) (h)
      (hn : n ≤ (l.advance v path h).counts.maxLength) (hne : l.counts.lookup n e.2 ≠ 0) :
      l.Takes (.more ((l.advance v path h).enter e n hn))

theorem takes_turn (l : Listing) : l.Takes l.turn := by
  obtain ⟨counts, maxLength, length, path, stem, hle, hrest⟩ := l
  cases path with
  | nil =>
    simp only [turn]
    split
    next h =>
      split
      next hzero => exact .skip rfl h hzero
      next hne => exact .start rfl h hne
    next h => exact .finish rfl (Nat.lt_of_not_le h)
  | cons v path =>
    simp only [turn]
    split
    next h => exact .find rfl h _
    next n h =>
      split
      next hedge => exact .leave rfl h hedge _
      next e hedge =>
        split
        next hzero => exact .pass rfl h hedge _ hzero
        next hne => exact .enter rfl h hedge _ _ hne

section Termination

def turnsFrom (width : Nat) : Nat → Nat
  | 0 => 1
  | n + 1 => 1 + width * (1 + turnsFrom width n)

def visitTurns (width : Nat) (v : Visit) : Nat :=
  match v.rest with
  | 0 => 1
  | n + 1 => 1 + (width - v.index) * (1 + turnsFrom width n)

def pathTurns (width : Nat) : List Visit → Nat
  | [] => 0
  | v :: path => visitTurns width v + pathTurns width path

def lengthTurns (width : Nat) : (m n : Nat) → Nat
  | 0, _ => 0
  | m + 1, n => 1 + turnsFrom width n + lengthTurns width m (n + 1)

def turns (l : Listing) : Nat :=
  let width := l.counts.automaton.alphabet.size
  pathTurns width l.path + lengthTurns width (l.maxLength + 1 - l.nextLength) l.nextLength

variable {l l' : Listing} {v : Visit} {path : List Visit}

theorem visitTurns_pos (width : Nat) (v : Visit) : 0 < visitTurns width v := by
  unfold visitTurns
  split <;> omega

theorem visitTurns_zero (width : Nat) (s : StateId) (n : Nat) :
    visitTurns width ⟨s, 0, n⟩ = turnsFrom width n := by
  cases n <;> rfl

theorem turns_of_path_nil (h : l.path = []) (hle : l.length ≤ l.maxLength) :
    l.turns = 1 + turnsFrom l.counts.automaton.alphabet.size l.length + l.skipLength.turns := by
  have hleft : l.maxLength + 1 - l.length = l.maxLength + 1 - (l.length + 1) + 1 := by omega
  simp only [turns, nextLength, skipLength, h, hleft, pathTurns, lengthTurns]
  omega

theorem turns_start (h : l.path = []) (hle : l.length ≤ l.maxLength) :
    (l.start hle).turns =
      turnsFrom l.counts.automaton.alphabet.size l.length + l.skipLength.turns := by
  simp only [turns, nextLength, start, skipLength, h, pathTurns, visitTurns_zero]
  omega

theorem turns_backtrack_lt (hpath : l.path = v :: path) (h) :
    (l.backtrack path h).turns < l.turns := by
  have hpos := visitTurns_pos l.counts.automaton.alphabet.size v
  cases path with
  | nil =>
    simp only [turns, nextLength, backtrack, hpath, pathTurns]
    omega
  | cons u path =>
    simp only [turns, nextLength, backtrack, hpath, pathTurns]
    omega

theorem turns_advance_lt (hpath : l.path = v :: path) {n : Nat} (hrest : v.rest = n + 1)
    {e : Char × StateId} (hedge : l.counts.automaton.edge? v.state v.index = some e) (h) :
    (l.advance v path h).turns + turnsFrom l.counts.automaton.alphabet.size n < l.turns := by
  have hlt := Automaton.lt_size_of_edge? hedge
  have hleft : l.counts.automaton.alphabet.size - v.index =
      l.counts.automaton.alphabet.size - (v.index + 1) + 1 := by omega
  simp only [turns, nextLength, advance, hpath, pathTurns, visitTurns, hrest, hleft, Nat.succ_mul]
  omega

theorem turns_enter (hpath : l.path = v :: path) (e : Char × StateId) {n : Nat}
    (hn : n ≤ l.counts.maxLength) :
    (l.enter e n hn).turns = l.turns + turnsFrom l.counts.automaton.alphabet.size n := by
  simp only [turns, nextLength, enter, hpath, pathTurns, visitTurns_zero]
  omega

theorem turns_lt_of_more (h : l.turn = .more l') : l'.turns < l.turns := by
  have htakes := l.takes_turn
  rw [h] at htakes
  cases htakes with
  | skip hpath hle _ =>
    rw [turns_of_path_nil hpath hle]
    omega
  | start hpath hle _ =>
    rw [turns_of_path_nil hpath hle, turns_start hpath hle]
    omega
  | leave hpath _ _ hrest => exact turns_backtrack_lt hpath hrest
  | pass hpath hrest hedge hvisits _ =>
    have hlt := turns_advance_lt hpath hrest hedge hvisits
    omega
  | enter hpath hrest hedge hvisits _ _ =>
    have hlt := turns_advance_lt hpath hrest hedge hvisits
    rw [turns_enter rfl]
    exact hlt

theorem turns_lt_of_found {word : List Char} (h : l.turn = .found word l') :
    l'.turns < l.turns := by
  have htakes := l.takes_turn
  rw [h] at htakes
  cases htakes with
  | find hpath _ hrest => exact turns_backtrack_lt hpath hrest

end Termination

def walk (l : Listing) : Option (List Char) × Listing :=
  match _h : l.turn with
  | .finished => (none, l)
  | .found word l' => (some word, l')
  | .more l' => l'.walk
termination_by l.turns
decreasing_by exact turns_lt_of_more _h

def next (l : Listing) : Option (List Char) × Listing :=
  if l.counts.bound = .empty then (none, l) else l.walk

def next? (l : Listing) : Option (List Char × Listing) :=
  match l.next with
  | (some word, l') => some (word, l')
  | (none, _) => none

theorem turns_walk_lt {word : List Char} {l l' : Listing} (h : l.walk = (some word, l')) :
    l'.turns < l.turns := by
  fun_induction walk l with
  | case1 l hturn => cases h
  | case2 l word l' hturn =>
    cases h
    exact turns_lt_of_found hturn
  | case3 l l'' hturn ih => exact Nat.lt_trans (ih h) (turns_lt_of_more hturn)

theorem turns_next?_lt {word : List Char} {l l' : Listing} (h : l.next? = some (word, l')) :
    l'.turns < l.turns := by
  unfold next? next at h
  split at h
  next heq =>
    cases h
    split at heq
    · cases heq
    · exact turns_walk_lt heq
  · contradiction

def remaining (l : Listing) : Nat := go l 0
where
  go (l : Listing) (n : Nat) : Nat :=
    match h : l.next? with
    | some (_, l') => go l' (n + 1)
    | none => n
  termination_by l.turns
  decreasing_by exact turns_next?_lt h

def reset (l : Listing) : Listing :=
  { l with length := 0, path := [], stem := [], rest_le := by simp }

end Listing

def LengthBound.cap : LengthBound → Nat → Nat
  | .empty, _ => 0
  | .bounded m, n => min m n
  | .unbounded, n => n

def Counts.listing (g : Counts) (max : Nat) : Logged (Listing × Counts) :=
  let maxLength := g.bound.cap max
  let extended := g.extendTo maxLength
  let l : Listing := {
    counts := extended.value
    maxLength
    length := 0
    path := []
    stem := []
    maxLength_le := g.le_maxLength_extendTo maxLength
    rest_le := by simp }
  ⟨(l, extended.value), extended.log⟩

end Residual
