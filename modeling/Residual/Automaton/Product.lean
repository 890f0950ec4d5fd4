import Residual.Automaton.Basic
import Residual.Log
import Residual.Worklist

/-!
This module contains the comparison of two automata over one alphabet. Both read the same words side
by side; the pairs of states that they reach decide whether they accept the same words, whether one
accepts all words of the other, and whether they are the same up to the names of their states.
-/

namespace Residual

open Std

structure StatePair where
  left : StateId
  right : StateId
deriving DecidableEq, Repr

namespace StatePair

instance : Ord StatePair := ⟨compareLex (compareOn left) (compareOn right)⟩

instance : TransOrd StatePair :=
  inferInstanceAs <| TransCmp <| compareLex (compareOn left) (compareOn right)

instance : LawfulEqOrd StatePair where
  eq_of_compare {p q} h := by
    have h : (compareOn left p q).then (compareOn right p q) = .eq := h
    rw [Ordering.then_eq_eq] at h
    cases p
    cases q
    simpa using ⟨LawfulEqOrd.eq_of_compare h.1, LawfulEqOrd.eq_of_compare h.2⟩

def region (m n : Nat) : Region StatePair where
  Mem p := p.left < m ∧ p.right < n
  size := m * n
  rank p := p.left * n + p.right
  rank_lt p h := by
    have : (p.left + 1) * n ≤ m * n := Nat.mul_le_mul_right n h.1
    rw [Nat.add_mul, Nat.one_mul] at this
    exact Nat.lt_of_lt_of_le (Nat.add_lt_add_left h.2 _) this
  rank_inj p q hp hq h := by
    have hn : 0 < n := Nat.lt_of_le_of_lt (Nat.zero_le _) hp.2
    have hl := congrArg (· / n) h
    have hr := congrArg (· % n) h
    simp only [Nat.mul_comm _ n, Nat.mul_add_div hn, Nat.mul_add_mod, Nat.div_eq_of_lt hp.2,
      Nat.div_eq_of_lt hq.2, Nat.mod_eq_of_lt hp.2, Nat.mod_eq_of_lt hq.2, Nat.add_zero] at hl hr
    cases p
    cases q
    simp_all

end StatePair

namespace Automaton

def pairSuccessors (a b : Automaton) (p : StatePair) : List StatePair :=
  (a.successors p.left).zipWith StatePair.mk (b.successors p.right)

theorem mem_region_of_mem_pairSuccessors {a b : Automaton} {p q : StatePair}
    (h : q ∈ a.pairSuccessors b p) : (StatePair.region a.numStates b.numStates).Mem q := by
  obtain ⟨s, d, hmem, rfl⟩ : ∃ s d, (s, d) ∈ (a.successors p.left).zip (b.successors p.right) ∧
      StatePair.mk s d = q := by
    rw [pairSuccessors, ← List.map_uncurry_zip_eq_zipWith, List.mem_map] at h
    obtain ⟨⟨s, d⟩, hmem, heq⟩ := h
    exact ⟨s, d, hmem, heq⟩
  exact ⟨successors_lt (List.of_mem_zip hmem).1, successors_lt (List.of_mem_zip hmem).2⟩

section Languages

def distinguish (a b : Automaton) (holds : Bool → Bool → Bool) :
    Search StatePair Unit StatePair where
  region := StatePair.region a.numStates b.numStates
  step _ p :=
    if holds (a.accepting p.left) (b.accepting p.right) then .ok ((), a.pairSuccessors b p)
    else .error p
  step_mem s p s' next _ h := by
    split at h
    · cases h
      exact fun _ => mem_region_of_mem_pairSuccessors
    · contradiction

theorem initial_mem_region (a b : Automaton) :
    ∀ p ∈ [StatePair.mk initial initial], (StatePair.region a.numStates b.numStates).Mem p := by
  intro p hp
  rw [List.mem_singleton.1 hp]
  exact ⟨a.size_pos, b.size_pos⟩

def relates (a b : Automaton) (holds : Bool → Bool → Bool) : Logged (Except Error Bool) :=
  if a.alphabet = b.alphabet then
    match (a.distinguish b holds).runFrom [⟨initial, initial⟩] (a.initial_mem_region b) () with
    | (.error p, q) => ⟨.ok false, #[.distinguished p.left p.right q.numSeen]⟩
    | (.ok (), q) => ⟨.ok true, #[.agreed q.numSeen]⟩
  else pure (.error .alphabetMismatch)

def equivalent (a b : Automaton) : Logged (Except Error Bool) :=
  a.relates b fun x y => x == y

def isSubsetOf (a b : Automaton) : Logged (Except Error Bool) :=
  a.relates b fun x y => !x || y

end Languages

section Isomorphism

structure Partners where
  left : Array (Option StateId)
  right : Array (Option StateId)

namespace Partners

def empty (m n : Nat) : Partners := ⟨Array.replicate m none, Array.replicate n none⟩

def meet (m : Partners) (p : StatePair) : Option Partners :=
  match m.left.getD p.left none, m.right.getD p.right none with
  | none, none =>
    some {
      left := m.left.setIfInBounds p.left (some p.right)
      right := m.right.setIfInBounds p.right (some p.left) }
  | some d, some s => if d = p.right ∧ s = p.left then some m else none
  | _, _ => none

end Partners

def pairing (a b : Automaton) : Search StatePair Partners Unit where
  region := StatePair.region a.numStates b.numStates
  step m p :=
    match m.meet p with
    | none => .error ()
    | some m =>
      if a.accepting p.left = b.accepting p.right then .ok (m, a.pairSuccessors b p)
      else .error ()
  step_mem s p s' next _ h := by
    split at h
    · contradiction
    · split at h
      · cases h
        exact fun _ => mem_region_of_mem_pairSuccessors
      · contradiction

def isomorphic (a b : Automaton) : Bool :=
  if a.alphabet = b.alphabet then
    match (a.pairing b).runFrom [⟨initial, initial⟩] (a.initial_mem_region b)
      (.empty a.numStates b.numStates) with
    | (.error (), _) => false
    | (.ok _, _) => true
  else false

end Isomorphism

end Automaton

end Residual
