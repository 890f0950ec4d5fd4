import Residual.Automaton.Product
import Residual.Proofs.Automaton.Reachability
import Residual.Proofs.Search

/-!
This module contains the correctness of the comparison of two automata: a search for a pair of
states visits the pairs that the automata reach by a common word.
-/

namespace Residual

open Std

namespace Automaton

variable {a b : Automaton} {p p' : StatePair} {holds : Bool → Bool → Bool}

section Pairs

theorem mem_pairSuccessors_iff (h : a.alphabet = b.alphabet) (hl : p.left < a.numStates)
    (hr : p.right < b.numStates) : p' ∈ a.pairSuccessors b p ↔
      ∃ c, a.step p.left c = .ok p'.left ∧ b.step p.right c = .ok p'.right := by
  simp only [step_eq_ok_iff]
  rw [pairSuccessors, List.mem_iff_getElem?]
  simp only [List.getElem?_zipWith_eq_some]
  constructor
  · rintro ⟨k, s, d, hs, hd, rfl⟩
    have hk : k < a.alphabet.symbols.length := by
      have hlen : (a.successors p.left).length = a.alphabet.symbols.length := length_successors hl
      rw [← hlen]
      exact (List.getElem?_eq_some_iff.1 hs).1
    refine ⟨_, ⟨k, List.getElem?_eq_getElem hk, ?_⟩, ⟨k, ?_, ?_⟩⟩
    · rw [hs, Option.getD_some]
    · rw [← h]
      exact List.getElem?_eq_getElem hk
    · rw [hd, Option.getD_some]
  · rintro ⟨c, ⟨k, hk, hs⟩, ⟨k', hk', hd⟩⟩
    rw [← h] at hk'
    obtain rfl : k = k' := by
      rw [← Alphabet.index_eq_ok_iff] at hk hk'
      exact Except.ok.inj (hk.symm.trans hk')
    have hlt := (List.getElem?_eq_some_iff.1 hk).1
    have hkl : k < (a.successors p.left).length := by
      rw [length_successors hl]
      exact hlt
    have hkr : k < (b.successors p.right).length := by
      rw [length_successors hr, ← h]
      exact hlt
    rw [List.getElem?_eq_getElem hkl, Option.getD_some] at hs
    rw [List.getElem?_eq_getElem hkr, Option.getD_some] at hd
    refine ⟨k, p'.left, p'.right, ?_, ?_, rfl⟩
    · rw [← hs, List.getElem?_eq_getElem hkl]
    · rw [← hd, List.getElem?_eq_getElem hkr]

def pairGraph (a b : Automaton) : Region.Graph StatePair where
  toRegion := StatePair.region a.numStates b.numStates
  next := a.pairSuccessors b
  next_mem := fun _ _ _ => mem_region_of_mem_pairSuccessors

theorem exists_runs_iff (h : a.alphabet = b.alphabet) :
    Relation.ReflTransGen (fun p p' => p' ∈ (a.pairGraph b).next p) ⟨initial, initial⟩ p ↔
      ∃ w, a.run initial w = .ok p.left ∧ b.run initial w = .ok p.right := by
  constructor
  · intro hp
    induction hp with
    | refl => exact ⟨[], rfl, rfl⟩
    | tail _ hnext ih =>
      obtain ⟨w, hl, hr⟩ := ih
      obtain ⟨c, hcl, hcr⟩ :=
        (mem_pairSuccessors_iff h (lt_of_run a.size_pos hl) (lt_of_run b.size_pos hr)).1 hnext
      refine ⟨w ++ [c], ?_, ?_⟩
      · exact run_append_eq_ok_iff.2 ⟨_, hl, run_cons_eq_ok_iff.2 ⟨_, hcl, rfl⟩⟩
      · exact run_append_eq_ok_iff.2 ⟨_, hr, run_cons_eq_ok_iff.2 ⟨_, hcr, rfl⟩⟩
  · rintro ⟨w, hl, hr⟩
    induction w using List.reverseRecOn generalizing p with
    | nil =>
      obtain ⟨_, _⟩ := p
      cases hl
      cases hr
      exact .refl
    | append_singleton w c ih =>
      obtain ⟨s, hs, hsc⟩ := run_append_eq_ok_iff.1 hl
      obtain ⟨d, hd, hdc⟩ := run_append_eq_ok_iff.1 hr
      apply (ih (p := ⟨s, d⟩) hs hd).tail
      apply (mem_pairSuccessors_iff h (lt_of_run a.size_pos hs) (lt_of_run b.size_pos hd)).2
      obtain ⟨_, hstep, hrun⟩ := run_cons_eq_ok_iff.1 hsc
      obtain ⟨_, hstep', hrun'⟩ := run_cons_eq_ok_iff.1 hdc
      cases hrun
      cases hrun'
      exact ⟨c, hstep, hstep'⟩

end Pairs

section Relates

def RelatesAll (a b : Automaton) (holds : Bool → Bool → Bool) : Prop :=
  ∀ w s d, a.run initial w = .ok s → b.run initial w = .ok d →
    holds (a.accepting s) (b.accepting d) = true

theorem ends_distinguish (a b : Automaton) (holds : Bool → Bool → Bool) :
    (a.distinguish b holds).Ends
      (fun q _ => (a.pairGraph b).Explored [⟨initial, initial⟩] q ∧
        ∀ p, q.HasLeft p → holds (a.accepting p.left) (b.accepting p.right) = true)
      ((a.distinguish b holds).runFrom [⟨initial, initial⟩] (a.initial_mem_region b) ()) := by
  apply Search.ends_runFrom
  · rintro q q' _ p _ next ⟨hexplored, hholds⟩ hp hstep
    simp only [distinguish] at hstep
    split at hstep
    next hp' =>
      cases hstep
      refine ⟨hexplored.visit hp, ?_⟩
      intro x hx
      rw [Worklist.hasLeft_pushAll_iff, Worklist.hasLeft_iff_of_pop hp] at hx
      rcases hx with hx | rfl
      · exact hholds x hx
      · exact hp'
    · contradiction
  · refine ⟨Region.Graph.explored_roots _ _, ?_⟩
    intro p hp
    exact absurd hp (Worklist.not_hasLeft_roots _ p)

def Meets (a b : Automaton) (p : StatePair) : Prop :=
  ∃ w, a.run initial w = .ok p.left ∧ b.run initial w = .ok p.right

inductive Walks (a b : Automaton) (holds : Bool → Bool → Bool) : Logged (Except Error Bool) → Prop where
  | agreed {q : Worklist StatePair} (seen : ∀ p, p ∈ q.seen ↔ a.Meets b p)
      (numSeen_le : q.numSeen ≤ a.numStates * b.numStates)
      (related : ∀ p ∈ q.seen, holds (a.accepting p.left) (b.accepting p.right) = true) :
      a.Walks b holds ⟨.ok true, #[.agreed q.numSeen]⟩
  | distinguished {q : Worklist StatePair} {p : StatePair} (seen : ∀ p ∈ q.seen, a.Meets b p)
      (numSeen_le : q.numSeen ≤ a.numStates * b.numStates) (mem : p ∈ q.seen)
      (unrelated : ¬holds (a.accepting p.left) (b.accepting p.right) = true) :
      a.Walks b holds ⟨.ok false, #[.distinguished p.left p.right q.numSeen]⟩

theorem meets_of_explored {q : Worklist StatePair} (h : a.alphabet = b.alphabet)
    (hexplored : (a.pairGraph b).Explored [⟨initial, initial⟩] q) : ∀ p ∈ q.seen, a.Meets b p := by
  intro p hp
  obtain ⟨_, hroot, hpath⟩ := hexplored.reached p hp
  rw [List.mem_singleton.1 hroot] at hpath
  exact (exists_runs_iff h).1 hpath

theorem Meets.mem_region (h : a.Meets b p) : (StatePair.region a.numStates b.numStates).Mem p := by
  obtain ⟨w, hl, hr⟩ := h
  exact ⟨lt_of_run a.size_pos hl, lt_of_run b.size_pos hr⟩

theorem walks_relates (h : a.alphabet = b.alphabet) (holds : Bool → Bool → Bool) :
    a.Walks b holds (a.relates b holds) := by
  have hends := a.ends_distinguish b holds
  unfold relates
  rw [if_pos h]
  split
  next p q hr =>
    rw [hr] at hends
    obtain ⟨q', _, x, ⟨hexplored, _⟩, hp, hstep⟩ := hends.of_error rfl
    have hseen : q.seen = q'.seen := Worklist.seen_of_pop hp
    have hmeets := meets_of_explored h hexplored
    rw [← hseen] at hmeets
    simp only [distinguish] at hstep
    split at hstep
    · contradiction
    next hx =>
      cases hstep
      refine .distinguished hmeets ?_ ?_ hx
      · exact Region.numSeen_le_size _ fun p hp => (hmeets p hp).mem_region
      · rw [hseen]
        exact Worklist.mem_seen_of_pop hp
  next q hr =>
    rw [hr] at hends
    obtain ⟨⟨hexplored, hholds⟩, hleft⟩ := hends.of_ok rfl
    have hmeets := meets_of_explored h hexplored
    refine .agreed ?_ ?_ fun p hp => hholds p (hleft p hp)
    · intro p
      refine ⟨hmeets p, fun hp => ?_⟩
      have hpath := (exists_runs_iff h).2 hp
      exact hexplored.mem_seen_of_path hleft (List.mem_singleton_self _) hpath
    · exact Region.numSeen_le_size _ fun p hp => (hmeets p hp).mem_region

theorem relates_eq_ok (h : a.alphabet = b.alphabet) (holds : Bool → Bool → Bool) :
    ∃ r, (a.relates b holds).value = .ok r ∧ (r = true ↔ a.RelatesAll b holds) := by
  have hwalks := walks_relates h holds
  generalize a.relates b holds = r at hwalks
  cases hwalks with
  | agreed seen _ related =>
    refine ⟨true, rfl, iff_of_true rfl ?_⟩
    intro w s d hs hd
    exact related ⟨s, d⟩ ((seen _).2 ⟨w, hs, hd⟩)
  | distinguished seen _ mem unrelated =>
    refine ⟨false, rfl, iff_of_false nofun ?_⟩
    intro hall
    obtain ⟨w, hl, hr⟩ := seen _ mem
    exact unrelated (hall w _ _ hl hr)

theorem relates_of_ne (h : a.alphabet ≠ b.alphabet) :
    (a.relates b holds).value = .error .alphabetMismatch := by
  unfold relates
  rw [if_neg h]
  rfl

theorem relatesAll_iff_mem (h : a.alphabet = b.alphabet) {r : Prop → Prop → Prop}
    (hr : ∀ x y : Bool, holds x y = true ↔ r (x = true) (y = true)) (hfalse : r False False) :
    a.RelatesAll b holds ↔ ∀ w, r (w ∈ a.language) (w ∈ b.language) := by
  constructor
  · intro hall w
    by_cases hw : ∀ c ∈ w, c ∈ a.alphabet
    · obtain ⟨s, hs⟩ := exists_run_iff.2 hw
      rw [h] at hw
      obtain ⟨d, hd⟩ := exists_run_iff.2 hw
      rw [language, language, mem_languageFrom_of_run hs, mem_languageFrom_of_run hd, ← hr]
      exact hall w s d hs hd
    · have hl : w ∉ a.language := fun hl => hw (mem_alphabet_of_mem_languageFrom hl)
      have hr : w ∉ b.language := fun hr => hw (h ▸ mem_alphabet_of_mem_languageFrom hr)
      rw [eq_false hl, eq_false hr]
      exact hfalse
  · intro hall w s d hs hd
    rw [hr, ← mem_languageFrom_of_run hs, ← mem_languageFrom_of_run hd]
    exact hall w

theorem equivalent_eq_ok (h : a.alphabet = b.alphabet) :
    ∃ r, (a.equivalent b).value = .ok r ∧
      (r = true ↔ ∀ w, w ∈ a.language ↔ w ∈ b.language) := by
  rw [← relatesAll_iff_mem (r := Iff) h _ Iff.rfl]
  · exact relates_eq_ok h _
  · decide

theorem isSubsetOf_eq_ok (h : a.alphabet = b.alphabet) :
    ∃ r, (a.isSubsetOf b).value = .ok r ∧
      (r = true ↔ ∀ w, w ∈ a.language → w ∈ b.language) := by
  rw [← relatesAll_iff_mem (r := fun p q => p → q) h _ id]
  · exact relates_eq_ok h _
  · decide

theorem equivalent_eq_ok_true_iff : (a.equivalent b).value = .ok true ↔
    a.alphabet = b.alphabet ∧ ∀ w, w ∈ a.language ↔ w ∈ b.language := by
  by_cases h : a.alphabet = b.alphabet
  · obtain ⟨r, hr, hiff⟩ := equivalent_eq_ok h
    rw [hr, Except.ok.injEq, hiff]
    exact (and_iff_right h).symm
  · rw [equivalent, relates_of_ne h]
    exact iff_of_false nofun fun h' => h h'.1

theorem isSubsetOf_eq_ok_true_iff : (a.isSubsetOf b).value = .ok true ↔
    a.alphabet = b.alphabet ∧ ∀ w, w ∈ a.language → w ∈ b.language := by
  by_cases h : a.alphabet = b.alphabet
  · obtain ⟨r, hr, hiff⟩ := isSubsetOf_eq_ok h
    rw [hr, Except.ok.injEq, hiff]
    exact (and_iff_right h).symm
  · rw [isSubsetOf, relates_of_ne h]
    exact iff_of_false nofun fun h' => h h'.1

theorem relates_eq_error_iff :
    (a.relates b holds).value = .error .alphabetMismatch ↔ a.alphabet ≠ b.alphabet := by
  constructor
  · intro herror h
    obtain ⟨r, hr, _⟩ := relates_eq_ok h holds
    cases herror.symm.trans hr
  · exact relates_of_ne

/--
The comparison of two automata fails if and only if their alphabets differ. Otherwise it visits
pairs of states that a common word leads to, at most as many as there are pairs, and tells whether
the same words are accepted, or whether all words that one automaton accepts are accepted by the
other one.
-/
theorem comparison_exact (a b : Automaton) :
    ((a.equivalent b).value = .error .alphabetMismatch ↔ a.alphabet ≠ b.alphabet) ∧
    ((a.isSubsetOf b).value = .error .alphabetMismatch ↔ a.alphabet ≠ b.alphabet) ∧
    (a.alphabet = b.alphabet →
      a.Walks b (fun x y => x == y) (a.equivalent b) ∧
      a.Walks b (fun x y => !x || y) (a.isSubsetOf b) ∧
      (∃ r, (a.equivalent b).value = .ok r ∧
        (r = true ↔ ∀ w, a.accepts w = .ok true ↔ b.accepts w = .ok true)) ∧
      ∃ r, (a.isSubsetOf b).value = .ok r ∧
        (r = true ↔ ∀ w, a.accepts w = .ok true → b.accepts w = .ok true)) ∧
    ((a.equivalent b).value = .ok true ↔
      (a.isSubsetOf b).value = .ok true ∧ (b.isSubsetOf a).value = .ok true) := by
  refine ⟨relates_eq_error_iff, relates_eq_error_iff, ?_, ?_⟩
  · intro h
    simp only [accepts_eq_ok_true_iff]
    exact ⟨walks_relates h _, walks_relates h _, equivalent_eq_ok h, isSubsetOf_eq_ok h⟩
  · rw [equivalent_eq_ok_true_iff, isSubsetOf_eq_ok_true_iff, isSubsetOf_eq_ok_true_iff]
    constructor
    · rintro ⟨h, hall⟩
      exact ⟨⟨h, fun w => (hall w).1⟩, h.symm, fun w => (hall w).2⟩
    · rintro ⟨⟨h, hle⟩, _, hge⟩
      exact ⟨h, fun w => ⟨hle w, hge w⟩⟩

end Relates

section Isomorphic

/-- Whether two automata differ in nothing but the terms of their states. -/
structure AgreesWith (a b : Automaton) : Prop where
  alphabet_eq : a.alphabet = b.alphabet
  numStates_eq : a.numStates = b.numStates
  finals_eq : a.finals = b.finals
  successors_eq : ∀ s, a.successors s = b.successors s

theorem AgreesWith.accepting_eq (h : a.AgreesWith b) (s : StateId) :
    a.accepting s = b.accepting s := by
  rw [Bool.eq_iff_iff, ← mem_finals_iff, ← mem_finals_iff, h.finals_eq]

end Isomorphic

end Automaton

end Residual
