import Mathlib.Computability.Language
import Mathlib.Logic.Relation
import Residual.Proofs.Reading

/-!
This module contains the languages of automata: the words that lead from a state to an accepting one.
-/

namespace Residual

namespace Alphabet

variable {a : Alphabet} {c : Char} {k : Nat}

theorem nodup_symbols (a : Alphabet) : a.symbols.Nodup := by
  apply a.set.increasing.imp
  intro c d hlt heq
  rw [heq, Std.ReflOrd.compare_self] at hlt
  contradiction

theorem symbol?_eq_getElem? (a : Alphabet) (k : Nat) : a.symbol? k = a.symbols[k]? :=
  Array.getElem?_toList.symm

theorem index_eq_ok_iff : a.index c = .ok k ↔ a.symbols[k]? = some c := by
  rw [← symbol?_eq_getElem?, ← indexOf?_eq_some_iff, index]
  cases a.indexOf? c <;> simp

end Alphabet

namespace Automaton

def languageFrom (a : Automaton) (s : StateId) : Language Char :=
  {w | ∃ d, a.run s w = .ok d ∧ a.accepting d = true}

def language (a : Automaton) : Language Char := a.languageFrom initial

variable {a : Automaton} {s d : StateId} {k : Nat} {c : Char} {u w : List Char}

section Step

theorem step_eq_ok_iff : a.step s c = .ok d ↔
    ∃ k : Nat, a.alphabet.symbols[k]? = some c ∧ (a.successors s)[k]?.getD initial = d := by
  simp only [← Alphabet.index_eq_ok_iff, step, successor?_eq_getElem?]
  cases a.alphabet.index c <;> simp [Except.map]

theorem lt_of_step (h : a.step s c = .ok d) : d < a.numStates := by
  obtain ⟨k, _, rfl⟩ := step_eq_ok_iff.1 h
  cases hd : (a.successors s)[k]? with
  | none => exact a.size_pos
  | some d => exact successors_lt (List.mem_of_getElem? hd)

theorem mem_edges_iff (hs : s < a.numStates) : (c, d) ∈ a.edges s ↔ a.step s c = .ok d := by
  rw [step_eq_ok_iff, edges, List.mem_iff_getElem?]
  apply exists_congr
  intro k
  rw [List.getElem?_zip_eq_some]
  apply and_congr_right
  intro hc
  have hk : k < (a.successors s).length := by
    rw [length_successors hs]
    exact (List.getElem?_eq_some_iff.1 hc).1
  rw [List.getElem?_eq_getElem hk]
  simp

theorem mem_successors_iff (hs : s < a.numStates) :
    d ∈ a.successors s ↔ ∃ c, a.step s c = .ok d := by
  have hlen : (a.successors s).length ≤ a.alphabet.symbols.length :=
    Nat.le_of_eq (length_successors hs)
  rw [← List.map_snd_zip hlen]
  simp only [← mem_edges_iff hs, edges, List.mem_map, Prod.exists, exists_eq_right]

theorem exists_index (hk : k < a.alphabet.size) : ∃ c, a.alphabet.index c = .ok k :=
  ⟨a.alphabet.symbols[k], Alphabet.index_eq_ok_iff.2 (List.getElem?_eq_getElem hk)⟩

theorem mem_of_index (h : a.alphabet.index c = .ok k) : c ∈ a.alphabet :=
  Alphabet.mem_symbols.1 (List.mem_of_getElem? (Alphabet.index_eq_ok_iff.1 h))

theorem step_of_successor? (hc : a.alphabet.index c = .ok k) (h : a.successor? s k = some d) :
    a.step s c = .ok d := by
  rw [step, hc, Except.map, h, Option.getD_some]

theorem exists_successor?_of_step (hs : s < a.numStates) (h : a.step s c = .ok d) :
    ∃ k, a.alphabet.index c = .ok k ∧ a.successor? s k = some d := by
  obtain ⟨k, hc, hd⟩ := step_eq_ok_iff.1 h
  refine ⟨k, Alphabet.index_eq_ok_iff.2 hc, ?_⟩
  have hk : k < (a.successors s).length := by
    rw [length_successors hs]
    exact (List.getElem?_eq_some_iff.1 hc).1
  rw [List.getElem?_eq_getElem hk, Option.getD_some] at hd
  rw [successor?_eq_getElem?, List.getElem?_eq_getElem hk, hd]

theorem step_eq_ok_iff_successor? (hs : s < a.numStates) : a.step s c = .ok d ↔
    ∃ k, a.alphabet.symbol? k = some c ∧ a.successor? s k = some d := by
  simp only [Alphabet.symbol?_eq_getElem?, ← Alphabet.index_eq_ok_iff]
  constructor
  · exact exists_successor?_of_step hs
  · rintro ⟨k, hc, hd⟩
    exact step_of_successor? hc hd

end Step

section Run

theorem run_cons_eq_ok_iff {e : StateId} :
    a.run s (c :: w) = .ok e ↔ ∃ d, a.step s c = .ok d ∧ a.run d w = .ok e := by
  rw [run, List.foldlM_cons]
  cases a.step s c with
  | error e => simp [bind, Except.bind]
  | ok d => simp [bind, Except.bind, run]

theorem run_append_eq_ok_iff {u v : List Char} {e : StateId} :
    a.run s (u ++ v) = .ok e ↔ ∃ d, a.run s u = .ok d ∧ a.run d v = .ok e := by
  induction u generalizing s with
  | nil =>
    show a.run s v = .ok e ↔ ∃ d, Except.ok s = Except.ok d ∧ a.run d v = .ok e
    simp
  | cons c u ih =>
    rw [List.cons_append]
    simp only [run_cons_eq_ok_iff, ih]
    grind

theorem lt_of_run (hs : s < a.numStates) (h : a.run s w = .ok d) : d < a.numStates := by
  induction w generalizing s with
  | nil =>
    cases h
    exact hs
  | cons c w ih =>
    obtain ⟨e, hstep, hrun⟩ := run_cons_eq_ok_iff.1 h
    exact ih (lt_of_step hstep) hrun

theorem run_snoc (hu : a.run initial u = .ok s) (hc : a.step s c = .ok d) :
    a.run initial (u ++ [c]) = .ok d :=
  run_append_eq_ok_iff.2 ⟨s, hu, run_cons_eq_ok_iff.2 ⟨d, hc, rfl⟩⟩

theorem of_run_snoc (h : a.run initial (u ++ [c]) = .ok d) :
    ∃ s k, a.run initial u = .ok s ∧ a.alphabet.index c = .ok k ∧ a.successor? s k = some d := by
  obtain ⟨s, hu, hrun⟩ := run_append_eq_ok_iff.1 h
  obtain ⟨d', hstep, hd'⟩ := run_cons_eq_ok_iff.1 hrun
  cases hd'
  obtain ⟨k, hk, hd⟩ := exists_successor?_of_step (lt_of_run a.size_pos hu) hstep
  exact ⟨s, k, hu, hk, hd⟩

theorem exists_run_iff : (∃ d, a.run s w = .ok d) ↔ ∀ c ∈ w, c ∈ a.alphabet := by
  induction w generalizing s with
  | nil => exact iff_of_true ⟨s, rfl⟩ (by simp)
  | cons c w ih =>
    rw [List.forall_mem_cons]
    constructor
    · rintro ⟨d, hd⟩
      obtain ⟨e, hstep, hrun⟩ := run_cons_eq_ok_iff.1 hd
      refine ⟨?_, ih.1 ⟨d, hrun⟩⟩
      by_contra hc
      rw [step, Alphabet.index_of_not_mem hc] at hstep
      contradiction
    · rintro ⟨hc, hw⟩
      obtain ⟨k, _, hstep⟩ := step_of_mem hc s
      obtain ⟨d, hd⟩ := ih.2 hw
      exact ⟨d, run_cons_eq_ok_iff.2 ⟨_, hstep, hd⟩⟩

theorem exists_run_eq_iff (hs : s < a.numStates) :
    (∃ w, a.run s w = .ok d) ↔ Relation.ReflTransGen (fun s d => d ∈ a.successors s) s d := by
  constructor
  · rintro ⟨w, hw⟩
    induction w generalizing s with
    | nil =>
      cases hw
      exact .refl
    | cons c w ih =>
      obtain ⟨e, hstep, hrun⟩ := run_cons_eq_ok_iff.1 hw
      exact .head ((mem_successors_iff hs).2 ⟨c, hstep⟩) (ih (lt_of_step hstep) hrun)
  · intro h
    induction h with
    | refl => exact ⟨[], rfl⟩
    | tail _ hd ih =>
      obtain ⟨w, hw⟩ := ih
      obtain ⟨c, hc⟩ := (mem_successors_iff (lt_of_run hs hw)).1 hd
      refine ⟨w ++ [c], run_append_eq_ok_iff.2 ⟨_, hw, ?_⟩⟩
      exact run_cons_eq_ok_iff.2 ⟨_, hc, rfl⟩

end Run

section Language

theorem mem_languageFrom_of_run (h : a.run s w = .ok d) :
    w ∈ a.languageFrom s ↔ a.accepting d = true := by
  show (∃ d, a.run s w = .ok d ∧ a.accepting d = true) ↔ _
  simp [h]

theorem nil_mem_languageFrom_iff : [] ∈ a.languageFrom s ↔ a.accepting s = true :=
  mem_languageFrom_of_run rfl

theorem append_mem_languageFrom_iff {u v : List Char} :
    u ++ v ∈ a.languageFrom s ↔ ∃ d, a.run s u = .ok d ∧ v ∈ a.languageFrom d := by
  show (∃ e, a.run s (u ++ v) = .ok e ∧ _) ↔ _
  simp only [run_append_eq_ok_iff]
  constructor
  · rintro ⟨e, ⟨d, hu, hv⟩, he⟩
    exact ⟨d, hu, e, hv, he⟩
  · rintro ⟨d, hu, e, hv, he⟩
    exact ⟨e, ⟨d, hu, hv⟩, he⟩

theorem cons_mem_languageFrom_iff :
    c :: w ∈ a.languageFrom s ↔ ∃ d, a.step s c = .ok d ∧ w ∈ a.languageFrom d := by
  have h := append_mem_languageFrom_iff (a := a) (s := s) (u := [c]) (v := w)
  rw [List.singleton_append] at h
  rw [h]
  apply exists_congr
  intro d
  rw [run_cons_eq_ok_iff]
  show (∃ e, a.step s c = .ok e ∧ Except.ok e = Except.ok d) ∧ _ ↔ _
  simp

theorem accepts_eq_ok_true_iff : a.accepts w = .ok true ↔ w ∈ a.language := by
  show (a.run initial w).map a.accepting = .ok true ↔ ∃ d, a.run initial w = .ok d ∧ _
  cases a.run initial w <;> simp [Except.map]

theorem mem_alphabet_of_mem_languageFrom (h : w ∈ a.languageFrom s) : ∀ c ∈ w, c ∈ a.alphabet := by
  obtain ⟨d, hd, _⟩ := h
  exact exists_run_iff.1 ⟨d, hd⟩

end Language

end Automaton

end Residual
