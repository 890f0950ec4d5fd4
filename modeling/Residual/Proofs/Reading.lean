import Residual.Automaton.Basic

/-!
This module contains how automata read words: symbol by symbol, up to the first symbol that is not
part of the alphabet.
-/

namespace Residual

namespace Alphabet

variable {a : Alphabet} {c : Char}

theorem index_of_mem (h : c ∈ a) : ∃ k, a.index c = .ok k ∧ a.symbol? k = some c := by
  rw [← contains_iff, contains, Option.isSome_iff_exists] at h
  obtain ⟨k, hk⟩ := h
  refine ⟨k, ?_, indexOf?_eq_some_iff.1 hk⟩
  rw [index, hk]

theorem index_of_not_mem (h : c ∉ a) : a.index c = .error (.symbolOutside c) := by
  rw [← contains_iff, contains, Bool.not_eq_true, Option.isSome_eq_false_iff,
    Option.isNone_iff_eq_none] at h
  rw [index, h]

end Alphabet

namespace Automaton

variable {a : Automaton} {c : Char}

theorem step_of_mem (h : c ∈ a.alphabet) (s : StateId) :
    ∃ k, a.alphabet.symbol? k = some c ∧ a.step s c = .ok ((a.successor? s k).getD initial) := by
  obtain ⟨k, hk, hc⟩ := Alphabet.index_of_mem h
  refine ⟨k, hc, ?_⟩
  rw [step, hk]
  rfl

theorem run_cons_of_step {s d : StateId} (h : a.step s c = .ok d) (word : List Char) :
    a.run s (c :: word) = a.run d word := by
  rw [run, List.foldlM_cons, h]
  rfl

theorem run_of_not_mem {front : List Char} (hfront : ∀ d ∈ front, d ∈ a.alphabet)
    (hc : c ∉ a.alphabet) (rest : List Char) (s : StateId) :
    a.run s (front ++ c :: rest) = .error (.symbolOutside c) := by
  induction front generalizing s with
  | nil =>
    rw [List.nil_append, run, List.foldlM_cons, step, Alphabet.index_of_not_mem hc]
    rfl
  | cons d front ih =>
    obtain ⟨k, _, hstep⟩ := step_of_mem (hfront d List.mem_cons_self) s
    rw [List.cons_append, run_cons_of_step hstep]
    apply ih
    intro b hb
    exact hfront b (List.mem_cons_of_mem d hb)

end Automaton

end Residual
