import Mathlib.Data.Char
import Residual.Proofs.Automaton.Words

/-!
This module contains the words that automata read as sequences of indices. A word is encoded and read
up to the same symbol, and reading it follows the successors by the indices.
-/

namespace Residual

namespace Alphabet

structure Numbers (a : Alphabet) (symbols : List Char) : Prop where
  inverse : ∀ c k, a.indexOf? c = some k ↔ a.symbol? k = some c
  exists_index_iff : ∀ c, (∃ k, a.indexOf? c = some k) ↔ c ∈ symbols
  exists_symbol_iff : ∀ k, (∃ c, a.symbol? k = some c) ↔ k < a.size
  lt_iff : ∀ c d k m, a.symbol? k = some c → a.symbol? m = some d → (k < m ↔ c < d)

variable {a : Alphabet} {c d : Char} {k m : Nat} {w front : List Char}

theorem lt_of_symbol? (hc : a.symbol? k = some c) (hd : a.symbol? m = some d) (h : k < m) :
    c < d := by
  rw [symbol?_eq_getElem?] at hc hd
  obtain ⟨hk, rfl⟩ := List.getElem?_eq_some_iff.1 hc
  obtain ⟨hm, rfl⟩ := List.getElem?_eq_some_iff.1 hd
  exact compare_lt_iff_lt.1 (List.pairwise_iff_getElem.1 a.set.increasing k m hk hm h)

theorem lt_iff_of_symbol? (hc : a.symbol? k = some c) (hd : a.symbol? m = some d) :
    k < m ↔ c < d := by
  refine ⟨lt_of_symbol? hc hd, fun hlt => ?_⟩
  rcases Nat.lt_trichotomy k m with h | rfl | h
  · exact h
  · cases hc.symm.trans hd
    exact absurd hlt (lt_irrefl c)
  · exact absurd hlt (lt_asymm (lt_of_symbol? hd hc h))

theorem numbers_ofList (symbols : List Char) : (ofList symbols).Numbers symbols where
  inverse _ _ := indexOf?_eq_some_iff
  exists_index_iff c := by
    rw [← Option.isSome_iff_exists]
    exact contains_iff.trans SymbolSet.mem_ofList
  exists_symbol_iff k := by
    constructor
    · rintro ⟨c, hc⟩
      exact (Array.getElem?_eq_some_iff.1 hc).1
    · exact fun hk => ⟨_, Array.getElem?_eq_getElem hk⟩
  lt_iff _ _ _ _ := lt_iff_of_symbol?

theorem encode_of_not_mem (hfront : ∀ d ∈ front, d ∈ a) (hc : c ∉ a) (rest : List Char) :
    a.encode (front ++ c :: rest) = .error (.symbolOutside c) := by
  induction front with
  | nil =>
    rw [List.nil_append, encode, List.mapM_cons, index_of_not_mem hc]
    rfl
  | cons d front ih =>
    obtain ⟨hd, hfront⟩ := List.forall_mem_cons.1 hfront
    obtain ⟨k, hk, _⟩ := index_of_mem hd
    have hrest := ih hfront
    rw [encode] at hrest
    rw [List.cons_append, encode, List.mapM_cons, hk, hrest]
    rfl

end Alphabet

namespace Automaton

structure Reads (a : Automaton) (s : StateId) (w : List Char) (i : List Nat) (d : StateId) :
    Prop where
  encode_eq : a.alphabet.encode w = .ok i
  decode_eq : i.mapM a.alphabet.symbol? = some w
  successors_eq : i.foldlM a.successor? s = some d
  steps_eq : w.foldlM a.step s = .ok d
  run_eq : a.run s w = .ok d

structure Refuses (a : Automaton) (s : StateId) (w : List Char) (c : Char) : Prop where
  first : ∃ front rest, w = front ++ c :: rest ∧ (∀ b ∈ front, b ∈ a.alphabet) ∧ c ∉ a.alphabet
  encode_eq : a.alphabet.encode w = .error (.symbolOutside c)
  run_eq : a.run s w = .error (.symbolOutside c)

variable {a : Automaton} {s d e : StateId} {c : Char} {k : Nat} {w : List Char} {i : List Nat}

theorem Reads.cons (hc : a.alphabet.index c = .ok k) (he : a.successor? s k = some e)
    (h : a.Reads e w i d) : a.Reads s (c :: w) (k :: i) d where
  encode_eq := Alphabet.encode_cons hc h.encode_eq
  decode_eq := by
    rw [List.mapM_cons, Alphabet.symbol?_eq_getElem?, Alphabet.index_eq_ok_iff.1 hc, h.decode_eq]
    rfl
  successors_eq := by
    rw [List.foldlM_cons, he]
    exact h.successors_eq
  steps_eq := by
    rw [List.foldlM_cons, step_of_successor? hc he]
    exact h.steps_eq
  run_eq := by
    rw [run_cons_of_step (step_of_successor? hc he)]
    exact h.run_eq

theorem exists_reads (hs : s < a.numStates) (hw : ∀ c ∈ w, c ∈ a.alphabet) :
    ∃ i d, a.Reads s w i d := by
  induction w generalizing s with
  | nil => exact ⟨[], s, rfl, rfl, rfl, rfl, rfl⟩
  | cons c w ih =>
    obtain ⟨hc, hw⟩ := List.forall_mem_cons.1 hw
    obtain ⟨_, _, hstep⟩ := step_of_mem hc s
    obtain ⟨k, hk, he⟩ := exists_successor?_of_step hs hstep
    obtain ⟨i, d, h⟩ := ih (lt_of_step hstep) hw
    exact ⟨k :: i, d, h.cons hk he⟩

theorem exists_first_not_mem {b : Alphabet} (h : ¬∀ c ∈ w, c ∈ b) :
    ∃ c front rest, w = front ++ c :: rest ∧ (∀ d ∈ front, d ∈ b) ∧ c ∉ b := by
  induction w with
  | nil => exact absurd (fun c hc => absurd hc List.not_mem_nil) h
  | cons c w ih =>
    by_cases hc : c ∈ b
    · have hw : ¬∀ c ∈ w, c ∈ b := fun hw => h (List.forall_mem_cons.2 ⟨hc, hw⟩)
      obtain ⟨d, front, rest, rfl, hfront, hd⟩ := ih hw
      exact ⟨d, c :: front, rest, rfl, List.forall_mem_cons.2 ⟨hc, hfront⟩, hd⟩
    · exact ⟨c, [], w, rfl, fun d hd => absurd hd List.not_mem_nil, hc⟩

theorem exists_refuses (hw : ¬∀ c ∈ w, c ∈ a.alphabet) (s : StateId) : ∃ c, a.Refuses s w c := by
  obtain ⟨c, front, rest, rfl, hfront, hc⟩ := exists_first_not_mem hw
  exact ⟨c, ⟨front, rest, rfl, hfront, hc⟩, Alphabet.encode_of_not_mem hfront hc rest,
    run_of_not_mem hfront hc rest s⟩

/--
An alphabet numbers its symbols in their order. From every state of an automaton a word is read if
and only if the alphabet can encode it; both fail at the first symbol that the alphabet does not have.
A word that is read leads where its indices lead, and a word that is read in two parts leads where the
second part leads from the end of the first one.
-/
theorem reading_exact :
    (∀ symbols : List Char, (Alphabet.ofList symbols).Numbers symbols) ∧
    ∀ a : Automaton, ∀ s < a.numStates,
      (∀ k < a.alphabet.size, ∃ d < a.numStates, a.successor? s k = some d ∧
        (a.successors s)[k]? = some d ∧ a.delta[s * a.alphabet.size + k]? = some d) ∧
      (∀ c d, a.step s c = .ok d ↔
        ∃ k, a.alphabet.indexOf? c = some k ∧ a.successor? s k = some d) ∧
      (∀ w, (∃ i d, a.Reads s w i d) ∨ ∃ c, a.Refuses s w c) ∧
      ∀ u v, a.run s (u ++ v) = a.run s u >>= fun d => a.run d v := by
  refine ⟨Alphabet.numbers_ofList, fun a s hs => ⟨?_, ?_, ?_, ?_⟩⟩
  · intro k hk
    have hlt : k < (a.successors s).length := (length_successors hs).symm ▸ hk
    have hget : (a.successors s)[k]? = some (a.successors s)[k] := List.getElem?_eq_getElem hlt
    have hsuccessor := a.successor?_eq_getElem? s k
    rw [hget] at hsuccessor
    refine ⟨_, successors_lt (List.getElem_mem hlt), hsuccessor, hget, ?_⟩
    rw [successor?, if_pos hk] at hsuccessor
    exact hsuccessor
  · intro c d
    rw [step_eq_ok_iff_successor? hs]
    simp only [Alphabet.indexOf?_eq_some_iff]
  · intro w
    by_cases hw : ∀ c ∈ w, c ∈ a.alphabet
    · exact .inl (exists_reads hs hw)
    · exact .inr (exists_refuses hw s)
  · intro u v
    exact List.foldlM_append

end Automaton

end Residual
