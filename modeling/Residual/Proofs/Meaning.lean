import Residual.Proofs.Session

/-!
This module contains what terms, derivatives and compiled automata mean in every workspace that a
session can reach.
-/

namespace Residual

namespace Workspace

variable {w : Workspace}

/--
Every derivative is a left quotient, nullable terms are those with the empty word, and matching
decides the language, whatever derivatives the workspace knows already.
-/
theorem Reachable.language_derivatives (hw : w.Reachable) {t : TermId} (ht : t < w.numTerms)
    (c : Char) (word : List Char) :
    let d := w.derivative t c
    let u := w.wordDerivative t word
    (d.1 < d.2.numTerms ∧ d.2.store.language d.1 = {v | c :: v ∈ w.store.language t}) ∧
      (u.1 < u.2.numTerms ∧ u.2.store.language u.1 = {v | word ++ v ∈ w.store.language t}) ∧
      (w.store.nullable t = true ↔ [] ∈ w.store.language t) ∧
      ((w.contains t word).1 = true ↔ word ∈ w.store.language t) := by
  have hsound := hw.sound
  refine ⟨⟨?_, ?_⟩, ⟨?_, ?_⟩, ?_, ?_⟩
  · exact (derives_derivative hsound ht c).lt_numTerms
  · apply language_derivative hsound ht
  · exact (derives_wordDerivative hsound ht word).lt_numTerms
  · apply language_wordDerivative hsound ht
  · apply hsound.wellFormed.nullable_iff ht
  · apply contains_iff hsound ht

theorem language_derivatives_symbol :
    let w := (initial 10).perform (.build (.symbol 'a'))
    let d := w.derivative 3 'a'
    w.Reachable ∧ 3 < w.numTerms ∧ d.2.store.language d.1 = {v | 'a' :: v ∈ w.store.language 3} := by
  have hw := reachable_symbol 10 'a'
  have ht : 3 < ((initial 10).perform (.build (.symbol 'a'))).numTerms := by decide
  exact ⟨hw, ht, (hw.language_derivatives ht 'a' []).1.2⟩

/--
Whatever an operation simplifies, it issues a term with the language that it promises, and the
terms that were issued before keep their languages.
-/
theorem Reachable.language_operation (hw : w.Reachable) {op : Operation}
    (hargs : ∀ t ∈ op.args, t < w.numTerms) (hop : op.InOrder) :
    ∃ t w', w.build op.apply = (.ok t, w') ∧ t < w'.numTerms ∧
      w'.store.language t = op.language w.store.language ∧
      ∀ u < w.numTerms, w'.store.language u = w.store.language u := by
  have hs := hw.sound.wellFormed
  obtain ⟨store, derivatives, maxStates⟩ := w
  obtain ⟨r, hr, h⟩ := Operation.builds_apply hs hargs hop
  refine ⟨r.1, ⟨r.2, derivatives, maxStates⟩, ?_, h.grows.lt_size, ?_, ?_⟩
  · simp only [build]
    rw [hr]
  · show r.2.language r.1 = op.language store.language
    rw [← Store.language_tree, h.tree_eq, Operation.language_tree hop]
    simp only [Store.language_tree]
  · intro u hu
    exact h.grows.ext.language_eq hu

theorem language_operation_repeated :
    let w := (initial 10).perform (.build (.symbol 'a'))
    w.Reachable ∧ 3 < w.numTerms ∧
      ∃ t w', w.build (Operation.repeated 3 1 2).apply = (.ok t, w') ∧
        w'.store.language t = (Operation.repeated 3 1 2).language w.store.language := by
  have hw := reachable_symbol 10 'a'
  have ht : ∀ t ∈ (Operation.repeated 3 1 2).args,
      t < ((initial 10).perform (.build (.symbol 'a'))).numTerms := by decide
  obtain ⟨t, w', h, _, hlanguage, _⟩ := hw.language_operation ht (show 1 ≤ 2 by decide)
  exact ⟨hw, ht 3 (List.mem_singleton_self 3), t, w', h, hlanguage⟩

section Compile

/--
An automaton that is faithful, state by state, to the term `e` of `w`. The derivatives of its terms
are known in `w'`, the workspace that came with the automaton.
-/
structure Faithful (w w' : Workspace) (e : TermId) (a : Alphabet) (auto : Automaton) : Prop where
  alphabet_eq : auto.alphabet = a
  root : auto.term? Automaton.initial = some e
  total : ∀ i < auto.numStates, ∀ k < a.size, ∃ j < auto.numStates, auto.successor? i k = some j
  exists_term : ∀ i < auto.numStates, ∃ t < w'.numTerms, auto.term? i = some t
  distinct : ∀ i j t, auto.term? i = some t → auto.term? j = some t → i = j
  accepting : ∀ i t, auto.term? i = some t → auto.accepting i = w'.store.nullable t
  successor : ∀ i t k c, auto.term? i = some t → a.symbol? k = some c →
    ∃ j d, auto.successor? i k = some j ∧ auto.term? j = some d ∧ w'.derivative t c = (d, w')
  run : ∀ i t word, auto.term? i = some t → (∀ c ∈ word, c ∈ a) →
    ∃ j u, auto.run i word = .ok j ∧ auto.term? j = some u ∧ w'.wordDerivative t word = (u, w')
  accepts : ∀ word, (∀ c ∈ word, c ∈ a) →
    ∃ b, auto.accepts word = .ok b ∧ (b = true ↔ word ∈ w.store.language e)
  outside : ∀ front c rest, (∀ d ∈ front, d ∈ a) → c ∉ a →
    auto.accepts (front ++ c :: rest) = .error (.symbolOutside c)

theorem Represents.faithful {w' : Workspace} {e : TermId} {a : Alphabet} {auto : Automaton}
    (h : w'.Represents e a auto) (hw : w.Learns w') (he : e < w.numTerms) :
    w.Faithful w' e a auto where
  alphabet_eq := h.alphabet_eq
  root := h.root
  total := by
    intro i hi k hk
    obtain ⟨t, ht⟩ := h.exists_term i hi
    obtain ⟨j, d, hj, hd, _⟩ := h.successor i t k _ ht (Array.getElem?_eq_getElem hk)
    exact ⟨j, Automaton.lt_numStates_of_term? hd, hj⟩
  exists_term := by
    intro i hi
    obtain ⟨t, ht⟩ := h.exists_term i hi
    exact ⟨t, h.lt_numTerms i t ht, ht⟩
  distinct := h.term?_inj
  accepting := h.accepting_eq
  successor := by
    intro i t k c ht hc
    obtain ⟨j, d, hj, hd, hknown⟩ := h.successor i t k c ht hc
    exact ⟨j, d, hj, hd, derivative_of_known hknown⟩
  run := by
    intro i t word ht hword
    exact h.run ht hword
  accepts := by
    intro word hword
    rw [← hw.ext.language_eq he]
    exact h.accepts hw.sound hword
  outside := by
    intro front c rest hfront hc
    rw [← h.alphabet_eq] at hfront hc
    rw [Automaton.accepts, Automaton.run_of_not_mem hfront hc]
    rfl

theorem Reachable.compile_faithful (hw : w.Reachable) {e : TermId} (he : e < w.numTerms)
    (a : Alphabet) :
    let r := (w.compile e a).value
    (∀ i, r.1 ≠ .error (.missingTransition i)) ∧
      ∀ auto, r.1 = .ok auto → w.Faithful r.2 e a auto := by
  have h := compiles_compile hw.sound he a
  generalize (w.compile e a).value = r at h
  cases h with
  | outside _ _ | overflow _ =>
    constructor
    · intro i hi
      cases hi
    · intro auto hauto
      cases hauto
  | done learns represents =>
    constructor
    · intro i hi
      cases hi
    · intro auto hauto
      cases hauto
      exact represents.faithful learns he

theorem compile_faithful_symbol :
    let w := (initial 10).perform (.build (.symbol 'a'))
    let r := (w.compile 3 (.ofList ['a'])).value
    w.Reachable ∧ 3 < w.numTerms ∧
      ∃ auto, r.1 = .ok auto ∧ w.Faithful r.2 3 (.ofList ['a']) auto := by
  have hw := reachable_symbol 10 'a'
  have ht : 3 < ((initial 10).perform (.build (.symbol 'a'))).numTerms := by decide
  have hfaithful := (hw.compile_faithful ht (.ofList ['a'])).2
  refine ⟨hw, ht, ?_⟩
  cases h : (((initial 10).perform (.build (.symbol 'a'))).compile 3 (.ofList ['a'])).value.1 with
  | ok auto => exact ⟨auto, rfl, hfaithful auto h⟩
  | error e =>
    have hok : (((initial 10).perform (.build (.symbol 'a'))).compile 3
        (.ofList ['a'])).value.1.toBool = true := by decide +kernel
    rw [h] at hok
    contradiction

end Compile

end Workspace

end Residual
