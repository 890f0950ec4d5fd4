import Mathlib.Data.Char
import Residual.Proofs.Automaton.LengthBound
import Residual.Proofs.Automaton.Product
import Residual.Proofs.Session
import Residual.Proofs.Subterms

/-!
This module contains the answers to questions about terms: they are the answers to the same questions
about languages, as far as the words over the alphabet go.
-/

namespace Residual

namespace Alphabet

theorem exists_isLeast_missing {a : Alphabet} {s : SymbolSet} (h : ¬∀ c ∈ s, c ∈ a) :
    ∃ c, IsLeast {c | c ∈ s ∧ c ∉ a} c ∧ a.checkCovers s = .error (.symbolOutside c) := by
  unfold checkCovers
  split
  next c hc =>
    obtain ⟨hout, before, after, hlist, hbefore⟩ := List.find?_eq_some_iff_append.1 hc
    have hincreasing : Increasing (before ++ c :: after) := hlist ▸ s.increasing
    refine ⟨c, ⟨⟨?_, ?_⟩, ?_⟩, rfl⟩
    · rw [← SymbolSet.mem_toList, hlist]
      simp
    · rwa [Bool.not_eq_true', ← Bool.not_eq_true, contains_iff] at hout
    · rintro d ⟨hd, hmissing⟩
      rw [← SymbolSet.mem_toList, hlist, List.mem_append, List.mem_cons] at hd
      rcases hd with hd | rfl | hd
      · have hin := hbefore d hd
        rw [Bool.not_not, contains_iff] at hin
        contradiction
      · exact Nat.le_refl _
      · have hlt := (List.pairwise_cons.1 (List.pairwise_append.1 hincreasing).2.1).1 d hd
        exact le_of_lt (compare_lt_iff_lt.1 hlt)
  next hnone =>
    refine absurd ?_ h
    intro c hc
    have hin := List.find?_eq_none.1 hnone c (SymbolSet.mem_toList.2 hc)
    rwa [Bool.not_eq_true, Bool.not_eq_false', contains_iff] at hin

end Alphabet

namespace Workspace

variable {w : Workspace} {t u : TermId} {a : Alphabet}

section Covers

theorem checkCovers_eq_ok_iff {s : SymbolSet} : a.checkCovers s = .ok () ↔ ∀ c ∈ s, c ∈ a := by
  constructor
  · intro h
    by_contra hmissing
    obtain ⟨c, _, hc⟩ := Alphabet.exists_isLeast_missing hmissing
    rw [h] at hc
    contradiction
  · intro h
    rcases checkCovers_cases a s with hcovers | ⟨c, _, hmem, hout⟩
    · exact hcovers
    · exact absurd (h c hmem) hout

theorem checkCovers_eq_error_iff {s : SymbolSet} {c : Char} :
    a.checkCovers s = .error (.symbolOutside c) ↔ IsLeast {c | c ∈ s ∧ c ∉ a} c := by
  constructor
  · intro h
    have hmissing : ¬∀ c ∈ s, c ∈ a := by
      intro hcovers
      rw [checkCovers_eq_ok_iff.2 hcovers] at h
      contradiction
    obtain ⟨d, hleast, hd⟩ := Alphabet.exists_isLeast_missing hmissing
    cases h.symm.trans hd
    exact hleast
  · intro hleast
    obtain ⟨d, hd, hcovers⟩ :=
      Alphabet.exists_isLeast_missing fun h => hleast.1.2 (h c hleast.1.1)
    rw [hcovers, hd.unique hleast]

end Covers

section Compile

theorem compile_of_covers (hw : w.Sound) (ht : t < w.numTerms)
    (hcovers : ∀ c, w.store.Mentions t c → c ∈ a) :
    ∃ r w', (w.compile t a).value = (r, w') ∧ w.Learns w' ∧
      (r = .error (.tooManyStates w.maxStates) ∨ ∃ auto, r = .ok auto ∧ w'.Represents t a auto) := by
  have h := compiles_compile hw ht a
  generalize (w.compile t a).value = r at h
  cases h with
  | outside mem not_mem => exact absurd (hcovers _ (Store.mem_symbolsOf_iff.1 mem)) not_mem
  | overflow h => exact ⟨_, _, rfl, h.learns, Or.inl rfl⟩
  | done learns represents => exact ⟨_, _, rfl, learns, Or.inr ⟨_, rfl, represents⟩⟩

theorem Represents.mem_language_iff {auto : Automaton} (h : w.Represents t a auto) (hw : w.Sound)
    {word : List Char} :
    word ∈ auto.language ↔ (∀ c ∈ word, c ∈ a) ∧ word ∈ w.store.language t := by
  constructor
  · intro hword
    have hover := Automaton.mem_alphabet_of_mem_languageFrom hword
    rw [h.alphabet_eq] at hover
    obtain ⟨b, hb, hiff⟩ := h.accepts hw hover
    rw [← Automaton.accepts_eq_ok_true_iff, hb] at hword
    exact ⟨hover, hiff.1 (Except.ok.inj hword)⟩
  · rintro ⟨hover, hword⟩
    obtain ⟨b, hb, hiff⟩ := h.accepts hw hover
    rw [← Automaton.accepts_eq_ok_true_iff, hb, hiff.2 hword]

end Compile

/-- Whether a question is answered by `p`, unless an automaton would need more than `limit` states. -/
def Answers (limit : Nat) (r : Except Error Bool) (p : Prop) : Prop :=
  r = .error (.tooManyStates limit) ∨ ∃ b, r = .ok b ∧ (b = true ↔ p)

theorem Answers.iff_of_ok {limit : Nat} {b : Bool} {p : Prop} (h : Answers limit (.ok b) p) :
    b = true ↔ p := by
  rcases h with h | ⟨_, hb, h⟩
  · contradiction
  · rw [Except.ok.inj hb]
    exact h

section Single

theorem answers_map_compile {f : Automaton → Bool} {p : Prop} (hw : w.Sound) (ht : t < w.numTerms)
    (hcovers : ∀ c, w.store.Mentions t c → c ∈ a)
    (hf : ∀ auto : Automaton, (∀ word, word ∈ auto.language ↔
      (∀ c ∈ word, c ∈ a) ∧ word ∈ w.store.language t) → (f auto = true ↔ p)) :
    Answers w.maxStates ((w.compile t a).value.1.map f) p := by
  obtain ⟨r, w', hr, hlearns, h⟩ := compile_of_covers hw ht hcovers
  rw [hr]
  rcases h with rfl | ⟨auto, rfl, hauto⟩
  · exact Or.inl rfl
  · refine Or.inr ⟨f auto, rfl, hf auto ?_⟩
    intro word
    rw [hauto.mem_language_iff hlearns.sound, hlearns.ext.language_eq ht]

theorem answers_isEmpty (hw : w.Sound) (ht : t < w.numTerms)
    (hcovers : ∀ c, w.store.Mentions t c → c ∈ a) :
    Answers w.maxStates (w.isEmpty t a).value.1
      ({word | (∀ c ∈ word, c ∈ a) ∧ word ∈ w.store.language t} = ∅) := by
  apply answers_map_compile hw ht hcovers
  intro auto hauto
  rw [Automaton.isEmpty_iff, Set.eq_empty_iff_forall_notMem]
  simp only [hauto]
  rfl

theorem answers_isFinite (hw : w.Sound) (ht : t < w.numTerms)
    (hcovers : ∀ c, w.store.Mentions t c → c ∈ a) :
    Answers w.maxStates (w.isFinite t a).value.1
      {word | (∀ c ∈ word, c ∈ a) ∧ word ∈ w.store.language t}.Finite := by
  apply answers_map_compile hw ht hcovers
  intro auto hauto
  rw [Automaton.isFinite_iff]
  simp only [hauto]

end Single

section Pair

theorem mem_jointAlphabet_iff {s : Store} {c : Char} :
    c ∈ a.union ⟨(s.symbolsOf t).union (s.symbolsOf u)⟩ ↔
      c ∈ a ∨ s.Mentions t c ∨ s.Mentions u c := by
  show c ∈ a.set.union _ ↔ _
  rw [SymbolSet.mem_union, SymbolSet.mem_union, Store.mem_symbolsOf_iff, Store.mem_symbolsOf_iff]
  rfl

variable {relation : Automaton → Automaton → Logged (Except Error Bool)} {r : Prop → Prop → Prop}

def Decides (relation : Automaton → Automaton → Logged (Except Error Bool))
    (r : Prop → Prop → Prop) : Prop :=
  ∀ left right : Automaton, left.alphabet = right.alphabet →
    ∃ b, (relation left right).value = .ok b ∧
      (b = true ↔ ∀ word, r (word ∈ left.language) (word ∈ right.language))

theorem compareTerms_self (w : Workspace) (t : TermId) (a : Alphabet) :
    w.compareTerms t t a relation = pure (.ok true, w) := by
  rw [compareTerms, if_pos rfl]

theorem answers_compareTerms (hrelation : Decides relation r) (hrefl : ∀ p, r p p) (hw : w.Sound)
    (ht : t < w.numTerms) (hu : u < w.numTerms) (a : Alphabet) :
    Answers w.maxStates (w.compareTerms t u a relation).value.1
      (∀ word : List Char, (∀ c ∈ word, c ∈ a ∨ w.store.Mentions t c ∨ w.store.Mentions u c) →
        r (word ∈ w.store.language t) (word ∈ w.store.language u)) := by
  by_cases hne : t = u
  · rw [hne, compareTerms_self]
    exact Or.inr ⟨true, rfl, iff_of_true rfl fun _ _ => hrefl _⟩
  have hjoint := fun c => mem_jointAlphabet_iff (a := a) (t := t) (u := u) (s := w.store) (c := c)
  -- what matters about the joint alphabet is which symbols it has
  simp only [compareTerms, if_neg hne, ← hjoint, Logged.value_bind]
  generalize a.union ⟨(w.store.symbolsOf t).union (w.store.symbolsOf u)⟩ = a' at hjoint ⊢
  obtain ⟨left, w₁, hleft, hlearns, h₁⟩ := compile_of_covers hw ht
    fun c hc => (hjoint c).2 (Or.inr (Or.inl hc))
  rw [hleft]
  rcases h₁ with rfl | ⟨left, rfl, h₁⟩
  · exact Or.inl rfl
  have hcovers : ∀ c, w₁.store.Mentions u c → c ∈ a' := by
    intro c hc
    rw [hlearns.ext.mentions_iff hu] at hc
    exact (hjoint c).2 (Or.inr (Or.inr hc))
  obtain ⟨right, w₂, hright, hlearns', h₂⟩ :=
    compile_of_covers hlearns.sound (hlearns.ext.lt_size hu) hcovers
  simp only [Logged.value_bind, hright]
  rcases h₂ with rfl | ⟨right, rfl, h₂⟩
  · rw [hlearns.maxStates_eq]
    exact Or.inl rfl
  obtain ⟨b, hb, hiff⟩ := hrelation left right (h₁.alphabet_eq.trans h₂.alphabet_eq.symm)
  refine Or.inr ⟨b, ?_, hiff.trans (forall_congr' fun word => ?_)⟩
  · simp only [Logged.value_bind, hb]
    rfl
  rw [h₁.mem_language_iff hlearns.sound, h₂.mem_language_iff hlearns'.sound,
    hlearns'.ext.language_eq (hlearns.ext.lt_size hu), hlearns.ext.language_eq hu,
    hlearns.ext.language_eq ht]
  by_cases hword : ∀ c ∈ word, c ∈ a'
  · rw [and_iff_right hword, and_iff_right hword, imp_iff_right hword]
  · -- neither automaton has a word that is not over the alphabet
    simp only [hword, false_and, false_imp_iff, iff_true]
    exact hrefl False

theorem answers_equivalent (hw : w.Sound) (ht : t < w.numTerms) (hu : u < w.numTerms)
    (a : Alphabet) :
    Answers w.maxStates (w.equivalent t u a).value.1
      (∀ word : List Char, (∀ c ∈ word, c ∈ a ∨ w.store.Mentions t c ∨ w.store.Mentions u c) →
        (word ∈ w.store.language t ↔ word ∈ w.store.language u)) := by
  apply answers_compareTerms (r := Iff) _ (fun _ => Iff.rfl) hw ht hu
  intro left right h
  exact Automaton.equivalent_eq_ok h

theorem answers_isSubset (hw : w.Sound) (ht : t < w.numTerms) (hu : u < w.numTerms)
    (a : Alphabet) :
    Answers w.maxStates (w.isSubset t u a).value.1
      (∀ word : List Char, (∀ c ∈ word, c ∈ a ∨ w.store.Mentions t c ∨ w.store.Mentions u c) →
        word ∈ w.store.language t → word ∈ w.store.language u) := by
  apply answers_compareTerms (r := fun p q => p → q) _ (fun _ => id) hw ht hu
  intro left right h
  exact Automaton.isSubsetOf_eq_ok h

end Pair

section Reachable

/--
The questions about terms are answered by their languages, as far as the words over the alphabet go.
Emptiness and finiteness need an alphabet with all symbols of the term and report the least one that
is missing; a comparison adds the symbols of both terms to the alphabet, and no automaton is built
for a term that is compared to itself.
-/
theorem Reachable.queries_decide (hw : w.Reachable) (ht : t < w.numTerms) (hu : u < w.numTerms)
    (a : Alphabet) :
    ((¬∀ c, w.store.Mentions t c → c ∈ a) →
      ∃ c, IsLeast {c | w.store.Mentions t c ∧ c ∉ a} c ∧
        (w.isEmpty t a).value.1 = .error (.symbolOutside c) ∧
        (w.isFinite t a).value.1 = .error (.symbolOutside c)) ∧
    ((∀ c, w.store.Mentions t c → c ∈ a) →
      Answers w.maxStates (w.isEmpty t a).value.1
        ({word | (∀ c ∈ word, c ∈ a) ∧ word ∈ w.store.language t} = ∅) ∧
      Answers w.maxStates (w.isFinite t a).value.1
        {word | (∀ c ∈ word, c ∈ a) ∧ word ∈ w.store.language t}.Finite) ∧
    Answers w.maxStates (w.equivalent t u a).value.1
      (∀ word : List Char, (∀ c ∈ word, c ∈ a ∨ w.store.Mentions t c ∨ w.store.Mentions u c) →
        (word ∈ w.store.language t ↔ word ∈ w.store.language u)) ∧
    Answers w.maxStates (w.isSubset t u a).value.1
      (∀ word : List Char, (∀ c ∈ word, c ∈ a ∨ w.store.Mentions t c ∨ w.store.Mentions u c) →
        word ∈ w.store.language t → word ∈ w.store.language u) ∧
    w.equivalent t t a = pure (.ok true, w) ∧ w.isSubset t t a = pure (.ok true, w) := by
  have hsound := hw.sound
  refine ⟨?_, ?_, ?_, ?_, ?_, ?_⟩
  · intro hmissing
    simp only [← Store.mem_symbolsOf_iff] at hmissing ⊢
    obtain ⟨c, hc, herror⟩ := Alphabet.exists_isLeast_missing hmissing
    refine ⟨c, hc, ?_, ?_⟩
    · rw [isEmpty, compile_of_error herror]
      rfl
    · rw [isFinite, compile_of_error herror]
      rfl
  · intro hcovers
    exact ⟨answers_isEmpty hsound ht hcovers, answers_isFinite hsound ht hcovers⟩
  · exact answers_equivalent hsound ht hu a
  · exact answers_isSubset hsound ht hu a
  · exact compareTerms_self w t a
  · exact compareTerms_self w t a

theorem mentions_symbol (maxStates : Nat) (c : Char) :
    ((initial maxStates).perform (.build (.symbol 'a'))).store.Mentions 3 c ↔ c = 'a' := by
  have hsymbols : ((initial 0).perform (.build (.symbol 'a'))).store.symbolsOf 3 =
      .singleton 'a' := by decide +kernel
  show ((initial 0).perform (.build (.symbol 'a'))).store.Mentions 3 c ↔ c = 'a'
  rw [← Store.mem_symbolsOf_iff, hsymbols, SymbolSet.mem_singleton]

theorem queries_decide_symbol :
    let w := (initial 10).perform (.build (.symbol 'a'))
    let a := Alphabet.ofList ['a']
    w.Reachable ∧ 3 < w.numTerms ∧ Store.empty < w.numTerms ∧
      (w.isEmpty 3 .empty).value.1 = .error (.symbolOutside 'a') ∧
      {word | (∀ c ∈ word, c ∈ a) ∧ word ∈ w.store.language 3} ≠ ∅ ∧
      {word | (∀ c ∈ word, c ∈ a) ∧ word ∈ w.store.language 3}.Finite := by
  have hw := reachable_symbol 10 'a'
  have hempty : (((initial 10).perform (.build (.symbol 'a'))).isEmpty 3
      (.ofList ['a'])).value.1 = .ok false := by decide +kernel
  have hfinite : (((initial 10).perform (.build (.symbol 'a'))).isFinite 3
      (.ofList ['a'])).value.1 = .ok true := by decide +kernel
  have hmentions := mentions_symbol 10
  have ht : 3 < ((initial 10).perform (.build (.symbol 'a'))).numTerms := by decide
  have hu : Store.empty < ((initial 10).perform (.build (.symbol 'a'))).numTerms := by decide
  generalize (initial 10).perform (.build (.symbol 'a')) = w at *
  obtain ⟨c, hc, hmissing, _⟩ := (hw.queries_decide ht hu .empty).1 fun h =>
    SymbolSet.not_mem_empty 'a' (h 'a' ((hmentions 'a').2 rfl))
  obtain ⟨h, h'⟩ := (hw.queries_decide ht hu (.ofList ['a'])).2.1 fun c hc =>
    SymbolSet.mem_ofList.2 (List.mem_singleton.2 ((hmentions c).1 hc))
  rw [hempty] at h
  rw [hfinite] at h'
  refine ⟨hw, ht, hu, ?_, fun hnone => ?_, h'.iff_of_ok.1 rfl⟩
  · rw [hmissing, (hmentions c).1 hc.1.1]
  · exact Bool.false_ne_true (h.iff_of_ok.2 hnone)

end Reachable

end Workspace

end Residual
