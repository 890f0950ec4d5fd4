import Mathlib.Data.Set.Card
import Residual.Proofs.Session
import Residual.Proofs.Subterms
import Residual.Proofs.Tree.Finiteness

/-!
This module contains the termination of constructions: a term has finitely many residuals, however
long a session lasts, so every construction that has room for enough of them succeeds.
-/

namespace Residual

def Tree.residuals (T : Tree) (a : Alphabet) : Set Tree :=
  {U | ∃ word, (∀ c ∈ word, c ∈ a) ∧ T.wordDerivative word = U}

namespace Session

open Workspace

variable {w : Workspace}

def residuals (session : Session w) (e : TermId) (a : Alphabet) : Set TermId :=
  {d | ∃ i word, (∀ c ∈ word, c ∈ a) ∧
    (session.state i).wordDerivative e word = (d, session.state (i + 1))}

open Classical in
noncomputable def tree (session : Session w) (t : TermId) : Tree :=
  if h : ∃ i, t < (session.state i).numTerms then (session.state h.choose).store.tree t
  else .emptySet

theorem tree_eq (session : Session w) (hw : w.Sound) {i : Nat} {t : TermId}
    (ht : t < (session.state i).numTerms) : session.tree t = (session.state i).store.tree t := by
  have h : ∃ i, t < (session.state i).numTerms := ⟨i, ht⟩
  rw [tree, dif_pos h]
  -- the tree was read at an earlier or at a later time
  rcases Nat.le_total i h.choose with hle | hle
  · exact (session.extends_state hw hle).tree_eq ht
  · exact ((session.extends_state hw hle).tree_eq h.choose_spec).symm

theorem tree_inj (session : Session w) (hw : w.Sound) {i j : Nat} {t u : TermId}
    (ht : t < (session.state i).numTerms) (hu : u < (session.state j).numTerms)
    (h : session.tree t = session.tree u) : t = u := by
  have ht := (session.extends_state hw (Nat.le_max_left i j)).lt_size ht
  have hu := (session.extends_state hw (Nat.le_max_right i j)).lt_size hu
  rw [session.tree_eq hw ht, session.tree_eq hw hu] at h
  exact (session.sound_state hw (max i j)).wellFormed.tree_inj ht hu h

variable {e d : TermId} {a : Alphabet}

theorem tree_wordDerivative (session : Session w) (hw : w.Sound) (he : e < w.numTerms) {i : Nat}
    {word : List Char} (hd : (session.state i).wordDerivative e word = (d, session.state (i + 1))) :
    d < (session.state (i + 1)).numTerms ∧
      session.tree d = (w.store.tree e).wordDerivative word := by
  have hext := session.extends_state hw (Nat.zero_le i)
  rw [session.state_zero] at hext
  have h := derives_wordDerivative (session.sound_state hw i) (hext.lt_size he) word
  rw [hd, hext.tree_eq he] at h
  refine ⟨h.lt_numTerms, ?_⟩
  rw [session.tree_eq hw h.lt_numTerms]
  exact h.tree_eq

theorem tree_mem_residuals (session : Session w) (hw : w.Sound) (he : e < w.numTerms)
    (hd : d ∈ session.residuals e a) : session.tree d ∈ (w.store.tree e).residuals a := by
  obtain ⟨i, word, hword, hd⟩ := hd
  exact ⟨word, hword, (session.tree_wordDerivative hw he hd).2.symm⟩

theorem injOn_tree (session : Session w) (hw : w.Sound) (he : e < w.numTerms) :
    Set.InjOn session.tree (session.residuals e a) := by
  rintro d ⟨i, word, _, hd⟩ d' ⟨j, word', _, hd'⟩ h
  have hi := (session.tree_wordDerivative hw he hd).1
  have hj := (session.tree_wordDerivative hw he hd').1
  exact session.tree_inj hw hi hj h

end Session

namespace Workspace

variable {w : Workspace} {e : TermId} {a : Alphabet} {F : Finset Tree}

theorem encard_residuals_le (hw : w.Sound) (he : e < w.numTerms)
    (hF : ∀ word, (w.store.tree e).wordDerivative word ∈ F) (session : Session w) :
    (session.residuals e a).encard ≤ F.card := by
  rw [← Set.encard_coe_eq_coe_finsetCard]
  apply Set.encard_le_encard_of_injOn _ (session.injOn_tree hw he)
  intro d hd
  obtain ⟨word, _, htree⟩ := session.tree_mem_residuals hw he hd
  rw [← htree]
  apply hF

theorem length_le_encard_residuals (hw : w.Sound) {T : Tree} {ts : List TermId} (hts : ts.Nodup)
    (h : ∀ t ∈ ts, w.IsResidual T a t) : (ts.length : ℕ∞) ≤ (T.residuals a).encard := by
  have hnodup : (ts.map w.store.tree).Nodup := by
    apply hts.map_on
    intro t ht u hu htree
    exact hw.wellFormed.tree_inj (h t ht).1 (h u hu).1 htree
  rw [← List.length_map w.store.tree, ← List.toFinset_card_of_nodup hnodup,
    ← Set.encard_coe_eq_coe_finsetCard]
  apply Set.encard_le_encard
  intro U hU
  obtain ⟨t, ht, rfl⟩ := List.mem_map.1 (List.mem_toFinset.1 hU)
  obtain ⟨_, word, hword, htree⟩ := h t ht
  exact ⟨word, hword, htree.symm⟩

theorem length_residuals_le (hw : w.Sound) {T : Tree} (hF : ∀ word, T.wordDerivative word ∈ F)
    {ts : List TermId} (hts : ts.Nodup) (h : ∀ t ∈ ts, w.IsResidual T a t) :
    ts.length ≤ F.card := by
  have hsubset : T.residuals a ⊆ F := by
    rintro U ⟨word, _, rfl⟩
    apply hF
  have hle := (length_le_encard_residuals hw hts h).trans (Set.encard_le_encard hsubset)
  rwa [Set.encard_coe_eq_coe_finsetCard, Nat.cast_le] at hle

theorem exists_automaton_of_card_le (hw : w.Sound) (he : e < w.numTerms)
    (hF : ∀ word, (w.store.tree e).wordDerivative word ∈ F)
    (hcovers : ∀ c, w.store.Mentions e c → c ∈ a) (hlimit : F.card ≤ w.maxStates) :
    ∃ auto w', (w.compile e a).value = (.ok auto, w') := by
  have h := compiles_compile hw he a
  generalize (w.compile e a).value = r at h ⊢
  cases h with
  | outside mem not_mem => exact absurd (hcovers _ (Store.mem_symbolsOf_iff.1 mem)) not_mem
  | overflow h =>
    obtain ⟨ts, hts, hlength, hresidual⟩ := h.many
    have hle := length_residuals_le h.learns.sound hF hts hresidual
    omega
  | done _ _ => exact ⟨_, _, rfl⟩

section Results

def results (w : Workspace) (t : TermId) (a : Alphabet) : Set (TermId × Workspace) :=
  {r | ∃ word, (∀ c ∈ word, c ∈ a) ∧ w.wordDerivative t word = r}

open Classical in
noncomputable def unknown (w : Workspace) (F : Finset Tree) (a : Alphabet) : Finset (Tree × Char) :=
  (F ×ˢ a.symbols.toFinset).filter fun p =>
    ∀ t < w.numTerms, w.store.tree t = p.1 → w.derivatives[(⟨t, p.2⟩ : DerivativeKey)]? = none

variable {w' : Workspace} {t : TermId} {c : Char} {T : Tree}

theorem mem_unknown {p : Tree × Char} : p ∈ w.unknown F a ↔ (p.1 ∈ F ∧ p.2 ∈ a) ∧
    ∀ t < w.numTerms, w.store.tree t = p.1 → w.derivatives[(⟨t, p.2⟩ : DerivativeKey)]? = none := by
  rw [unknown, Finset.mem_filter, Finset.mem_product, List.mem_toFinset, Alphabet.mem_symbols]

theorem Learns.unknown_subset (h : w.Learns w') : w'.unknown F a ⊆ w.unknown F a := by
  intro p hp
  rw [mem_unknown] at hp ⊢
  refine ⟨hp.1, ?_⟩
  intro t ht htree
  have hnone := hp.2 t (h.ext.lt_size ht) ((h.ext.tree_eq ht).trans htree)
  cases hknown : w.derivatives[(⟨t, p.2⟩ : DerivativeKey)]? with
  | none => rfl
  | some d =>
    rw [h.known _ d hknown] at hnone
    contradiction

theorem card_unknown_derivative_lt (hw : w.Sound) (ht : t < w.numTerms) (hF : w.store.tree t ∈ F)
    (hc : c ∈ a) (hnone : w.derivatives[(⟨t, c⟩ : DerivativeKey)]? = none) :
    ((w.derivative t c).2.unknown F a).card < (w.unknown F a).card := by
  have hlearns := (derives_derivative hw ht c).learns
  apply Finset.card_lt_card
  refine Finset.ssubset_iff_subset_ne.2 ⟨hlearns.unknown_subset, ?_⟩
  intro heq
  have hmem : (w.store.tree t, c) ∈ w.unknown F a := by
    refine mem_unknown.2 ⟨⟨hF, hc⟩, ?_⟩
    intro u hu htree
    rw [hw.wellFormed.tree_inj hu ht htree]
    exact hnone
  rw [← heq, mem_unknown] at hmem
  have hnone' := hmem.2 t (hlearns.ext.lt_size ht) (hlearns.ext.tree_eq ht)
  rw [known_derivative hw ht c] at hnone'
  contradiction

theorem results_subset (hw : w.Sound) (ht : w.IsResidual T a t) :
    w.results t a ⊆ (·, w) '' {u | u < w.numTerms} ∪
      ⋃ u ∈ {u | u < w.numTerms}, ⋃ c ∈ a.symbols.toFinset,
        ⋃ (_ : w.IsResidual T a u ∧ w.derivatives[(⟨u, c⟩ : DerivativeKey)]? = none),
          (w.derivative u c).2.results (w.derivative u c).1 a := by
  -- by induction on the word: known derivatives stay in `w`, the first unknown one leads out of it
  rintro r ⟨word, hword, rfl⟩
  induction word generalizing t with
  | nil => exact .inl ⟨t, ht.1, rfl⟩
  | cons c word ih =>
    have hc : c ∈ a := hword c List.mem_cons_self
    have hword' : ∀ b ∈ word, b ∈ a := fun b hb => hword b (List.mem_cons_of_mem c hb)
    rw [wordDerivative_cons]
    cases hknown : w.derivatives[(⟨t, c⟩ : DerivativeKey)]? with
    | some d =>
      have hres := ht.derivative hw hc
      rw [derivative_of_known hknown] at hres ⊢
      exact ih hres hword'
    | none =>
      right
      simp only [Set.mem_iUnion]
      exact ⟨t, ht.1, c, List.mem_toFinset.2 (Alphabet.mem_symbols.2 hc), ⟨ht, hknown⟩, word, hword', rfl⟩

theorem finite_results (hw : w.Sound) (hF : ∀ word, T.wordDerivative word ∈ F)
    (ht : w.IsResidual T a t) : (w.results t a).Finite := by
  -- by induction on the number of unknown derivatives
  generalize hn : (w.unknown F a).card = n
  induction n using Nat.strongRecOn generalizing w t with
  | ind n ih =>
    apply Set.Finite.subset _ (results_subset hw ht)
    apply ((Set.finite_lt_nat w.numTerms).image _).union
    apply (Set.finite_lt_nat w.numTerms).biUnion
    intro u _
    apply (Finset.finite_toSet _).biUnion
    intro c hc
    apply Set.finite_iUnion
    rintro ⟨hu, hnone⟩
    have hc : c ∈ a := Alphabet.mem_symbols.1 (List.mem_toFinset.1 hc)
    have htree : w.store.tree u ∈ F := by
      obtain ⟨_, word, _, htree⟩ := hu
      rw [htree]
      apply hF
    have hlt := card_unknown_derivative_lt hw hu.1 htree hc hnone
    rw [hn] at hlt
    exact ih _ hlt (derives_derivative hw hu.1 c).learns.sound (hu.derivative hw hc) rfl

end Results

/--
A term has finitely many derivatives by the words over an alphabet, whether each is computed in `w`
itself or one after the other in a session. There is a bound on those that any session ever sees, and
every limit that is not below it lets the construction of the automaton succeed.
-/
theorem Reachable.finitely_many_residuals (hw : w.Reachable) (he : e < w.numTerms)
    (a : Alphabet) :
    {d | ∃ word, (∀ c ∈ word, c ∈ a) ∧ (w.wordDerivative e word).1 = d}.Finite ∧
    ∃ n : Nat,
      (∀ session : Session w, (session.residuals e a).encard ≤ n) ∧
      ((∀ c, w.store.Mentions e c → c ∈ a) → ∀ limit, n ≤ limit →
        ∃ auto w', ((w.setMaxStates limit).compile e a).value = (.ok auto, w')) := by
  obtain ⟨F, hF⟩ := (w.store.tree e).exists_finset_wordDerivative
  refine ⟨?_, F.card, ?_, ?_⟩
  · have hresults := finite_results hw.sound hF (isResidual_self (a := a) he)
    apply (hresults.image Prod.fst).subset
    rintro d ⟨word, hword, rfl⟩
    exact ⟨w.wordDerivative e word, ⟨word, hword, rfl⟩, rfl⟩
  · intro session
    exact encard_residuals_le hw.sound he hF session
  · intro hcovers limit hlimit
    have hsound : (w.setMaxStates limit).Sound := hw.sound.setMaxStates limit
    exact exists_automaton_of_card_le hsound he hF hcovers hlimit

theorem finitely_many_residuals_symbol :
    let w := (initial 10).perform (.build (.symbol 'a'))
    let a := Alphabet.ofList ['a']
    w.Reachable ∧ 3 < w.numTerms ∧ (∀ c, w.store.Mentions 3 c → c ∈ a) ∧
      {d | ∃ word, (∀ c ∈ word, c ∈ a) ∧ (w.wordDerivative 3 word).1 = d}.Finite ∧
      ∃ n : Nat, (∀ session : Session w, (session.residuals 3 a).encard ≤ n) ∧
        ∀ limit, n ≤ limit → ∃ auto w', ((w.setMaxStates limit).compile 3 a).value = (.ok auto, w') := by
  have hw := reachable_symbol 10 'a'
  have he : 3 < ((initial 10).perform (.build (.symbol 'a'))).numTerms := by decide
  have hexpr : ((initial 10).perform (.build (.symbol 'a'))).store.expr 3 =
    .literal (.singleton 'a') := by decide
  have hcovers : ∀ c, ((initial 10).perform (.build (.symbol 'a'))).store.Mentions 3 c →
      c ∈ Alphabet.ofList ['a'] := by
    rintro c ⟨u, set, hsub, hu, hc⟩
    rcases Relation.ReflTransGen.cases_head hsub with rfl | ⟨v, hv, _⟩
    · obtain rfl := Expr.literal.inj (hexpr.symm.trans hu)
      rw [SymbolSet.mem_singleton] at hc
      subst hc
      exact SymbolSet.mem_ofList.2 (List.mem_singleton_self 'a')
    · rw [hexpr] at hv
      contradiction
  obtain ⟨hfinite, n, hresiduals, hcompile⟩ := hw.finitely_many_residuals he (.ofList ['a'])
  exact ⟨hw, he, hcovers, hfinite, n, hresiduals, hcompile hcovers⟩

end Workspace

end Residual
