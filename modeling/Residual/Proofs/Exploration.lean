import Residual.Proofs.Builder
import Residual.Proofs.Derivatives

/-!
This module contains the invariant of a builder that explores the residuals of a term: what its
drafts say about a term is what the workspace has learned.
-/

namespace Residual

open Std

namespace Workspace

def IsResidual (w : Workspace) (T : Tree) (a : Alphabet) (t : TermId) : Prop :=
  t < w.numTerms ∧ ∃ word : List Char, (∀ c ∈ word, c ∈ a) ∧ w.store.tree t = T.wordDerivative word

variable {w w' : Workspace} {T : Tree} {a : Alphabet} {t : TermId}

theorem IsResidual.mono (h : w.IsResidual T a t) (hw : w.Learns w') : w'.IsResidual T a t := by
  obtain ⟨hlt, word, hword, htree⟩ := h
  refine ⟨hw.ext.lt_size hlt, word, hword, ?_⟩
  rw [hw.ext.tree_eq hlt]
  exact htree

theorem isResidual_self (ht : t < w.numTerms) : w.IsResidual (w.store.tree t) a t :=
  ⟨ht, [], by simp, rfl⟩

theorem IsResidual.derivative (hw : w.Sound) (h : w.IsResidual T a t) {c : Char} (hc : c ∈ a) :
    (w.derivative t c).2.IsResidual T a (w.derivative t c).1 := by
  obtain ⟨hlt, word, hword, htree⟩ := h
  have hd := derives_derivative hw hlt c
  refine ⟨hd.lt_numTerms, word ++ [c], ?_, ?_⟩
  · intro b hb
    rcases List.mem_append.1 hb with hb | hb
    · exact hword b hb
    · rw [List.mem_singleton.1 hb]
      exact hc
  · rw [hd.tree_eq, htree, Tree.wordDerivative, Tree.wordDerivative, List.foldl_append]
    rfl

end Workspace

inductive Draft.Describes (w : Workspace) (keys : Numbering TermId) (a : Alphabet) (t : TermId)
    (d : Draft) : Option Nat → Prop where
  | unexplored (h : d.accepting = false) : d.Describes w keys a t none
  | explored {n : Nat} (accepting : d.accepting = w.store.nullable t)
      (next : ∀ k < n, ∀ c, a.symbol? k = some c → ∃ j u, d.next[k]? = some (some j) ∧
        keys.get? j = some u ∧ w.derivatives[(⟨t, c⟩ : DerivativeKey)]? = some u) :
      d.Describes w keys a t (some n)

theorem Draft.Describes.mono {w w' : Workspace} {keys keys' : Numbering TermId} {a : Alphabet}
    {t : TermId} {d : Draft} {n : Option Nat} (h : d.Describes w keys a t n) (hw : w.Learns w')
    (hkeys : ∀ i u, keys.get? i = some u → keys'.get? i = some u) (ht : t < w.numTerms) :
    d.Describes w' keys' a t n := by
  cases h with
  | unexplored h => exact .unexplored h
  | explored accepting next =>
    apply Draft.Describes.explored
    · rw [hw.ext.nullable_eq ht]
      exact accepting
    · intro k hk c hc
      obtain ⟨j, u, hj, hu, hd⟩ := next k hk c hc
      exact ⟨j, u, hj, hkeys j u hu, hw.known _ u hd⟩

theorem Draft.Describes.setNext {w : Workspace} {keys : Numbering TermId} {a : Alphabet}
    {t u : TermId} {d : Draft} {k : Nat} {c : Char} {j : StateId}
    (h : d.Describes w keys a t (some k)) (hsize : d.next.size = a.size)
    (hc : a.symbol? k = some c) (hj : keys.get? j = some u)
    (hu : w.derivatives[(⟨t, c⟩ : DerivativeKey)]? = some u) :
    Describes w keys a t { d with next := d.next.setIfInBounds k (some j) } (some (k + 1)) := by
  have hk : k < d.next.size := by
    rw [hsize]
    exact (Array.getElem?_eq_some_iff.1 hc).1
  cases h with
  | explored accepting next =>
    refine .explored accepting ?_
    intro k' hk' c' hc'
    rw [Array.getElem?_setIfInBounds]
    split
    next heq =>
      subst heq
      obtain rfl := Option.some.inj (hc.symm.trans hc')
      exact ⟨j, u, rfl, hj, hu⟩
    next hne =>
      apply next k' _ c' hc'
      omega

namespace Builder

def stage (a : Alphabet) (m : Nat) (current : Option Nat) (i : StateId) : Option Nat :=
  if i < m then some a.size else if i = m then current else none

section Stage

variable {a : Alphabet} {m i : Nat} {current : Option Nat}

theorem stage_self : stage a m current m = current := by
  rw [stage, if_neg (Nat.lt_irrefl m), if_pos rfl]

theorem stage_of_ne {current' : Option Nat} (h : m ≠ i) :
    stage a m current i = stage a m current' i := by
  unfold stage
  rw [if_neg h.symm, if_neg h.symm]

theorem stage_of_lt (h : m < i) : stage a m current i = none := by
  rw [stage, if_neg (Nat.lt_asymm h), if_neg (Nat.ne_of_gt h)]

theorem stage_succ (a : Alphabet) (m i : Nat) :
    stage a (m + 1) none i = stage a m (some a.size) i := by
  rcases Nat.lt_trichotomy i m with h | rfl | h
  · rw [stage, stage, if_pos h, if_pos (Nat.lt_succ_of_lt h)]
  · rw [stage_self, stage, if_pos (Nat.lt_succ_self i)]
  · rw [stage_of_lt h]
    unfold stage
    rw [if_neg (Nat.not_lt_of_le h), ite_self]

end Stage

/--
A builder at work on the term `e` of `w` over `a` while the workspace has become `w'`. The states
below `m` are finished, and `current` tells how far state `m` is explored.
-/
structure Explores (b : Builder TermId) (w w' : Workspace) (e : TermId) (a : Alphabet) (m : Nat)
    (current : Option Nat) : Prop where
  learns : w.Learns w'
  residual : ∀ t ∈ b.keys, w'.IsResidual (w.store.tree e) a t
  root : b.keys.get? 0 = some e
  alphabet_eq : b.alphabet = a
  describes : ∀ i t d, b.keys.get? i = some t → b.drafts[i]? = some d →
    d.Describes w' b.keys a t (stage a m current i)

variable {b : Builder TermId} {w w' : Workspace} {e t : TermId} {a : Alphabet} {m : Nat}

theorem explores_start (hw : w.Sound) (he : e < w.numTerms) :
    (start e a).Explores w w e a 0 none where
  learns := .refl hw
  residual := by
    intro t ht
    rw [Array.mem_singleton.1 ht]
    exact Workspace.isResidual_self he
  root := rfl
  alphabet_eq := rfl
  describes := by
    intro i t d _ hd
    have hblank : d = .blank a.size := by
      obtain ⟨_, rfl⟩ := Array.getElem?_eq_some_iff.1 hd
      apply Array.mem_singleton.1
      apply Array.getElem_mem
    have hstage : stage a 0 none i = none := by
      rw [stage, if_neg (Nat.not_lt_zero i), ite_self]
    rw [hstage, hblank]
    exact .unexplored rfl

theorem Explores.succ (h : b.Explores w w' e a m (some a.size)) :
    b.Explores w w' e a (m + 1) none where
  __ := h
  describes := by
    intro i t d ht hd
    rw [stage_succ]
    exact h.describes i t d ht hd

theorem Explores.mark (h : b.Explores w w' e a m none) (ht : b.keys.get? m = some t) :
    (if w'.store.nullable t then b.markFinal t else b).Explores w w' e a m (some 0) := by
  have hexplored : ∀ d : Draft, d.accepting = w'.store.nullable t →
      d.Describes w' b.keys a t (some 0) := by
    intro d hd
    apply Draft.Describes.explored hd
    intro k hk
    exact absurd hk (Nat.not_lt_zero k)
  cases hnull : w'.store.nullable t with
  | false =>
    -- the draft stays as it is, and a draft that is not accepting is right about `t`
    refine { h with describes := ?_ }
    intro i u d hu hd
    have hdesc := h.describes i u d hu hd
    by_cases him : m = i
    · subst him
      obtain rfl := Option.some.inj (ht.symm.trans hu)
      rw [stage_self] at hdesc ⊢
      cases hdesc with
      | unexplored hacc =>
        apply hexplored
        rw [hnull, hacc]
    · rw [stage_of_ne him]
      exact hdesc
  | true =>
    rw [if_pos rfl]
    have hkeys := keys_markFinal ht
    refine ⟨h.learns, ?_, ?_, ?_, ?_⟩
    · rw [hkeys]
      exact h.residual
    · rw [hkeys]
      exact h.root
    · rw [alphabet_markFinal]
      exact h.alphabet_eq
    · intro i u d hu hd
      rw [hkeys] at hu ⊢
      rw [getElem?_drafts_markFinal ht] at hd
      split at hd
      next him =>
        subst him
        obtain rfl := Option.some.inj (ht.symm.trans hu)
        rw [stage_self]
        obtain ⟨d', _, rfl⟩ := Option.map_eq_some_iff.1 hd
        apply hexplored
        exact hnull.symm
      next him =>
        rw [stage_of_ne him]
        exact h.describes i u d hu hd

theorem Explores.connect {k : Nat} (h : b.Explores w w' e a m (some k))
    (ht : b.keys.get? m = some t) {c : Char} (hc : a.symbol? k = some c) :
    (b.connect t k (w'.derivative t c).1).Explores w (w'.derivative t c).2 e a m
      (some (k + 1)) := by
  have hres := h.residual t (Numbering.mem_of_get? ht)
  have hd := Workspace.derives_derivative h.learns.sound hres.1 c
  have hknown := Workspace.known_derivative h.learns.sound hres.1 c
  have hres' := hres.derivative h.learns.sound (Array.mem_of_getElem? hc)
  generalize w'.derivative t c = r at hd hknown hres'
  obtain ⟨d, w''⟩ := r
  have hkeys := keys_connect ht k d
  have hkeep : ∀ i u, b.keys.get? i = some u → (b.connect t k d).keys.get? i = some u := by
    intro i u hu
    rw [hkeys]
    exact Numbering.get?_number_of_get? hu
  refine ⟨h.learns.trans hd.learns, ?_, hkeep 0 e h.root, ?_, ?_⟩
  · intro u hu
    rw [hkeys, Numbering.mem_number] at hu
    rcases hu with hu | rfl
    · exact (h.residual u hu).mono hd.learns
    · exact hres'
  · rw [alphabet_connect]
    exact h.alphabet_eq
  · intro i u draft hu hdraft
    obtain ⟨old, hold⟩ := exists_draft ht
    rw [getElem?_drafts_connect ht] at hdraft
    split at hdraft
    next him =>
      -- the draft of the current state has one successor more
      subst him
      obtain rfl := Option.some.inj ((hkeep m t ht).symm.trans hu)
      rw [getElem?_drafts_mention_of_some hold] at hdraft
      obtain rfl := Option.some.inj hdraft
      have hdesc := h.describes m t old ht hold
      rw [stage_self] at hdesc ⊢
      apply (hdesc.mono hd.learns hkeep hres.1).setNext _ hc _ hknown
      · rw [← h.alphabet_eq]
        exact (b.fits old (Array.mem_of_getElem? hold)).size_next
      · rw [hkeys]
        apply Numbering.get?_number_self
    next him =>
      rcases getElem?_drafts_mention b d hdraft with hdraft | ⟨hnone, rfl⟩
      · obtain ⟨v, hv⟩ := exists_key hdraft
        obtain rfl := Option.some.inj ((hkeep i v hv).symm.trans hu)
        rw [stage_of_ne him]
        apply (h.describes i v draft hv hdraft).mono hd.learns hkeep
        exact (h.residual v (Numbering.mem_of_get? hv)).1
      · -- a state met by this transition is beyond the current one
        have hlt : m < i := by
          have hm := (Array.getElem?_eq_some_iff.1 hold).1
          have hi := Array.getElem?_eq_none_iff.1 hnone
          omega
        rw [stage_of_lt hlt]
        exact .unexplored rfl

end Builder

end Residual
