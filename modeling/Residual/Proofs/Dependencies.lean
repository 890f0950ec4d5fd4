import Residual.Proofs.Invariant

/-!
This module contains the derivatives that are needed for a derivative. These are the ones that become
known with it, so what a workspace knows is closed under dependencies.
-/

namespace Residual

open Std

namespace Store

variable {s s' : Store} {t u : TermId}

/-- Whether the derivative of `u` is needed for that of `t`: at once, along the way or as itself. -/
def Needs (s : Store) : TermId → TermId → Prop :=
  Relation.ReflTransGen fun t u => u ∈ s.dependencies t

theorem needs_iff : s.Needs t u ↔ u = t ∨ ∃ v ∈ s.dependencies t, s.Needs v u := by
  rw [Needs, Relation.ReflTransGen.cases_head_iff, eq_comm]

theorem Needs.le (h : s.Needs t u) : u ≤ t := by
  induction h with
  | refl => exact Nat.le_refl t
  | tail _ hu ih => exact Nat.le_trans (Nat.le_of_lt (lt_of_mem_dependencies hu)) ih

theorem Extends.needs_iff (h : s.Extends s') (ht : t < s.size) :
    s'.Needs t u ↔ s.Needs t u := by
  induction t using Nat.strongRecOn with
  | ind t ih =>
    rw [Store.needs_iff, Store.needs_iff (s := s), h.dependencies_eq ht]
    apply or_congr_right
    apply exists_congr
    intro v
    apply and_congr_right
    intro hv
    have hlt := lt_of_mem_dependencies hv
    exact ih v hlt (Nat.lt_trans hlt ht)

end Store

namespace Workspace

variable {w w' : Workspace} {c : Char} {t : TermId} {ts : List TermId} {k : DerivativeKey}

def Closed (w : Workspace) : Prop :=
  ∀ k ∈ w.derivatives, ∀ u ∈ w.store.dependencies k.term,
    (⟨u, k.symbol⟩ : DerivativeKey) ∈ w.derivatives

def Adds (w w' : Workspace) (c : Char) (ts : List TermId) : Prop :=
  ∀ k, k ∈ w'.derivatives ↔
    k ∈ w.derivatives ∨ (k.symbol = c ∧ ∃ t ∈ ts, w.store.Needs t k.term)

theorem Sound.lt_numTerms (hw : w.Sound) (hk : k ∈ w.derivatives) : k.term < w.numTerms := by
  obtain ⟨d, hd⟩ := Option.isSome_iff_exists.1 (TreeMap.mem_iff_isSome_getElem?.1 hk)
  exact (hw.derivatives k d hd).1

theorem mem_combine :
    k ∈ (w.combine c t).derivatives ↔ k = ⟨t, c⟩ ∨ k ∈ w.derivatives := by
  show k ∈ w.derivatives.insert ⟨t, c⟩ _ ↔ _
  rw [TreeMap.mem_insert, LawfulEqOrd.compare_eq_iff_eq, eq_comm]

theorem Closed.mem_of_needs (hw : w.Closed) {u : TermId}
    (ht : (⟨t, c⟩ : DerivativeKey) ∈ w.derivatives) (h : w.store.Needs t u) :
    (⟨u, c⟩ : DerivativeKey) ∈ w.derivatives := by
  induction h with
  | refl => exact ht
  | tail _ hu ih => exact hw _ ih _ hu

theorem Closed.of_adds (hw : w.Closed) (hsound : w.Sound) (hext : w.store.Extends w'.store)
    (hts : ∀ t ∈ ts, t < w.numTerms) (h : w.Adds w' c ts) : w'.Closed := by
  intro k hk u hu
  have hcases := (h k).1 hk
  have hlt : k.term < w.numTerms := by
    rcases hcases with hk | ⟨_, t, ht, hneeds⟩
    · exact hsound.lt_numTerms hk
    · exact Nat.lt_of_le_of_lt hneeds.le (hts t ht)
  rw [hext.dependencies_eq hlt] at hu
  rw [h]
  rcases hcases with hk | ⟨hc, t, ht, hneeds⟩
  · exact Or.inl (hw k hk u hu)
  · exact Or.inr ⟨hc, t, ht, hneeds.tail hu⟩

theorem adds_foldr (hsound : w.Sound) (hw : w.Closed) (hts : ∀ t ∈ ts, t < w.numTerms)
    (hlearn : ∀ t ∈ ts, ∀ w : Workspace, w.Sound → w.Closed → t < w.numTerms →
      w.Adds (w.learn c t) c [t]) :
    w.Adds (ts.foldr (fun t w => w.learn c t) w) c ts := by
  induction ts with
  | nil =>
    intro k
    simp
  | cons t ts ih =>
    have hts' : ∀ t ∈ ts, t < w.numTerms := fun u hu => hts u (List.mem_cons_of_mem t hu)
    have hadds := ih hts' fun u hu => hlearn u (List.mem_cons_of_mem t hu)
    have hlearns := (learns_foldr_learn hsound (c := c) hts').1
    have hclosed := hw.of_adds hsound hlearns.ext hts' hadds
    have ht : t < w.numTerms := hts t List.mem_cons_self
    intro k
    rw [List.foldr_cons,
      hlearn t List.mem_cons_self _ hlearns.sound hclosed (hlearns.ext.lt_size ht) k, hadds k]
    simp only [List.exists_mem_cons_iff, List.mem_singleton, exists_eq_left,
      hlearns.ext.needs_iff ht, and_or_left, or_assoc]
    apply or_congr_right
    apply or_comm

theorem adds_learn (hsound : w.Sound) (hw : w.Closed) (ht : t < w.numTerms) :
    w.Adds (w.learn c t) c [t] := by
  induction t using Nat.strongRecOn generalizing w with
  | ind t ih =>
    intro k
    rw [learn_eq]
    split
    next hknown =>
      have hknown : (⟨t, c⟩ : DerivativeKey) ∈ w.derivatives := hknown
      refine ⟨Or.inl, ?_⟩
      rintro (hk | ⟨rfl, u, hu, hneeds⟩)
      · exact hk
      · rw [List.mem_singleton.1 hu] at hneeds
        exact hw.mem_of_needs hknown hneeds
    · have hdeps : ∀ u ∈ w.store.dependencies t, u < t := fun _ => Store.lt_of_mem_dependencies
      have hadds := adds_foldr hsound hw (fun u hu => Nat.lt_trans (hdeps u hu) ht)
        fun u hu w hsound hw => ih u (hdeps u hu) hsound hw
      rw [mem_combine, hadds k]
      obtain ⟨u, b⟩ := k
      simp only [List.mem_singleton, exists_eq_left, DerivativeKey.mk.injEq,
        Store.needs_iff (t := t)]
      tauto

theorem adds_foldr_learn (hsound : w.Sound) (hw : w.Closed) (hts : ∀ t ∈ ts, t < w.numTerms) :
    w.Adds (ts.foldr (fun t w => w.learn c t) w) c ts :=
  adds_foldr hsound hw hts fun _ _ _ => adds_learn

theorem Closed.learn (hw : w.Closed) (hsound : w.Sound) (ht : t < w.numTerms) (c : Char) :
    (w.learn c t).Closed := by
  have hts : ∀ u ∈ [t], u < w.numTerms := fun u hu => List.mem_singleton.1 hu ▸ ht
  exact hw.of_adds hsound (learns_learn hsound ht).1.ext hts (adds_learn hsound hw ht)

theorem closed_of_isEmpty {s : Store} {maxStates : Nat} : Closed ⟨s, {}, maxStates⟩ := by
  intro k hk
  exact absurd hk TreeMap.not_mem_emptyc

theorem invariant_closed : Invariant Closed where
  initial maxStates := closed_of_isEmpty
  build w op hsound hw hargs := by
    have hext := (grows_build hsound hargs).ext
    rw [build_eq] at hext ⊢
    intro k hk u hu
    rw [hext.dependencies_eq (hsound.lt_numTerms hk)] at hu
    exact hw k hk u hu
  derivative w t c hsound hw ht := hw.learn hsound ht c
  setMaxStates w maxStates hw := hw
  clearDerivatives w hw := closed_of_isEmpty

theorem Reachable.closed (hw : w.Reachable) : w.Closed := invariant_closed.holds hw

end Workspace

end Residual
