import Residual.Proofs.Invariant
import Residual.Proofs.NormalForm.Build

/-!
This module contains the main result on normal forms: whatever a session does, every stored term is
in normal form, the terms that only occur within a construction or a derivative included.
-/

namespace Residual

open Std

namespace Workspace

structure Normal (w : Workspace) : Prop where
  store : w.store.Normal
  issued : ∀ (k : DerivativeKey) (d : TermId), w.derivatives[k]? = some d → d < w.numTerms

variable {w : Workspace}

theorem Normal.of_extends (hw : w.Normal) {s : Store} (hs : s.Normal) (h : w.store.Extends s)
    (maxStates : Nat) : Normal ⟨s, w.derivatives, maxStates⟩ where
  store := hs
  issued k d hk := h.lt_size (hw.issued k d hk)

theorem Normal.known_lt (hw : w.Normal) (c : Char) (t : TermId) : w.known c t < w.numTerms := by
  rw [known, TreeMap.getD_eq_getD_getElem?]
  cases hk : w.derivatives[(⟨t, c⟩ : DerivativeKey)]? with
  | none => exact w.store.empty_lt_size
  | some d => exact hw.issued _ d hk

theorem Normal.combine (hw : w.Normal) (c : Char) (t : TermId) : (w.combine c t).Normal := by
  have hkeeps := Store.keeps_derive hw.store c t (hw.known_lt c)
  obtain ⟨store, derivatives, maxStates⟩ := w
  simp only [Workspace.combine]
  generalize hr : store.derive c t (fun u => derivatives.getD ⟨u, c⟩ Store.empty) = r
  replace hkeeps : store.Keeps r := hr ▸ hkeeps
  refine ⟨hkeeps.normal, ?_⟩
  intro k d hk
  rw [TreeMap.getElem?_insert] at hk
  split at hk
  · cases hk
    exact hkeeps.grows.lt_size
  · exact hkeeps.grows.ext.lt_size (hw.issued k d hk)

theorem Normal.learn (hw : w.Normal) (c : Char) (t : TermId) : (w.learn c t).Normal := by
  induction t using Nat.strongRecOn generalizing w with
  | ind t ih =>
    rw [Workspace.learn]
    split
    · exact hw
    · -- the dependencies are smaller than the term, whatever the others have added meanwhile
      apply Normal.combine
      generalize (w.store.dependencies t).attach = deps
      induction deps with
      | nil => exact hw
      | cons u deps ihdeps => exact ih u.val (Store.lt_of_mem_dependencies u.property) ihdeps

theorem Normal.build (hw : w.Normal) {op : Operation} (hargs : ∀ t ∈ op.args, t < w.numTerms) :
    (w.build op.apply).2.Normal := by
  obtain ⟨hext, hnormal⟩ := Operation.keeps_apply hw.store hargs
  exact hw.of_extends hnormal hext w.maxStates

theorem invariant_normal : Invariant Normal where
  initial maxStates := by
    refine ⟨Store.normal_initial, ?_⟩
    intro k d hk
    rw [initial, TreeMap.getElem?_emptyc] at hk
    contradiction
  build w op _ hw hargs := hw.build hargs
  derivative w t c _ hw _ := hw.learn c t
  setMaxStates w maxStates hw := ⟨hw.store, hw.issued⟩
  clearDerivatives w hw := by
    refine ⟨hw.store, ?_⟩
    intro k d hk
    rw [clearDerivatives, Logged.value_bind, Logged.value_pure, TreeMap.getElem?_emptyc] at hk
    contradiction

/--
Every stored term is in normal form, whatever was done before: also one that a derivative or a
construction needed only on its way, and one that was made before a construction was given up.
-/
theorem Reachable.stored_normal (hw : w.Reachable) :
    ∀ t < w.numTerms, (w.store.expr t).Normal w.store := by
  intro t _
  exact (invariant_normal.holds hw).store t

theorem stored_normal_union :
    let w := (((initial 5).perform (.build (.symbol 'a'))).perform (.build (.star 3))).perform
      (.build (.union 3 4))
    w.Reachable ∧ w.store.expr 5 = .union [3, 4] ∧ w.store.Simplified [3, 4] := by
  have hsymbol := reachable_symbol 5 'a'
  have hstar := hsymbol.perform (.build (.star 3)) (by decide +kernel)
  have hunion := hstar.perform (.build (.union 3 4)) (by decide +kernel)
  have hsize : 5 < ((((initial 5).perform (.build (.symbol 'a'))).perform
    (.build (.star 3))).perform (.build (.union 3 4))).numTerms := by decide +kernel
  have hexpr : ((((initial 5).perform (.build (.symbol 'a'))).perform
    (.build (.star 3))).perform (.build (.union 3 4))).store.expr 5 = .union [3, 4] := by
    decide +kernel
  have hnormal := hunion.stored_normal 5 hsize
  rw [hexpr] at hnormal
  exact ⟨hunion, hexpr, hnormal.1⟩

end Workspace

end Residual
