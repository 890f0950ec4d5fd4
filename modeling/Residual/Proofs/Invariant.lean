import Residual.Proofs.Lockstep
import Residual.Proofs.Session

/-!
This module contains invariants of workspaces. All commands come down to a few elementary steps, so a
property that these steps preserve holds of every workspace that the commands lead to.
-/

namespace Residual

namespace Workspace

structure Invariant (P : Workspace → Prop) : Prop where
  initial : ∀ maxStates, P (initial maxStates)
  build : ∀ w (op : Operation), w.Sound → P w → (∀ t ∈ op.args, t < w.numTerms) →
    P (w.build op.apply).2
  derivative : ∀ w t c, w.Sound → P w → t < w.numTerms → P (w.derivative t c).2
  setMaxStates : ∀ w maxStates, P w → P (w.setMaxStates maxStates)
  clearDerivatives : ∀ w, P w → P w.clearDerivatives.value

namespace Invariant

variable {P : Workspace → Prop} {w : Workspace} {t u : TermId}

theorem wordDerivative (h : Invariant P) (hsound : w.Sound) (hw : P w) (ht : t < w.numTerms)
    (word : List Char) : P (w.wordDerivative t word).2 := by
  induction word generalizing w t with
  | nil => exact hw
  | cons c word ih =>
    have hderives := derives_derivative hsound ht c
    rw [wordDerivative_cons]
    exact ih hderives.learns.sound (h.derivative w t c hsound hw ht) hderives.lt_numTerms

theorem compile (h : Invariant P) (hsound : w.Sound) (hw : P w) (ht : t < w.numTerms)
    (a : Alphabet) : P (w.compile t a).value.2 := by
  cases hcovers : a.checkCovers (w.store.symbolsOf t) with
  | error e =>
    rw [compile_of_error hcovers]
    exact hw
  | ok _ =>
    have hroom : 0 < max 1 w.maxStates := by omega
    rw [compile_of_covered hcovers hroom, reached_conclude]
    exact (Construction.issued_start hsound ht a hroom).holds_run h.derivative hw

theorem compareTerms (h : Invariant P) (hsound : w.Sound) (hw : P w) (ht : t < w.numTerms)
    (hu : u < w.numTerms) (a : Alphabet)
    (relation : Automaton → Automaton → Logged (Except Error Bool)) :
    P (w.compareTerms t u a relation).value.2 := by
  unfold Workspace.compareTerms
  split
  · exact hw
  · have hlearns := learns_compile hsound ht
      (a.union ⟨(w.store.symbolsOf t).union (w.store.symbolsOf u)⟩)
    have hleft := h.compile hsound hw ht
      (a.union ⟨(w.store.symbolsOf t).union (w.store.symbolsOf u)⟩)
    simp only [Logged.value_bind]
    split
    next heq =>
      rw [heq] at hleft
      exact hleft
    next heq =>
      rw [heq] at hlearns hleft
      have hright := h.compile hlearns.sound hleft (hlearns.ext.lt_size hu)
        (a.union ⟨(w.store.symbolsOf t).union (w.store.symbolsOf u)⟩)
      simp only [Logged.value_bind]
      split
      next heq' =>
        rw [heq'] at hright
        exact hright
      next heq' =>
        rw [heq'] at hright
        exact hright

theorem perform (h : Invariant P) (hsound : w.Sound) (hw : P w) {command : Command}
    (hargs : ∀ t ∈ command.args, t < w.numTerms) : P (w.perform command) := by
  cases command with
  | build op => exact h.build w op hsound hw hargs
  | derivative t c =>
    have ht := hargs t (List.mem_singleton_self t)
    exact h.derivative w t c hsound hw ht
  | wordDerivative t word | contains t word =>
    have ht := hargs t (List.mem_singleton_self t)
    exact h.wordDerivative hsound hw ht word
  | compile t a | compileInferred t | isEmpty t a | isFinite t a =>
    have ht := hargs t (List.mem_singleton_self t)
    exact h.compile hsound hw ht _
  | equivalent t u a | isSubset t u a =>
    have ht := hargs t (by simp [Command.args])
    have hu := hargs u (by simp [Command.args])
    exact h.compareTerms hsound hw ht hu a _
  | setMaxStates maxStates => exact h.setMaxStates w maxStates hw
  | clearDerivatives => exact h.clearDerivatives w hw

theorem holds (h : Invariant P) (hw : w.Reachable) : P w := by
  induction hw with
  | initial maxStates => exact h.initial maxStates
  | perform hw command hargs ih => exact h.perform hw.sound ih hargs

end Invariant

end Workspace

end Residual
