import Residual.Proofs.Compilation
import Residual.Proofs.Operation
import Residual.Query

/-!
This module contains sessions: the commands that a workspace accepts and the workspaces that they
lead to. Whatever the commands, the workspace stays sound and no issued term ever changes.
-/

namespace Residual

inductive Command where
  | build (op : Operation)
  | derivative (t : TermId) (c : Char)
  | wordDerivative (t : TermId) (word : List Char)
  | contains (t : TermId) (word : List Char)
  | compile (t : TermId) (a : Alphabet)
  | compileInferred (t : TermId)
  | isEmpty (t : TermId) (a : Alphabet)
  | isFinite (t : TermId) (a : Alphabet)
  | equivalent (t u : TermId) (a : Alphabet)
  | isSubset (t u : TermId) (a : Alphabet)
  | setMaxStates (maxStates : Nat)
  | clearDerivatives

def Command.args : Command → List TermId
  | build op => op.args
  | derivative t _ | wordDerivative t _ | contains t _ => [t]
  | compile t _ | compileInferred t | isEmpty t _ | isFinite t _ => [t]
  | equivalent t u _ | isSubset t u _ => [t, u]
  | setMaxStates _ | clearDerivatives => []

namespace Workspace

def perform (w : Workspace) : Command → Workspace
  | .build op => (w.build op.apply).2
  | .derivative t c => (w.derivative t c).2
  | .wordDerivative t word => (w.wordDerivative t word).2
  | .contains t word => (w.contains t word).2
  | .compile t a => (w.compile t a).value.2
  | .compileInferred t => (w.compileInferred t).value.2
  | .isEmpty t a => (w.isEmpty t a).value.2
  | .isFinite t a => (w.isFinite t a).value.2
  | .equivalent t u a => (w.equivalent t u a).value.2
  | .isSubset t u a => (w.isSubset t u a).value.2
  | .setMaxStates maxStates => w.setMaxStates maxStates
  | .clearDerivatives => w.clearDerivatives.value

/-- A workspace after finitely many commands, each of them about terms that were issued before. -/
inductive Reachable : Workspace → Prop where
  | initial (maxStates : Nat) : Reachable (initial maxStates)
  | perform {w : Workspace} (hw : w.Reachable) (command : Command)
      (hargs : ∀ t ∈ command.args, t < w.numTerms) : Reachable (w.perform command)

structure Grows (w w' : Workspace) : Prop where
  sound : w'.Sound
  ext : w.store.Extends w'.store

variable {w : Workspace}

theorem Learns.grows {w' : Workspace} (h : w.Learns w') : w.Grows w' := ⟨h.sound, h.ext⟩

theorem sound_of_wellFormed {s : Store} (hs : s.WellFormed) (maxStates : Nat) :
    Sound ⟨s, {}, maxStates⟩ where
  wellFormed := hs
  derivatives := by
    intro k d hk
    rw [Std.TreeMap.getElem?_emptyc] at hk
    contradiction
  explained := by
    intro k d hk
    rw [Std.TreeMap.getElem?_emptyc] at hk
    contradiction

theorem build_eq {α : Type} (w : Workspace) (f : Store → α × Store) :
    w.build f = ((f w.store).1, { w with store := (f w.store).2 }) :=
  rfl

theorem grows_build (hw : w.Sound) {op : Operation} (hargs : ∀ t ∈ op.args, t < w.numTerms) :
    w.Grows (w.build op.apply).2 := by
  obtain ⟨store, derivatives, maxStates⟩ := w
  simp only [build]
  by_cases hop : op.InOrder
  · obtain ⟨r, hr, h⟩ := Operation.builds_apply hw.wellFormed hargs hop
    rw [hr]
    exact ⟨hw.of_extends h.wellFormed h.grows.ext maxStates, h.grows.ext⟩
  · obtain ⟨e, he⟩ := Operation.apply_of_not_inOrder hop store
    rw [he]
    exact ⟨hw, .refl store⟩

theorem learns_compareTerms (hw : w.Sound) {t u : TermId} (ht : t < w.numTerms)
    (hu : u < w.numTerms) (a : Alphabet)
    (relation : Automaton → Automaton → Logged (Except Error Bool)) :
    w.Learns (w.compareTerms t u a relation).value.2 := by
  unfold compareTerms
  split
  · exact .refl hw
  · have hleft := learns_compile hw ht
      (a.union ⟨(w.store.symbolsOf t).union (w.store.symbolsOf u)⟩)
    simp only [Logged.value_bind]
    split
    next heq =>
      rw [heq] at hleft
      exact hleft
    next heq =>
      rw [heq] at hleft
      have hright := learns_compile hleft.sound (hleft.ext.lt_size hu)
        (a.union ⟨(w.store.symbolsOf t).union (w.store.symbolsOf u)⟩)
      simp only [Logged.value_bind]
      split
      next heq' =>
        rw [heq'] at hright
        exact hleft.trans hright
      next heq' =>
        rw [heq'] at hright
        exact hleft.trans hright

theorem Sound.grows_perform (hw : w.Sound) {command : Command}
    (hargs : ∀ t ∈ command.args, t < w.numTerms) : w.Grows (w.perform command) := by
  cases command with
  | build op => exact grows_build hw hargs
  | derivative t c =>
    have ht := hargs t (List.mem_singleton_self t)
    exact (derives_derivative hw ht c).learns.grows
  | wordDerivative t word =>
    have ht := hargs t (List.mem_singleton_self t)
    exact (derives_wordDerivative hw ht word).learns.grows
  | contains t word =>
    have ht := hargs t (List.mem_singleton_self t)
    exact (derives_wordDerivative hw ht word).learns.grows
  | compile t a | isEmpty t a | isFinite t a =>
    have ht := hargs t (List.mem_singleton_self t)
    exact (learns_compile hw ht a).grows
  | compileInferred t =>
    have ht := hargs t (List.mem_singleton_self t)
    exact (learns_compile hw ht _).grows
  | equivalent t u a | isSubset t u a =>
    have ht := hargs t (by simp [Command.args])
    have hu := hargs u (by simp [Command.args])
    exact (learns_compareTerms hw ht hu a _).grows
  | setMaxStates maxStates =>
    exact ⟨hw.setMaxStates maxStates, .refl w.store⟩
  | clearDerivatives =>
    exact ⟨sound_of_wellFormed hw.wellFormed w.maxStates, .refl w.store⟩

theorem Reachable.sound (hw : w.Reachable) : w.Sound := by
  induction hw with
  | initial maxStates => exact sound_of_wellFormed Store.wellFormed_initial maxStates
  | perform _ command hargs ih => exact (ih.grows_perform hargs).sound

end Workspace

theorem Workspace.reachable_symbol (maxStates : Nat) (c : Char) :
    ((Workspace.initial maxStates).perform (.build (.symbol c))).Reachable := by
  apply Workspace.Reachable.perform (Workspace.Reachable.initial maxStates)
  simp [Command.args, Operation.args]

structure Session (w : Workspace) where
  state : Nat → Workspace
  state_zero : state 0 = w
  step : ∀ i, ∃ command : Command, (∀ t ∈ command.args, t < (state i).numTerms) ∧
    state (i + 1) = (state i).perform command

namespace Session

variable {w : Workspace}

theorem grows_succ (session : Session w) {i : Nat} (h : (session.state i).Sound) :
    (session.state i).Grows (session.state (i + 1)) := by
  obtain ⟨command, hargs, hstep⟩ := session.step i
  rw [hstep]
  exact h.grows_perform hargs

theorem sound_state (session : Session w) (hw : w.Sound) (i : Nat) : (session.state i).Sound := by
  induction i with
  | zero =>
    rw [session.state_zero]
    exact hw
  | succ i ih => exact (session.grows_succ ih).sound

theorem extends_state (session : Session w) (hw : w.Sound) {i j : Nat} (hij : i ≤ j) :
    (session.state i).store.Extends (session.state j).store := by
  induction j, hij using Nat.le_induction with
  | base => exact .refl _
  | succ j _ ih => exact ih.trans (session.grows_succ (session.sound_state hw j)).ext

theorem grows_state (session : Session w) (hw : w.Sound) (i : Nat) : w.Grows (session.state i) := by
  have hext := session.extends_state hw (Nat.zero_le i)
  rw [session.state_zero] at hext
  exact ⟨session.sound_state hw i, hext⟩

end Session

end Residual
