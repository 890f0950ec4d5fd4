import Residual.Log
import Residual.Term.Derivative
import Residual.Term.Subterms

/-!
This module contains workspaces: a store of terms together with the derivatives computed so far and
the limit on the size of automata. Remembering derivatives only saves work.
-/

namespace Residual

open Std

structure DerivativeKey where
  term : TermId
  symbol : Char
deriving DecidableEq

namespace DerivativeKey

instance : Ord DerivativeKey :=
  ⟨compareLex (compareOn term) (compareOn symbol)⟩

instance : TransOrd DerivativeKey :=
  inferInstanceAs <| TransCmp <| compareLex (compareOn term) (compareOn symbol)

instance : LawfulEqOrd DerivativeKey where
  eq_of_compare {k l} h := by
    have h : (compareOn term k l).then (compareOn symbol k l) = .eq := h
    rw [Ordering.then_eq_eq] at h
    cases k
    cases l
    simpa using ⟨LawfulEqOrd.eq_of_compare h.1, LawfulEqOrd.eq_of_compare h.2⟩

end DerivativeKey

structure Workspace where
  store : Store
  derivatives : TreeMap DerivativeKey TermId
  maxStates : Nat

namespace Workspace

def defaultMaxStates : Nat := 100000

def initial (maxStates : Nat) : Workspace := ⟨.initial, {}, maxStates⟩

instance : Inhabited Workspace := ⟨initial defaultMaxStates⟩

def numTerms (w : Workspace) : Nat := w.store.size

def numDerivatives (w : Workspace) : Nat := w.derivatives.size

def setMaxStates (w : Workspace) (maxStates : Nat) : Workspace := { w with maxStates }

def clearDerivatives (w : Workspace) : Logged Workspace := do
  .tell (.cleared w.numDerivatives w.numTerms)
  return { w with derivatives := {} }

def build {α : Type} (w : Workspace) (f : Store → α × Store) : α × Workspace :=
  match w with
  | ⟨store, derivatives, maxStates⟩ =>
    let (x, store) := f store
    (x, ⟨store, derivatives, maxStates⟩)

section Derivatives

def known (w : Workspace) (c : Char) (t : TermId) : TermId :=
  w.derivatives.getD ⟨t, c⟩ Store.empty

def combine (w : Workspace) (c : Char) (t : TermId) : Workspace :=
  match w with
  | ⟨store, derivatives, maxStates⟩ =>
    let (d, store) := store.derive c t fun u => derivatives.getD ⟨u, c⟩ Store.empty
    ⟨store, derivatives.insert ⟨t, c⟩ d, maxStates⟩

/--
Makes a derivative known, after the derivatives that it depends on, of which the rightmost comes
first.
-/
def learn (w : Workspace) (c : Char) (t : TermId) : Workspace :=
  if w.derivatives.contains ⟨t, c⟩ then w
  else
    let deps := w.store.dependencies t
    let w := deps.attach.foldr (fun ⟨u, hu⟩ w =>
      have : u < t := Store.lt_of_mem_dependencies hu
      w.learn c u) w
    w.combine c t
termination_by t

def derivative (w : Workspace) (t : TermId) (c : Char) : TermId × Workspace :=
  let w := w.learn c t
  (w.known c t, w)

def wordDerivative (w : Workspace) (t : TermId) (word : List Char) : TermId × Workspace :=
  word.foldl (fun r c => r.2.derivative r.1 c) (t, w)

def contains (w : Workspace) (t : TermId) (word : List Char) : Bool × Workspace :=
  let (d, w) := w.wordDerivative t word
  (w.store.nullable d, w)

end Derivatives

end Workspace

end Residual
