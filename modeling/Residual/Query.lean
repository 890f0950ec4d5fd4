import Residual.Automaton.LengthBound
import Residual.Automaton.Product
import Residual.Compilation

/-!
This module contains questions about the languages of terms, answered by means of their automata.
Complement makes the answers depend on an alphabet.
-/

namespace Residual

namespace Workspace

def isEmpty (w : Workspace) (t : TermId) (a : Alphabet) :
    Logged (Except Error Bool × Workspace) := do
  let (r, w) ← w.compile t a
  return (r.map Automaton.isEmpty, w)

def isFinite (w : Workspace) (t : TermId) (a : Alphabet) :
    Logged (Except Error Bool × Workspace) := do
  let (r, w) ← w.compile t a
  return (r.map Automaton.isFinite, w)

def compareTerms (w : Workspace) (t u : TermId) (a : Alphabet)
    (relation : Automaton → Automaton → Logged (Except Error Bool)) :
    Logged (Except Error Bool × Workspace) :=
  -- a term stands in the relation to itself, whatever it would take to compile it
  if t = u then return (.ok true, w)
  else do
    let a := a.union ⟨(w.store.symbolsOf t).union (w.store.symbolsOf u)⟩
    match ← w.compile t a with
    | (.error e, w) => return (.error e, w)
    | (.ok left, w) =>
      match ← w.compile u a with
      | (.error e, w) => return (.error e, w)
      | (.ok right, w) =>
        let r ← relation left right
        return (r, w)

def equivalent (w : Workspace) (t u : TermId) (a : Alphabet) :
    Logged (Except Error Bool × Workspace) :=
  w.compareTerms t u a Automaton.equivalent

def isSubset (w : Workspace) (t u : TermId) (a : Alphabet) :
    Logged (Except Error Bool × Workspace) :=
  w.compareTerms t u a Automaton.isSubsetOf

end Workspace

end Residual
