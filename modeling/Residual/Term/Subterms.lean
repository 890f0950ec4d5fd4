import Residual.Symbol.Alphabet
import Residual.Term.Store
import Residual.Worklist

/-!
This module contains the traversal of a term: its sub-terms and the symbols that it mentions.
-/

namespace Residual

namespace Store

def subtermGraph (s : Store) (t : TermId) : Region.Graph TermId where
  toRegion := .below (t + 1)
  next := fun u => (s.expr u).children
  next_mem := by
    intro u hu v hv
    exact Nat.lt_trans (child_lt rfl hv) hu

def subterms (s : Store) (t : TermId) : List TermId :=
  ((s.subtermGraph t).closure [t] (by
    intro u hu
    rw [List.mem_singleton.1 hu]
    exact Nat.lt_succ_self t)).toArray.toList

def symbolsOf (s : Store) (t : TermId) : SymbolSet :=
  .ofList <| (s.subterms t).flatMap fun u =>
    match s.expr u with
    | .literal set => set.toList
    | _ => []

def alphabetOf (s : Store) (t : TermId) : Alphabet := ⟨s.symbolsOf t⟩

end Store

end Residual
