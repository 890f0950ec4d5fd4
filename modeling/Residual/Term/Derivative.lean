import Residual.Term.Build

/-!
This module contains the derivative of a term by a symbol, put together from the derivatives of its
direct sub-terms.
-/

namespace Residual

namespace Store

/--
The sub-terms whose derivatives are needed for the derivative of a term. The right part of a
concatenation matters only if the left part can be skipped.
-/
def dependencies (s : Store) (t : TermId) : List TermId :=
  match s.expr t with
  | .concat left right => if s.nullable left then [left, right] else [left]
  | e => e.children

theorem lt_of_mem_dependencies {s : Store} {t u : TermId} (h : u ∈ s.dependencies t) : u < t := by
  apply child_lt (s := s) rfl
  unfold dependencies at h
  split at h
  next left right he =>
    rw [he]
    split at h <;> simp_all [Expr.children]
  · exact h

def derive (s : Store) (c : Char) (t : TermId) (sub : TermId → TermId) : TermId × Store :=
  match s.expr t with
  | .emptySet | .emptyString => (empty, s)
  | .literal set => (if set.contains c then epsilon else empty, s)
  | .concat left right =>
    if s.nullable left then
      let (u, s) := s.concat (sub left) right
      s.union u (sub right)
    else s.concat (sub left) right
  | .union args => s.unionList (args.map sub)
  | .inter args => s.interList (args.map sub)
  | .negation arg => s.negation (sub arg)
  | .star arg => s.concat (sub arg) t
  | .repeated arg min max =>
    let (rest, s) := s.between arg (min - 1) (max - 1)
    s.concat (sub arg) rest

end Store

end Residual
