import Residual.Term.Build

/-!
This module contains the written form of terms. Parentheses depend on the kind of the sub-term
alone: repetition binds tighter than concatenation, which binds tighter than union and
intersection.
-/

namespace Residual

namespace Expr

def isFactor : Expr → Bool
  | star _ | repeated .. => true
  | e => e.isAtomic

def isOperand : Expr → Bool
  | concat .. | negation _ => true
  | e => e.isFactor

end Expr

def parenthesize (bare : Bool) (text : String) : String :=
  if bare then text else "(" ++ text ++ ")"

namespace Store

theorem lt_of_mem_factors_right {s : Store} {t left right u : TermId}
    (he : s.expr t = .concat left right) (h : u ∈ left :: s.factors right) : u < t := by
  have hleft : left < t := child_lt he (by simp [Expr.children])
  have hright : right < t := child_lt he (by simp [Expr.children])
  rcases List.mem_cons.1 h with rfl | h
  · exact hleft
  · exact Nat.lt_of_le_of_lt (le_of_mem_factors h) hright

def text (s : Store) (t : TermId) : String :=
  match h : s.expr t with
  | .emptySet => "∅"
  | .emptyString => "ε"
  | .literal set => set.text
  | .concat left right =>
    String.join <| (left :: s.factors right).attach.map fun ⟨u, hu⟩ =>
      have : u < t := lt_of_mem_factors_right h hu
      parenthesize (s.expr u).isFactor (s.text u)
  | .union args =>
    " + ".intercalate <| args.attach.map fun ⟨u, hu⟩ =>
      have : u < t := child_lt h hu
      parenthesize (s.expr u).isOperand (s.text u)
  | .inter args =>
    " & ".intercalate <| args.attach.map fun ⟨u, hu⟩ =>
      have : u < t := child_lt h hu
      parenthesize (s.expr u).isOperand (s.text u)
  | .negation arg =>
    have : arg < t := child_lt h (List.mem_singleton_self arg)
    "¬" ++ parenthesize (s.expr arg).isAtomic (s.text arg)
  | .star arg =>
    have : arg < t := child_lt h (List.mem_singleton_self arg)
    parenthesize (s.expr arg).isAtomic (s.text arg) ++ "*"
  | .repeated arg min max =>
    have : arg < t := child_lt h (List.mem_singleton_self arg)
    let bounds := if min = max then Nat.repr min else Nat.repr min ++ "," ++ Nat.repr max
    parenthesize (s.expr arg).isAtomic (s.text arg) ++ "\x7b" ++ bounds ++ "\x7d"
termination_by t

end Store

end Residual
