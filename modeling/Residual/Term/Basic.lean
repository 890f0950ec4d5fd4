import Residual.Symbol.Set

/-!
This module contains the abstract syntax of terms. A term refers to its direct sub-terms by their
ids in the store that holds them.
-/

namespace Residual

open Std

abbrev TermId := Nat

def TermId.text (t : TermId) : String := "t" ++ Nat.repr t

inductive Expr where
  | emptySet
  | emptyString
  | literal (symbols : SymbolSet)
  | concat (left right : TermId)
  | union (args : List TermId)
  | inter (args : List TermId)
  | negation (arg : TermId)
  | star (arg : TermId)
  | repeated (arg : TermId) (min max : Nat)
deriving DecidableEq

namespace Expr

def children : Expr → List TermId
  | emptySet | emptyString | literal _ => []
  | concat left right => [left, right]
  | union args | inter args => args
  | negation arg | star arg | repeated arg _ _ => [arg]

def isAtomic : Expr → Bool
  | emptySet | emptyString | literal _ => true
  | _ => false

def nullable (sub : TermId → Bool) : Expr → Bool
  | emptySet => false
  | emptyString => true
  | literal _ => false
  | concat left right => sub left && sub right
  | union args => args.any sub
  | inter args => args.all sub
  | negation arg => !sub arg
  | star _ => true
  | repeated arg min _ => min = 0 || sub arg

section Order

def kind : Expr → Nat
  | emptySet => 0
  | emptyString => 1
  | literal _ => 2
  | concat .. => 3
  | union _ => 4
  | inter _ => 5
  | negation _ => 6
  | star _ => 7
  | repeated .. => 8

def numbers : Expr → List Nat
  | repeated arg min max => [arg, min, max]
  | e => e.children

def literalSymbols : Expr → Array Char
  | literal s => s.symbols
  | _ => #[]

instance : Ord Expr :=
  ⟨compareLex (compareOn kind) (compareLex (compareOn numbers) (compareOn literalSymbols))⟩

instance : TransOrd Expr :=
  inferInstanceAs <| TransCmp <|
    compareLex (compareOn kind) (compareLex (compareOn numbers) (compareOn literalSymbols))

theorem eq_of_components {d e : Expr} (hk : d.kind = e.kind) (hn : d.numbers = e.numbers)
    (hs : d.literalSymbols = e.literalSymbols) : d = e := by
  cases d <;> cases e <;> simp_all [kind, numbers, literalSymbols, children]
  next s t => exact SymbolSet.ext fun c => by simp [← SymbolSet.mem_toList, SymbolSet.toList, hs]

instance : LawfulEqOrd Expr where
  eq_of_compare {d e} h := by
    have h : (compareOn kind d e).then
        ((compareOn numbers d e).then (compareOn literalSymbols d e)) = .eq := h
    rw [Ordering.then_eq_eq, Ordering.then_eq_eq] at h
    exact eq_of_components (LawfulEqOrd.eq_of_compare h.1) (LawfulEqOrd.eq_of_compare h.2.1)
      (LawfulEqOrd.eq_of_compare h.2.2)

end Order

end Expr

end Residual
