import Residual.Symbol.Alphabet
import Residual.Term.Store

/-!
This module contains the operations that build terms. Each of them simplifies before it creates
anything: operands are flattened, ordered and stripped of what does not matter, so that many terms
of one language share an id and every term has finitely many residuals.

Every operation returns the id of its result together with the store that holds it.
-/

namespace Residual

namespace Store

section Words

def literal (s : Store) (set : SymbolSet) : TermId × Store :=
  if set.isEmpty then (empty, s) else s.make (.literal set)

def symbol (s : Store) (c : Char) : TermId × Store := s.literal (.singleton c)

def oneOf (s : Store) (symbols : List Char) : TermId × Store := s.literal (.ofList symbols)

def anyOf (s : Store) (a : Alphabet) : TermId × Store := s.literal a.set

def noneOf (s : Store) (set : SymbolSet) (a : Alphabet) : TermId × Store :=
  s.literal (a.set.difference set)

end Words

section Concat

def factors (s : Store) (t : TermId) : List TermId :=
  match h : s.expr t with
  | .concat left right =>
    have : right < t := child_lt h (by simp [Expr.children])
    left :: s.factors right
  | _ => [t]
termination_by t

theorem le_of_mem_factors {s : Store} {t u : TermId} (h : u ∈ s.factors t) : u ≤ t := by
  fun_induction factors s t with
  | case1 t left right he _ ih =>
    have hleft : left < t := child_lt he (by simp [Expr.children])
    rcases List.mem_cons.1 h with rfl | h
    · exact Nat.le_of_lt hleft
    · exact Nat.le_trans (ih h) (Nat.le_of_lt ‹_›)
  | case2 t he => exact Nat.le_of_eq (List.mem_singleton.1 h)

/--
The words of `left` followed by those of `right`. Concatenations associate to the right: the left
operand of a stored one is never a concatenation itself.
-/
def concat (s : Store) (left right : TermId) : TermId × Store :=
  if left = empty ∨ right = empty then (empty, s)
  else if left = epsilon then (right, s)
  else if right = epsilon then (left, s)
  else if right = full ∧ s.nullable left then (full, s)
  else
    (s.factors left).foldr (fun x r => r.2.make (.concat x r.1)) (right, s)

def concatList (s : Store) (ts : List TermId) : TermId × Store :=
  ts.foldr (fun t r => r.2.concat t r.1) (epsilon, s)

def word (s : Store) (w : List Char) : TermId × Store :=
  w.foldr (fun c r => let (x, s) := r.2.symbol c; s.concat x r.1) (epsilon, s)

end Concat

section Boolean

def literalSet? (s : Store) (t : TermId) : Option SymbolSet :=
  match s.expr t with
  | .literal set => some set
  | _ => none

/--
Brings operands into increasing order without repetition, after combining all literals among them
into one by means of `f`.
-/
def orderArgs (s : Store) (f : SymbolSet → SymbolSet → SymbolSet) (args : List TermId) :
    List TermId × Store :=
  let others := args.filter fun t => (s.literalSet? t).isNone
  match args.filterMap s.literalSet? with
  | [] => (increasing others, s)
  | set :: sets =>
    let (t, s) := s.literal (sets.foldl f set)
    (increasing (t :: others), s)

def hasComplements (s : Store) (args : List TermId) : Bool :=
  args.any fun t =>
    match s.expr t with
    | .negation u => args.contains u
    | _ => false

def unionArgs (s : Store) (t : TermId) : List TermId :=
  match s.expr t with
  | .union args => args
  | _ => [t]

def unionOf (s : Store) (args : List TermId) : TermId × Store :=
  let (args, s) := s.orderArgs .union args
  let args := args.filter (· ≠ empty)
  if args.contains full || s.hasComplements args then (full, s)
  else
    let redundant := args.any fun t => t ≠ epsilon && s.nullable t
    let args := if redundant then args.filter (· ≠ epsilon) else args
    match args with
    | [] => (empty, s)
    | [t] => (t, s)
    | args => s.make (.union args)

def unionList (s : Store) (ts : List TermId) : TermId × Store :=
  s.unionOf (ts.flatMap s.unionArgs)

def union (s : Store) (t u : TermId) : TermId × Store := s.unionList [t, u]

def interArgs (s : Store) (t : TermId) : List TermId :=
  match s.expr t with
  | .inter args => args
  | _ => [t]

def interOf (s : Store) (args : List TermId) : TermId × Store :=
  let (args, s) := s.orderArgs .inter args
  let args := args.filter (· ≠ full)
  if args.contains empty || s.hasComplements args then (empty, s)
  else if args.contains epsilon then (if args.all s.nullable then epsilon else empty, s)
  else
    match args with
    | [] => (full, s)
    | [t] => (t, s)
    | args => s.make (.inter args)

def interList (s : Store) (ts : List TermId) : TermId × Store :=
  s.interOf (ts.flatMap s.interArgs)

def inter (s : Store) (t u : TermId) : TermId × Store := s.interList [t, u]

def negation (s : Store) (t : TermId) : TermId × Store :=
  match s.expr t with
  | .negation u => (u, s)
  | _ => s.make (.negation t)

def difference (s : Store) (t u : TermId) : TermId × Store :=
  let (v, s) := s.negation u
  s.inter t v

end Boolean

section Repetition

def star (s : Store) (t : TermId) : TermId × Store :=
  match s.expr t with
  | .emptySet | .emptyString => (epsilon, s)
  | .star _ => (t, s)
  | _ => s.make (.star t)

def plus (s : Store) (t : TermId) : TermId × Store :=
  let (u, s) := s.star t
  s.concat t u

def between (s : Store) (t : TermId) (min max : Nat) : TermId × Store :=
  if max = 0 then (epsilon, s)
  else
    -- if the empty word belongs to the term, fewer words do as well
    let min := if s.nullable t then 0 else min
    if max = 1 ∧ (min = 1 ∨ s.nullable t) then (t, s)
    else
      match s.expr t with
      | .star _ => (t, s)
      | .emptySet => (if min = 0 then epsilon else empty, s)
      | .emptyString => (epsilon, s)
      | _ => s.make (.repeated t min max)

def optional (s : Store) (t : TermId) : TermId × Store := s.between t 0 1

def repeated (s : Store) (t : TermId) (min max : Nat) : Except Error TermId × Store :=
  if max < min then (.error (.invalidBounds min max), s)
  else
    let (u, s) := s.between t min max
    (.ok u, s)

def atLeast (s : Store) (t : TermId) (min : Nat) : TermId × Store :=
  let (u, s) := s.between t min min
  let (v, s) := s.star t
  s.concat u v

end Repetition

end Store

end Residual
