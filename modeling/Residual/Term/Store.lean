import Residual.Numbering
import Residual.Term.Basic

/-!
This module contains the store of terms with maximum sharing: equal terms have one id. A store only
grows; what it says about a term never changes afterwards.
-/

namespace Residual

open Std

structure Term where
  expr : Expr
  id : TermId
deriving DecidableEq

/--
The terms created so far, each with the id that it carries. Sub-terms are created before the terms
that use them. `nullables` tells for each term whether the empty word belongs to it. The first three
terms are the empty language, the empty word and all words.
-/
structure Store where
  exprs : Numbering Expr
  ids : Array TermId
  nullables : Array Bool
  children_lt : ∀ i e, exprs.get? i = some e → ∀ c ∈ e.children, c < i
  nullables_eq : ∀ i e, exprs.get? i = some e →
    nullables[i]? = some (e.nullable fun c => nullables.getD c false)
  size_nullables : nullables.size = exprs.size
  size_ids : ids.size = exprs.size
  ids_eq : ∀ i (h : i < ids.size), ids[i] = i
  get?_empty : exprs.get? 0 = some .emptySet
  get?_epsilon : exprs.get? 1 = some .emptyString
  get?_full : exprs.get? 2 = some (.negation 0)

namespace Store

def size (s : Store) : Nat := s.exprs.size

def expr (s : Store) (t : TermId) : Expr := (s.exprs.get? t).getD .emptySet

def term? (s : Store) (t : TermId) : Option Term :=
  match s.exprs.get? t, s.ids[t]? with
  | some expr, some id => some ⟨expr, id⟩
  | _, _ => none

def nullable (s : Store) (t : TermId) : Bool := s.nullables.getD t false

theorem child_lt {s : Store} {t c : TermId} {e : Expr} (he : s.expr t = e) (h : c ∈ e.children) :
    c < t := by
  subst he
  unfold expr at h
  cases he : s.exprs.get? t with
  | none => simp [he, Expr.children] at h
  | some e => exact s.children_lt t e he c (by simpa [he] using h)

abbrev empty : TermId := 0

abbrev epsilon : TermId := 1

abbrev full : TermId := 2

def basicExprs : Numbering Expr :=
  ((Numbering.empty.push .emptySet (by decide)).push .emptyString (by decide)).push
    (.negation empty) (by decide)

theorem get?_basicExprs (i : Nat) :
    basicExprs.get? i = [Expr.emptySet, .emptyString, .negation empty][i]? := by
  match i with
  | 0 | 1 | 2 => rfl
  | _ + 3 => rfl

def initial : Store where
  exprs := basicExprs
  ids := #[empty, epsilon, full]
  nullables := #[false, true, true]
  children_lt := by
    intro i e he
    rw [get?_basicExprs] at he
    match i with
    | 0 | 1 | 2 => cases he; decide
    | _ + 3 => simp at he
  nullables_eq := by
    intro i e he
    rw [get?_basicExprs] at he
    match i with
    | 0 | 1 | 2 => cases he; rfl
    | _ + 3 => simp at he
  size_nullables := rfl
  size_ids := rfl
  ids_eq := by decide
  get?_empty := rfl
  get?_epsilon := rfl
  get?_full := rfl

instance : Inhabited Store := ⟨initial⟩

theorem nullable_congr {e : Expr} {f g : TermId → Bool} (h : ∀ c ∈ e.children, f c = g c) :
    e.nullable f = e.nullable g := by
  cases e with
  | union args =>
    simp only [Expr.nullable, Expr.children] at h ⊢
    rw [Bool.eq_iff_iff, List.any_eq_true, List.any_eq_true]
    exact exists_congr fun c => and_congr_right fun hc => by rw [h c hc]
  | inter args =>
    simp only [Expr.nullable, Expr.children] at h ⊢
    rw [Bool.eq_iff_iff, List.all_eq_true, List.all_eq_true]
    exact forall_congr' fun c => imp_congr_right fun hc => by rw [h c hc]
  | _ => simp_all [Expr.nullable, Expr.children]

theorem nullable_push {s : Store} {c : TermId} (b : Bool) (h : c < s.size) :
    (s.nullables.push b).getD c false = s.nullable c := by
  rw [size, ← s.size_nullables] at h
  simp [nullable, Array.getElem?_push, Nat.ne_of_lt h]

theorem nullables_push {s : Store} {e : Expr} (hc : ∀ c ∈ e.children, c < s.size)
    (he : s.exprs.find? e = none) (i : TermId) (d : Expr)
    (hd : (s.exprs.push e he).get? i = some d) :
    (s.nullables.push (e.nullable s.nullable))[i]? =
      some (d.nullable fun c => (s.nullables.push (e.nullable s.nullable)).getD c false) := by
  rw [Numbering.get?_push] at hd
  split at hd
  next hi =>
    cases hd
    rw [hi, ← s.size_nullables, Array.getElem?_push_size]
    exact congrArg some (nullable_congr fun c h => (nullable_push _ (hc c h)).symm)
  next hi =>
    have hlt := Numbering.lt_size_of_get? hd
    rw [Array.getElem?_push, s.size_nullables, if_neg hi, s.nullables_eq i d hd]
    refine congrArg some (nullable_congr fun c h => ?_)
    exact (nullable_push _ (Nat.lt_trans (s.children_lt i d hd c h) hlt)).symm

theorem children_push {s : Store} {e : Expr} (hc : ∀ c ∈ e.children, c < s.size)
    (he : s.exprs.find? e = none) (i : TermId) (d : Expr)
    (hd : (s.exprs.push e he).get? i = some d) : ∀ c ∈ d.children, c < i := by
  rw [Numbering.get?_push] at hd
  split at hd
  next hi =>
    cases hd
    exact hi ▸ hc
  · exact s.children_lt i d hd

theorem ids_push (s : Store) (i : Nat) (h : i < (s.ids.push s.size).size) :
    (s.ids.push s.size)[i] = i := by
  rw [Array.getElem_push]
  split
  next hlt => exact s.ids_eq i hlt
  next hge =>
    rw [Array.size_push] at h
    have hi : i = s.ids.size := by omega
    exact s.size_ids.symm.trans hi.symm

def push (s : Store) (e : Expr) (hc : ∀ c ∈ e.children, c < s.size)
    (he : s.exprs.find? e = none) : Store :=
  let id := s.size
  let b := e.nullable s.nullable
  { exprs := s.exprs.push e he
    ids := s.ids.push id
    nullables := s.nullables.push b
    children_lt := children_push hc he
    nullables_eq := nullables_push hc he
    size_nullables := by simp [s.size_nullables]
    size_ids := by simp [s.size_ids]
    ids_eq := ids_push s
    get?_empty := Numbering.get?_push_of_get? he s.get?_empty
    get?_epsilon := Numbering.get?_push_of_get? he s.get?_epsilon
    get?_full := Numbering.get?_push_of_get? he s.get?_full }

def make (s : Store) (e : Expr) : TermId × Store :=
  if hc : ∀ c ∈ e.children, c < s.size then
    match he : s.exprs.find? e with
    | some t => (t, s)
    | none => (s.size, s.push e hc he)
  else
    (0, s)

end Store

end Residual
