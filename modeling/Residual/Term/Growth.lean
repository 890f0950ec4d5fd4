import Residual.Term.Derivative

/-!
This module contains the order of stores by growth. The operations that build terms only append to a
store: every id that was issued before keeps its term, and the id of the result is issued too.
-/

namespace Residual

namespace Store

def Extends (s s' : Store) : Prop :=
  ∀ t e, s.exprs.get? t = some e → s'.exprs.get? t = some e

namespace Extends

variable {s s' s'' : Store}

theorem refl (s : Store) : s.Extends s := fun _ _ h => h

theorem trans (h : s.Extends s') (h' : s'.Extends s'') : s.Extends s'' :=
  fun t e he => h' t e (h t e he)

theorem get?_of_lt {t : TermId} (ht : t < s.size) : ∃ e, s.exprs.get? t = some e :=
  Numbering.get?_of_lt ht

theorem lt_size (h : s.Extends s') {t : TermId} (ht : t < s.size) : t < s'.size := by
  obtain ⟨e, he⟩ := get?_of_lt ht
  exact Numbering.lt_size_of_get? (h t e he)

theorem expr_eq (h : s.Extends s') {t : TermId} (ht : t < s.size) : s'.expr t = s.expr t := by
  obtain ⟨e, he⟩ := get?_of_lt ht
  simp [expr, he, h t e he]

theorem nullable_of_get? {t : TermId} {e : Expr} (he : s.exprs.get? t = some e) :
    s.nullable t = e.nullable s.nullable := by
  rw [nullable, Array.getD_eq_getD_getElem?, s.nullables_eq t e he]
  rfl

theorem nullable_eq (h : s.Extends s') {t : TermId} (ht : t < s.size) :
    s'.nullable t = s.nullable t := by
  obtain ⟨e, he⟩ := get?_of_lt ht
  rw [nullable_of_get? he, nullable_of_get? (h t e he)]
  refine nullable_congr fun c hc => ?_
  have : c < t := s.children_lt t e he c hc
  exact h.nullable_eq (Nat.lt_trans this ht)
termination_by t

end Extends

structure Grows (s : Store) (r : TermId × Store) : Prop where
  ext : s.Extends r.2
  lt_size : r.1 < r.2.size

theorem Grows.of_lt {s : Store} {t : TermId} (h : t < s.size) : s.Grows (t, s) := ⟨.refl s, h⟩

theorem Grows.mono {s s' : Store} {r : TermId × Store} (h : s'.Grows r) (hs : s.Extends s') :
    s.Grows r :=
  ⟨hs.trans h.ext, h.lt_size⟩

section Sharing

variable {s : Store} {t u c : TermId}

theorem get?_expr (ht : t < s.size) : s.exprs.get? t = some (s.expr t) := by
  obtain ⟨e, he⟩ := Extends.get?_of_lt ht
  rw [expr, he, Option.getD_some]

theorem lt_size_of_expr_ne (h : s.expr t ≠ .emptySet) : t < s.size := by
  cases he : s.exprs.get? t with
  | none =>
    rw [expr, he, Option.getD_none] at h
    contradiction
  | some e => exact Numbering.lt_size_of_get? he

theorem expr_inj (ht : t < s.size) (hu : u < s.size) : s.expr t = s.expr u ↔ t = u := by
  constructor
  · intro h
    have ht' := get?_expr ht
    rw [h] at ht'
    exact Numbering.get?_inj ht' (get?_expr hu)
  · exact congrArg s.expr

theorem lt_size_of_mem_children (h : c ∈ (s.expr t).children) : c < s.size := by
  have ht : t < s.size := by
    apply lt_size_of_expr_ne
    intro he
    rw [he] at h
    exact absurd h List.not_mem_nil
  exact Nat.lt_trans (child_lt rfl h) ht

end Sharing

section Basic

variable (s : Store)

theorem empty_lt_size : empty < s.size := Numbering.lt_size_of_get? s.get?_empty

theorem epsilon_lt_size : epsilon < s.size := Numbering.lt_size_of_get? s.get?_epsilon

theorem full_lt_size : full < s.size := Numbering.lt_size_of_get? s.get?_full

theorem grows_empty : s.Grows (empty, s) := .of_lt s.empty_lt_size

end Basic

section Make

variable {s : Store} {e : Expr}

theorem extends_push (hc : ∀ c ∈ e.children, c < s.size) (he : s.exprs.find? e = none) :
    s.Extends (s.push e hc he) :=
  fun _ _ h => Numbering.get?_push_of_get? he h

theorem get?_make (hc : ∀ c ∈ e.children, c < s.size) :
    (s.make e).2.exprs.get? (s.make e).1 = some e := by
  unfold make
  rw [dif_pos hc]
  split
  next t he => exact Numbering.find?_eq_some_iff.1 he
  next he => exact (Numbering.get?_push s.exprs e he s.size).trans (if_pos rfl)

theorem grows_make (hc : ∀ c ∈ e.children, c < s.size) : s.Grows (s.make e) := by
  refine ⟨?_, Numbering.lt_size_of_get? (get?_make hc)⟩
  unfold make
  rw [dif_pos hc]
  split
  · exact .refl s
  next he => exact extends_push hc he

theorem expr_make (hc : ∀ c ∈ e.children, c < s.size) : (s.make e).2.expr (s.make e).1 = e := by
  simp [expr, get?_make hc]

theorem make_of_find? {t : TermId} (hc : ∀ c ∈ e.children, c < s.size)
    (h : s.exprs.find? e = some t) : s.make e = (t, s) := by
  unfold make
  rw [dif_pos hc]
  split
  next u hu =>
    rw [h] at hu
    cases hu
    rfl
  next hnone =>
    rw [h] at hnone
    contradiction

end Make

section Build

variable {s : Store}

theorem lt_size_of_child {t c : TermId} {e : Expr} (ht : t < s.size) (he : s.expr t = e)
    (hc : c ∈ e.children) : c < s.size :=
  Nat.lt_trans (child_lt he hc) ht

theorem grows_literal (s : Store) (set : SymbolSet) : s.Grows (s.literal set) := by
  unfold literal
  split
  · exact s.grows_empty
  · exact grows_make (by simp [Expr.children])

theorem orderArgs_spec {f : SymbolSet → SymbolSet → SymbolSet} {args : List TermId}
    (h : ∀ t ∈ args, t < s.size) :
    s.Extends (s.orderArgs f args).2 ∧
      ∀ t ∈ (s.orderArgs f args).1, t < (s.orderArgs f args).2.size := by
  unfold orderArgs
  have hothers : ∀ t ∈ args.filter fun t => (s.literalSet? t).isNone, t < s.size :=
    fun t ht => h t (List.mem_filter.1 ht).1
  simp only
  split
  · exact ⟨.refl s, fun t ht => hothers t (mem_increasing.1 ht)⟩
  next set sets _ =>
    have hlit := grows_literal s (sets.foldl f set)
    refine ⟨hlit.ext, fun t ht => ?_⟩
    rcases List.mem_cons.1 (mem_increasing.1 ht) with rfl | ht
    · exact hlit.lt_size
    · exact hlit.ext.lt_size (hothers t ht)

theorem unionArgs_lt_size {t u : TermId} (ht : t < s.size) (h : u ∈ s.unionArgs t) :
    u < s.size := by
  unfold unionArgs at h
  split at h
  next args he => exact lt_size_of_child ht he h
  · exact List.mem_singleton.1 h ▸ ht

theorem interArgs_lt_size {t u : TermId} (ht : t < s.size) (h : u ∈ s.interArgs t) :
    u < s.size := by
  unfold interArgs at h
  split at h
  next args he => exact lt_size_of_child ht he h
  · exact List.mem_singleton.1 h ▸ ht

end Build

end Store

end Residual
