import Residual.Proofs.Search
import Residual.Proofs.Tree.Basic
import Residual.Term.Subterms

/-!
This module contains the sub-terms that a traversal meets and the symbols in their literals, which
depend on the tree of the term alone.
-/

namespace Residual

namespace Store

def IsSubterm (s : Store) (t u : TermId) : Prop :=
  Relation.ReflTransGen (fun t u => u ∈ (s.expr t).children) t u

def Mentions (s : Store) (t : TermId) (c : Char) : Prop :=
  ∃ u set, s.IsSubterm t u ∧ s.expr u = .literal set ∧ c ∈ set

variable {s : Store} {t : TermId}

theorem mem_subterms_iff {u : TermId} : u ∈ s.subterms t ↔ s.IsSubterm t u := by
  rw [subterms, Array.mem_toList_iff]
  apply Region.Graph.mem_closure_iff.trans
  simp only [List.mem_singleton, exists_eq_left]
  rfl

theorem mem_symbolsOf_iff {c : Char} : c ∈ s.symbolsOf t ↔ s.Mentions t c := by
  rw [symbolsOf, SymbolSet.mem_ofList, List.mem_flatMap]
  constructor
  · rintro ⟨u, hu, hc⟩
    split at hc
    next set he => exact ⟨u, set, mem_subterms_iff.1 hu, he, SymbolSet.mem_toList.1 hc⟩
    · contradiction
  · rintro ⟨u, set, hu, he, hc⟩
    refine ⟨u, mem_subterms_iff.2 hu, ?_⟩
    rw [he]
    exact SymbolSet.mem_toList.2 hc

end Store

section Tree

def Tree.Mentions (c : Char) : Tree → Prop
  | emptySet | emptyString => False
  | literal symbols => c ∈ symbols
  | concat left right => left.Mentions c ∨ right.Mentions c
  | union _ args | inter _ args => ∃ i, (args i).Mentions c
  | negation arg | star arg | repeated arg _ _ => arg.Mentions c

variable {c : Char}

theorem Expr.mentions_tree {e : Expr} {sub : TermId → Tree} :
    (e.tree sub).Mentions c ↔
      (∃ set, e = .literal set ∧ c ∈ set) ∨ ∃ u ∈ e.children, (sub u).Mentions c := by
  cases e with
  | union args | inter args =>
    have h := Tree.exists_equivFin (S := (args.map sub).toFinset) (p := Tree.Mentions c)
    apply h.trans
    simp [children]
  | _ => simp [tree, Tree.Mentions, children]

namespace Store

variable {s s' : Store} {t : TermId}

theorem mentions_iff : s.Mentions t c ↔
    (∃ set, s.expr t = .literal set ∧ c ∈ set) ∨ ∃ u ∈ (s.expr t).children, s.Mentions u c := by
  constructor
  · rintro ⟨u, set, hu, he, hc⟩
    rcases hu.cases_head with rfl | ⟨v, hv, hu⟩
    · exact Or.inl ⟨set, he, hc⟩
    · exact Or.inr ⟨v, hv, u, set, hu, he, hc⟩
  · rintro (⟨set, he, hc⟩ | ⟨v, hv, u, set, hu, he, hc⟩)
    · exact ⟨t, set, .refl, he, hc⟩
    · exact ⟨u, set, .head hv hu, he, hc⟩

theorem mentions_tree (s : Store) (t : TermId) (c : Char) :
    (s.tree t).Mentions c ↔ s.Mentions t c := by
  rw [tree_eq, Expr.mentions_tree, mentions_iff]
  apply or_congr_right
  apply exists_congr
  intro u
  apply and_congr_right
  intro hu
  have : u < t := child_lt rfl hu
  exact mentions_tree s u c
termination_by t

theorem Extends.mentions_iff (h : s.Extends s') (ht : t < s.size) :
    s'.Mentions t c ↔ s.Mentions t c := by
  rw [← mentions_tree, h.tree_eq ht, mentions_tree]

theorem Extends.symbolsOf_eq (h : s.Extends s') (ht : t < s.size) :
    s'.symbolsOf t = s.symbolsOf t := by
  apply SymbolSet.ext
  intro c
  rw [mem_symbolsOf_iff, mem_symbolsOf_iff, h.mentions_iff ht]

end Store

end Tree

end Residual
