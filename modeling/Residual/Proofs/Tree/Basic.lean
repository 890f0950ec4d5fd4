import Mathlib.Data.Fintype.EquivFin
import Residual.Proofs.Language
import Residual.Term.Language

/-!
This module contains terms that refer to no store: sub-terms stand in place of their ids, and the
operands of a union or an intersection form a set. A store holds every such tree at most once, so
equality of ids is equality of trees.
-/

namespace Residual

open Computability

inductive Tree where
  | emptySet
  | emptyString
  | literal (symbols : SymbolSet)
  | concat (left right : Tree)
  | union (size : Nat) (args : Fin size → Tree)
  | inter (size : Nat) (args : Fin size → Tree)
  | negation (arg : Tree)
  | star (arg : Tree)
  | repeated (arg : Tree) (min max : Nat)

namespace Tree

noncomputable instance : DecidableEq Tree := Classical.decEq Tree

abbrev full : Tree := negation emptySet

def language : Tree → Language Char
  | emptySet => 0
  | emptyString => 1
  | literal symbols => {w | ∃ c ∈ symbols, w = [c]}
  | concat left right => left.language * right.language
  | union _ args => {w | ∃ i, w ∈ (args i).language}
  | inter _ args => {w | ∀ i, w ∈ (args i).language}
  | negation arg => arg.languageᶜ
  | star arg => arg.language∗
  | repeated arg min max => {w | ∃ k, min ≤ k ∧ k ≤ max ∧ w ∈ arg.language ^ k}

def nullable (T : Tree) : Prop := [] ∈ T.language

noncomputable instance (T : Tree) : Decidable T.nullable := Classical.propDecidable T.nullable

def Bounded : Tree → Prop
  | emptySet | emptyString | literal _ => True
  | concat left right => left.Bounded ∧ right.Bounded
  | union _ args | inter _ args => ∀ i, (args i).Bounded
  | negation arg | star arg => arg.Bounded
  | repeated arg min max => arg.Bounded ∧ min ≤ max ∧ 0 < max

section Operands

noncomputable def unionNode (S : Finset Tree) : Tree := union S.card fun i => S.equivFin.symm i

noncomputable def interNode (S : Finset Tree) : Tree := inter S.card fun i => S.equivFin.symm i

noncomputable def unionArgs : Tree → Finset Tree
  | union _ args => Finset.univ.image args
  | T => {T}

noncomputable def interArgs : Tree → Finset Tree
  | inter _ args => Finset.univ.image args
  | T => {T}

theorem image_equivFin (S : Finset Tree) :
    Finset.univ.image (fun i => (S.equivFin.symm i : Tree)) = S := by
  ext T
  rw [Finset.mem_image]
  constructor
  · rintro ⟨i, _, rfl⟩
    exact (S.equivFin.symm i).property
  · intro hT
    exact ⟨S.equivFin ⟨T, hT⟩, Finset.mem_univ _, by rw [Equiv.symm_apply_apply]⟩

theorem image_comp_equivFin (S : Finset Tree) (f : Tree → Tree) :
    Finset.univ.image (fun i => f (S.equivFin.symm i)) = S.image f := by
  conv_rhs => rw [← image_equivFin S, Finset.image_image]
  rfl

theorem exists_equivFin {S : Finset Tree} {p : Tree → Prop} :
    (∃ i, p (S.equivFin.symm i)) ↔ ∃ T ∈ S, p T := by
  conv_rhs => rw [← image_equivFin S]
  simp

theorem forall_equivFin {S : Finset Tree} {p : Tree → Prop} :
    (∀ i, p (S.equivFin.symm i)) ↔ ∀ T ∈ S, p T := by
  conv_rhs => rw [← image_equivFin S]
  simp

@[simp]
theorem unionArgs_unionNode (S : Finset Tree) : (unionNode S).unionArgs = S := image_equivFin S

@[simp]
theorem interArgs_interNode (S : Finset Tree) : (interNode S).interArgs = S := image_equivFin S

theorem unionNode_inj {S S' : Finset Tree} : unionNode S = unionNode S' ↔ S = S' := by
  constructor
  · intro h
    rw [← unionArgs_unionNode S, h, unionArgs_unionNode]
  · exact congrArg _

theorem interNode_inj {S S' : Finset Tree} : interNode S = interNode S' ↔ S = S' := by
  constructor
  · intro h
    rw [← interArgs_interNode S, h, interArgs_interNode]
  · exact congrArg _

theorem mem_language_unionNode {S : Finset Tree} {w : List Char} :
    w ∈ (unionNode S).language ↔ ∃ T ∈ S, w ∈ T.language :=
  exists_equivFin (p := fun T => w ∈ T.language)

theorem mem_language_interNode {S : Finset Tree} {w : List Char} :
    w ∈ (interNode S).language ↔ ∀ T ∈ S, w ∈ T.language :=
  forall_equivFin (p := fun T => w ∈ T.language)

end Operands

end Tree

namespace Expr

noncomputable def tree (sub : TermId → Tree) : Expr → Tree
  | emptySet => .emptySet
  | emptyString => .emptyString
  | literal symbols => .literal symbols
  | concat left right => .concat (sub left) (sub right)
  | union args => .unionNode (args.map sub).toFinset
  | inter args => .interNode (args.map sub).toFinset
  | negation arg => .negation (sub arg)
  | star arg => .star (sub arg)
  | repeated arg min max => .repeated (sub arg) min max

theorem tree_congr {e : Expr} {f g : TermId → Tree} (h : ∀ c ∈ e.children, f c = g c) :
    e.tree f = e.tree g := by
  cases e with
  | union args | inter args =>
    have : args.map f = args.map g := List.map_congr_left h
    rw [tree, tree, this]
  | _ => simp_all [tree, children]

theorem language_tree {e : Expr} {f : TermId → Tree} :
    (e.tree f).language = e.language fun c => (f c).language := by
  cases e with
  | union args =>
    ext w
    rw [tree, Tree.mem_language_unionNode]
    simp
    rfl
  | inter args =>
    ext w
    rw [tree, Tree.mem_language_interNode]
    simp
    rfl
  | _ => rfl

def WellFormed : Expr → Prop
  | union args | inter args => Increasing args
  | repeated _ min max => min ≤ max ∧ 0 < max
  | _ => True

theorem nullable_iff {e : Expr} (he : e.WellFormed) {sub : TermId → Bool}
    {L : TermId → Language Char} (h : ∀ c ∈ e.children, (sub c = true ↔ [] ∈ L c)) :
    e.nullable sub = true ↔ [] ∈ e.language L := by
  cases e with
  | emptySet | emptyString => simp [nullable, language]
  | literal symbols =>
    simp only [nullable, Bool.false_eq_true, false_iff]
    rintro ⟨c, _, hc⟩
    contradiction
  | concat left right =>
    rw [nullable, language, nil_mem_mul_iff, Bool.and_eq_true]
    rw [h left (by simp [children]), h right (by simp [children])]
  | union args =>
    rw [nullable, List.any_eq_true]
    exact exists_congr fun c => and_congr_right fun hc => h c hc
  | inter args =>
    rw [nullable, List.all_eq_true]
    exact forall_congr' fun c => imp_congr_right fun hc => h c hc
  | negation arg =>
    rw [nullable, Bool.not_eq_true', Bool.eq_false_iff]
    exact not_congr (h arg (List.mem_singleton_self arg))
  | star arg => simp [nullable, language, Language.nil_mem_kstar]
  | repeated arg min max =>
    have harg := h arg (List.mem_singleton_self arg)
    rw [nullable, Bool.or_eq_true, decide_eq_true_eq, harg]
    constructor
    · rintro (rfl | harg)
      · exact ⟨0, Nat.le_refl 0, Nat.zero_le max, by simp⟩
      · exact ⟨max, he.1, Nat.le_refl max, nil_mem_pow_iff.2 (Or.inr harg)⟩
    · rintro ⟨k, hmin, _, hk⟩
      rcases nil_mem_pow_iff.1 hk with rfl | harg
      · exact Or.inl (Nat.le_zero.1 hmin)
      · exact Or.inr harg

theorem bounded_tree {e : Expr} (he : e.WellFormed) {sub : TermId → Tree}
    (h : ∀ c ∈ e.children, (sub c).Bounded) : (e.tree sub).Bounded := by
  cases e with
  | union args | inter args =>
    apply (Tree.forall_equivFin (p := Tree.Bounded)).2
    simpa [children] using h
  | repeated arg min max => exact ⟨h arg (List.mem_singleton_self arg), he⟩
  | _ => simp_all [tree, Tree.Bounded, children]

theorem eq_of_tree_eq {d e : Expr} {f : TermId → Tree} (hd : d.WellFormed) (he : e.WellFormed)
    (hf : ∀ c ∈ d.children, ∀ c' ∈ e.children, f c = f c' → c = c') (h : d.tree f = e.tree f) :
    d = e := by
  have hmem : ∀ {l m : List TermId}, (∀ c ∈ l, ∀ c' ∈ m, f c = f c' → c = c') →
      (l.map f).toFinset = (m.map f).toFinset → ∀ c, c ∈ l ↔ c ∈ m := by
    intro l m hlm heq c
    constructor
    · intro hc
      have : f c ∈ (m.map f).toFinset := by rw [← heq]; simpa using ⟨c, hc, rfl⟩
      obtain ⟨c', hc', hcc'⟩ := List.mem_map.1 (List.mem_toFinset.1 this)
      rw [hlm c hc c' hc' hcc'.symm]
      exact hc'
    · intro hc
      have : f c ∈ (l.map f).toFinset := by rw [heq]; simpa using ⟨c, hc, rfl⟩
      obtain ⟨c', hc', hcc'⟩ := List.mem_map.1 (List.mem_toFinset.1 this)
      rw [← hlm c' hc' c hc hcc']
      exact hc'
  cases d <;> cases e <;> simp only [tree, Tree.unionNode, Tree.interNode, reduceCtorEq] at h
  case union.union args args' =>
    rw [hd.ext he (hmem hf (Tree.unionNode_inj.1 h))]
  case inter.inter args args' =>
    rw [hd.ext he (hmem hf (Tree.interNode_inj.1 h))]
  all_goals simp_all [children]

end Expr

namespace Store

noncomputable def tree (s : Store) (t : TermId) : Tree :=
  (s.expr t).tree fun c => if c < t then s.tree c else .emptySet
termination_by t

theorem tree_eq (s : Store) (t : TermId) : s.tree t = (s.expr t).tree s.tree := by
  rw [tree]
  apply Expr.tree_congr
  intro c hc
  exact if_pos (child_lt rfl hc)

theorem language_tree (s : Store) (t : TermId) : (s.tree t).language = s.language t := by
  rw [tree_eq, Expr.language_tree, language_eq]
  apply Expr.language_congr
  intro c hc
  have : c < t := child_lt rfl hc
  exact language_tree s c
termination_by t

theorem Extends.tree_eq {s s' : Store} (h : s.Extends s') {t : TermId} (ht : t < s.size) :
    s'.tree t = s.tree t := by
  rw [Store.tree_eq, Store.tree_eq s, h.expr_eq ht]
  apply Expr.tree_congr
  intro c hc
  have : c < t := child_lt rfl hc
  apply h.tree_eq
  exact Nat.lt_trans this ht
termination_by t

def WellFormed (s : Store) : Prop := ∀ t, (s.expr t).WellFormed

theorem WellFormed.tree_inj {s : Store} (h : s.WellFormed) {t u : TermId} (ht : t < s.size)
    (hu : u < s.size) (heq : s.tree t = s.tree u) : t = u := by
  rw [tree_eq, tree_eq s u] at heq
  have hexpr : s.expr t = s.expr u := by
    apply Expr.eq_of_tree_eq (h t) (h u) _ heq
    intro c hc c' hc' hcc'
    have hct : c < t := child_lt rfl hc
    have hcu : c' < u := child_lt rfl hc'
    exact h.tree_inj (Nat.lt_trans hct ht) (Nat.lt_trans hcu hu) hcc'
  obtain ⟨d, hd⟩ := Extends.get?_of_lt ht
  obtain ⟨e, he⟩ := Extends.get?_of_lt hu
  simp only [expr, hd, he, Option.getD_some] at hexpr
  subst hexpr
  exact Numbering.get?_inj hd he
termination_by t

theorem WellFormed.nullable_iff {s : Store} (h : s.WellFormed) {t : TermId} (ht : t < s.size) :
    s.nullable t = true ↔ [] ∈ s.language t := by
  obtain ⟨e, he⟩ := Extends.get?_of_lt ht
  have hexpr : s.expr t = e := by simp [expr, he]
  rw [Extends.nullable_of_get? he, language_eq, hexpr]
  apply Expr.nullable_iff (hexpr ▸ h t)
  intro c hc
  have hct : c < t := child_lt hexpr hc
  exact h.nullable_iff (Nat.lt_trans hct ht)
termination_by t

theorem WellFormed.nullable_tree {s : Store} (h : s.WellFormed) {t : TermId} (ht : t < s.size) :
    (s.tree t).nullable ↔ s.nullable t = true := by
  rw [h.nullable_iff ht, Tree.nullable, language_tree]

theorem WellFormed.bounded_tree {s : Store} (h : s.WellFormed) (t : TermId) :
    (s.tree t).Bounded := by
  rw [tree_eq]
  apply Expr.bounded_tree (h t)
  intro c hc
  have : c < t := child_lt rfl hc
  exact h.bounded_tree c
termination_by t

end Store

end Residual
