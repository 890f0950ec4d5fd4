import Residual.Proofs.Tree.Build

/-!
This module contains the derivative of a tree by a symbol. Its language is the left quotient of the
language of the tree.
-/

namespace Residual

namespace Tree

noncomputable def derivative (c : Char) : Tree → Tree
  | emptySet | emptyString => emptySet
  | literal set => if set.contains c then emptyString else emptySet
  | concat left right =>
    if left.nullable then mkUnionList {(left.derivative c).mkConcat right, right.derivative c}
    else (left.derivative c).mkConcat right
  | union _ args => mkUnionList (Finset.univ.image fun i => (args i).derivative c)
  | inter _ args => mkInterList (Finset.univ.image fun i => (args i).derivative c)
  | negation arg => mkNegation (arg.derivative c)
  | star arg => (arg.derivative c).mkConcat (star arg)
  | repeated arg min max => (arg.derivative c).mkConcat (arg.mkRepeated (min - 1) (max - 1))

theorem derivative_unionNode (S : Finset Tree) (c : Char) :
    (unionNode S).derivative c = mkUnionList (S.image (derivative c)) := by
  rw [unionNode, derivative, image_comp_equivFin]

theorem derivative_interNode (S : Finset Tree) (c : Char) :
    (interNode S).derivative c = mkInterList (S.image (derivative c)) := by
  rw [interNode, derivative, image_comp_equivFin]

noncomputable def wordDerivative (T : Tree) (word : List Char) : Tree :=
  word.foldl (fun T c => T.derivative c) T

theorem language_derivative {T : Tree} (hT : T.Bounded) (c : Char) :
    (T.derivative c).language = T.language.leftQuotient [c] := by
  induction T with
  | emptySet | emptyString =>
    apply Language.ext
    intro w
    simp [derivative, language]
  | literal set =>
    apply Language.ext
    intro w
    rw [Language.mem_leftQuotient, List.singleton_append, mem_language_literal, derivative]
    split
    next h => simpa [language] using fun _ => SymbolSet.contains_iff.1 h
    next h => simpa [language] using fun hc _ => h (SymbolSet.contains_iff.2 hc)
  | concat left right ihl ihr =>
    apply Language.ext
    intro w
    have hcat : w ∈ ((left.derivative c).mkConcat right).language ↔
        w ∈ left.language.leftQuotient [c] * right.language := by
      rw [language_mkConcat, ihl hT.1]
    rw [Language.mem_leftQuotient, List.singleton_append, language, cons_mem_mul_iff, ← hcat,
      derivative]
    split
    next hnull =>
      rw [mem_language_mkUnionList]
      simp only [Finset.mem_insert, Finset.mem_singleton, exists_eq_or_imp, exists_eq_left, ihr hT.2]
      exact or_congr_right (and_iff_right hnull).symm
    next hnull => exact (or_iff_left fun h => hnull h.1).symm
  | union size args ih =>
    apply Language.ext
    intro w
    rw [derivative, mem_language_mkUnionList]
    simp only [Finset.mem_image, Finset.mem_univ, true_and, exists_exists_eq_and]
    exact exists_congr fun i => by rw [ih i (hT i)]; rfl
  | inter size args ih =>
    apply Language.ext
    intro w
    rw [derivative, mem_language_mkInterList]
    simp only [Finset.mem_image, Finset.mem_univ, true_and, forall_exists_index,
      forall_apply_eq_imp_iff]
    exact forall_congr' fun i => by rw [ih i (hT i)]; rfl
  | negation arg ih =>
    rw [derivative, language_mkNegation, ih hT]
    rfl
  | star arg ih =>
    apply Language.ext
    intro w
    rw [derivative, language_mkConcat, ih hT]
    exact cons_mem_kstar_iff.symm
  | repeated arg min max ih =>
    obtain ⟨harg, hle, hmax⟩ := hT
    apply Language.ext
    intro w
    rw [derivative, language_mkConcat, ih harg, language_mkRepeated arg (by omega)]
    exact (cons_mem_powers_iff hmax).symm

end Tree

end Residual
