import Residual.Proofs.Tree.Build

/-!
This module contains what is done to the operands of a union or of an intersection before they are
joined. Literals may be combined in several steps, unless nothing is left of them on the way.
-/

namespace Residual

namespace Tree

variable {S S' : Finset Tree} {T E : Tree}

section Merge

variable {f : SymbolSet → SymbolSet → SymbolSet} {a b : SymbolSet}

def Merges (f : SymbolSet → SymbolSet → SymbolSet) (S : Finset Tree) (a : SymbolSet) : Prop :=
  ∃ x l, (∀ z, z ∈ x :: l ↔ literal z ∈ S) ∧ l.foldl f x = a

theorem Merges.unique (hf : SymbolSet.Combines f) (ha : Merges f S a) (hb : Merges f S b) :
    a = b := by
  obtain ⟨x, l, hl, rfl⟩ := ha
  obtain ⟨y, m, hm, rfl⟩ := hb
  exact hf fun z => (hl z).trans (hm z).symm

theorem exists_literals (S : Finset Tree) : ∃ l : List SymbolSet, ∀ z, z ∈ l ↔ literal z ∈ S := by
  refine ⟨S.toList.filterMap literalSet?, fun z => ?_⟩
  rw [mem_filterMap_literalSet?, Finset.mem_toList]

theorem literalSet?_mkLiteral : (mkLiteral a).literalSet? = none ↔ mkLiteral a = emptySet := by
  unfold mkLiteral
  split
  · exact iff_of_true rfl rfl
  · exact iff_of_false nofun nofun

theorem mkLiteral_eq_literal (h : ¬a.isEmpty = true) : mkLiteral a = literal a := if_neg h

theorem mem_mergeLiterals (hf : SymbolSet.Combines f) : T ∈ mergeLiterals f S ↔
    (T ∈ S ∧ T.literalSet? = none) ∨ ∃ a, Merges f S a ∧ T = mkLiteral a := by
  obtain ⟨hnone, h⟩ | ⟨x, l, hl, h⟩ := mergeLiterals_cases f S
  · rw [h]
    constructor
    · intro hT
      cases hlit : T.literalSet? with
      | none => exact .inl ⟨hT, rfl⟩
      | some set =>
        rw [literalSet?_eq_some_iff] at hlit
        exact absurd (hlit ▸ hT) (hnone set)
    · rintro (⟨hT, _⟩ | ⟨a, ⟨x, l, hl, _⟩, _⟩)
      · exact hT
      · exact absurd ((hl x).1 List.mem_cons_self) (hnone x)
  · rw [h, Finset.mem_insert, Finset.mem_filter, or_comm]
    apply or_congr_right
    constructor
    · rintro rfl
      exact ⟨_, ⟨x, l, hl, rfl⟩, rfl⟩
    · rintro ⟨a, ha, rfl⟩
      rw [ha.unique hf ⟨x, l, hl, rfl⟩]

theorem mem_mergeLiterals_of_ne (hf : SymbolSet.Combines f) (hT : T.literalSet? = none)
    (hne : T ≠ emptySet) : T ∈ mergeLiterals f S ↔ T ∈ S := by
  rw [mem_mergeLiterals hf]
  constructor
  · rintro (⟨h, _⟩ | ⟨a, _, rfl⟩)
    · exact h
    · exact absurd (literalSet?_mkLiteral.1 hT) hne
  · intro h
    exact .inl ⟨h, hT⟩

theorem mergeLiterals_mergeLiterals_union (hf : SymbolSet.Combines f)
    (h : ∀ a, Merges f S a → ¬a.isEmpty = true) :
    mergeLiterals f (mergeLiterals f S ∪ S') = mergeLiterals f (S ∪ S') := by
  obtain ⟨hnone, heq⟩ | ⟨x, l, hl, heq⟩ := mergeLiterals_cases f S
  · rw [heq]
  have hmerged : Merges f S (l.foldl f x) := ⟨x, l, hl, rfl⟩
  have hlit : mkLiteral (l.foldl f x) = literal (l.foldl f x) := mkLiteral_eq_literal (h _ hmerged)
  -- the order does not matter: the literals of `S'` can be combined last on both sides
  obtain ⟨m, hm⟩ := exists_literals S'
  have hleft : Merges f (mergeLiterals f S ∪ S') (m.foldl f (l.foldl f x)) := by
    refine ⟨l.foldl f x, m, fun z => ?_, rfl⟩
    rw [Finset.mem_union, heq, Finset.mem_insert, Finset.mem_filter, hlit, List.mem_cons, hm]
    simp [literalSet?]
  have hright : Merges f (S ∪ S') (m.foldl f (l.foldl f x)) := by
    refine ⟨x, l ++ m, fun z => ?_, List.foldl_append⟩
    rw [← List.cons_append, List.mem_append, hl, hm, Finset.mem_union]
  ext T
  rw [mem_mergeLiterals hf, mem_mergeLiterals hf]
  apply or_congr
  · rw [Finset.mem_union, Finset.mem_union]
    apply and_congr_left
    intro hT
    apply or_congr_left
    rw [heq, Finset.mem_insert, Finset.mem_filter, hlit]
    constructor
    · rintro (rfl | ⟨h, _⟩)
      · contradiction
      · exact h
    · intro h
      exact .inr ⟨h, hT⟩
  · apply exists_congr
    intro a
    apply and_congr_left'
    constructor
    · intro ha
      rw [ha.unique hf hleft]
      exact hright
    · intro ha
      rw [ha.unique hf hright]
      exact hleft

theorem mergeLiterals_erase (hf : SymbolSet.Combines f) (hE : E.literalSet? = none)
    (h : E = emptySet → ∀ a, Merges f S a → ¬a.isEmpty = true) :
    mergeLiterals f (S.erase E) = (mergeLiterals f S).erase E := by
  have hmerges : ∀ a, Merges f (S.erase E) a ↔ Merges f S a := by
    intro a
    apply exists_congr
    intro x
    apply exists_congr
    intro l
    apply and_congr_left'
    apply forall_congr'
    intro z
    rw [Finset.mem_erase]
    apply iff_congr Iff.rfl
    apply and_iff_right
    rintro rfl
    contradiction
  ext T
  rw [mem_mergeLiterals hf, Finset.mem_erase, Finset.mem_erase, mem_mergeLiterals hf]
  simp only [hmerges]
  constructor
  · rintro (⟨⟨hne, hT⟩, hlit⟩ | ⟨a, ha, rfl⟩)
    · exact ⟨hne, .inl ⟨hT, hlit⟩⟩
    · refine ⟨?_, .inr ⟨a, ha, rfl⟩⟩
      rintro rfl
      have hempty := literalSet?_mkLiteral.1 hE
      have ha' := h hempty a ha
      rw [mkLiteral_eq_literal ha'] at hempty
      contradiction
  · rintro ⟨hne, ⟨hT, hlit⟩ | ⟨a, ha, rfl⟩⟩
    · exact .inl ⟨⟨hne, hT⟩, hlit⟩
    · exact .inr ⟨a, ha, rfl⟩

end Merge

section Nullable

theorem literalSet?_of_nullable (h : T.nullable) : T.literalSet? = none := by
  cases T with
  | literal set =>
    obtain ⟨c, _, hc⟩ := mem_language_literal.1 h
    contradiction
  | _ => rfl

theorem ne_emptySet_of_nullable (h : T.nullable) : T ≠ emptySet := by
  rintro rfl
  exact Language.notMem_zero [] h

end Nullable

theorem erase_union_erase (S S' : Finset Tree) (E : Tree) :
    (S.erase E ∪ S').erase E = (S ∪ S').erase E := by
  rw [Finset.erase_union_distrib, Finset.erase_union_distrib, Finset.erase_idem]

def Solid (S : Finset Tree) : Prop := ∀ a, literal a ∈ S → ¬a.isEmpty = true

theorem Solid.union (h : Solid S) (h' : Solid S') : Solid (S ∪ S') := by
  intro a ha
  rcases Finset.mem_union.1 ha with ha | ha
  · exact h a ha
  · exact h' a ha

theorem Solid.subset (h : Solid S) (hsub : S' ⊆ S) : Solid S' := fun a ha => h a (hsub ha)

theorem solid_mergeLiterals {f : SymbolSet → SymbolSet → SymbolSet} (hf : SymbolSet.Combines f) :
    Solid (mergeLiterals f S) := by
  intro a ha hempty
  obtain ⟨_, hlit⟩ | ⟨b, _, hb⟩ := (mem_mergeLiterals hf).1 ha
  · contradiction
  · unfold mkLiteral at hb
    split at hb
    · contradiction
    next hne =>
      cases hb
      exact hne hempty

structure Operands (args : Tree → Finset Tree) (S : Finset Tree) : Prop where
  flat : ∀ T ∈ S, args T = {T}
  solid : Solid S

theorem Operands.union {args : Tree → Finset Tree} (h : Operands args S) (h' : Operands args S') :
    Operands args (S ∪ S') where
  flat := by
    intro T hT
    rcases Finset.mem_union.1 hT with hT | hT
    · exact h.flat T hT
    · exact h'.flat T hT
  solid := h.solid.union h'.solid

theorem flat_mergeLiterals {args : Tree → Finset Tree} {f : SymbolSet → SymbolSet → SymbolSet}
    (hf : SymbolSet.Combines f) (hliteral : ∀ a, args (mkLiteral a) = {mkLiteral a})
    (h : ∀ T ∈ S, args T = {T}) : ∀ T ∈ mergeLiterals f S, args T = {T} := by
  intro T hT
  obtain ⟨hT, _⟩ | ⟨a, _, rfl⟩ := (mem_mergeLiterals hf).1 hT
  · exact h T hT
  · exact hliteral a

theorem unionArgs_mkLiteral (a : SymbolSet) : (mkLiteral a).unionArgs = {mkLiteral a} := by
  unfold mkLiteral
  split <;> rfl

theorem interArgs_mkLiteral (a : SymbolSet) : (mkLiteral a).interArgs = {mkLiteral a} := by
  unfold mkLiteral
  split <;> rfl

end Tree

end Residual
