import Residual.Proofs.Tree.Merging

/-!
This module contains the grouping of operands at the level of trees. The result of a union or of an
intersection may stand for the operands that it was made of, as what matters about an operand
survives, except that literals lose their identity when they are combined and the empty word may be
dropped. Only a complement of one of these can tell one grouping from another.
-/

namespace Residual

namespace Tree

variable {S S' : Finset Tree} {T : Tree}

section Union

noncomputable def unionOperands (S : Finset Tree) : Finset Tree :=
  (mergeLiterals .union S).erase emptySet

def Saturated (S : Finset Tree) : Prop := full ∈ S ∨ HasComplements S

noncomputable def joined (S : Finset Tree) : Tree :=
  collapse emptySet unionNode (dropEpsilon (unionOperands S))

theorem mkUnion_of_saturated (h : Saturated (unionOperands S)) : mkUnion S = full := if_pos h

theorem mkUnion_of_not_saturated (h : ¬Saturated (unionOperands S)) : mkUnion S = joined S :=
  if_neg h

theorem mem_unionOperands (hT : T.literalSet? = none) :
    T ∈ unionOperands S ↔ T ∈ S ∧ T ≠ emptySet := by
  rw [unionOperands, Finset.mem_erase, and_comm]
  apply and_congr_left
  exact mem_mergeLiterals_of_ne SymbolSet.combines_union hT

theorem Solid.not_isEmpty (h : Solid S) {a : SymbolSet} (ha : Merges .union S a) :
    ¬a.isEmpty = true := by
  obtain ⟨x, l, hl, rfl⟩ := ha
  intro hempty
  apply h x ((hl x).1 List.mem_cons_self)
  rw [SymbolSet.isEmpty_iff] at hempty ⊢
  intro c hc
  exact hempty c (SymbolSet.mem_foldl_union.2 ⟨x, List.mem_cons_self, hc⟩)

theorem solid_unionOperands : Solid (unionOperands S) :=
  (solid_mergeLiterals SymbolSet.combines_union).subset (Finset.erase_subset _ _)

theorem unionOperands_eq (h : Solid S) : unionOperands S = mergeLiterals .union (S.erase emptySet) :=
  (mergeLiterals_erase SymbolSet.combines_union rfl fun _ _ => h.not_isEmpty).symm

theorem unionOperands_nest (h : Solid S) (h' : Solid S') :
    unionOperands (unionOperands S ∪ S') = unionOperands (S ∪ S') := by
  have hmerged := (solid_mergeLiterals SymbolSet.combines_union (S := S)).union h'
  calc unionOperands (unionOperands S ∪ S')
    _ = mergeLiterals .union ((unionOperands S ∪ S').erase emptySet) :=
      unionOperands_eq (solid_unionOperands.union h')
    _ = mergeLiterals .union ((mergeLiterals .union S ∪ S').erase emptySet) := by
      rw [unionOperands, erase_union_erase]
    _ = unionOperands (mergeLiterals .union S ∪ S') := (unionOperands_eq hmerged).symm
    _ = unionOperands (S ∪ S') := by
      rw [unionOperands, mergeLiterals_mergeLiterals_union SymbolSet.combines_union
        fun _ => h.not_isEmpty]
      rfl

theorem unionOperands_erase (S : Finset Tree) :
    unionOperands (S.erase emptyString) = (unionOperands S).erase emptyString := by
  have hne : emptyString ≠ emptySet := Tree.noConfusion
  rw [unionOperands, mergeLiterals_erase SymbolSet.combines_union rfl fun h => absurd h hne,
    Finset.erase_right_comm]
  rfl

theorem unionOperands_erase_union (S S' : Finset Tree) :
    (unionOperands (S.erase emptyString ∪ S')).erase emptyString =
      (unionOperands (S ∪ S')).erase emptyString := by
  rw [← unionOperands_erase, erase_union_erase, unionOperands_erase]

theorem mem_unionOperands_union (h : T ∈ unionOperands S) (hT : T.nullable) :
    T ∈ unionOperands (S ∪ S') := by
  rw [mem_unionOperands (literalSet?_of_nullable hT)] at h ⊢
  exact ⟨Finset.mem_union_left S' h.1, h.2⟩

theorem dropEpsilon_nest (h : Solid S) (h' : Solid S') :
    dropEpsilon (unionOperands (dropEpsilon (unionOperands S) ∪ S')) =
      dropEpsilon (unionOperands (S ∪ S')) := by
  by_cases hredundant : ∃ T ∈ unionOperands S, T ≠ emptyString ∧ T.nullable
  · have hdrop : dropEpsilon (unionOperands S) = (unionOperands S).erase emptyString :=
      if_pos hredundant
    -- the operand that makes the empty word redundant is no literal and stays
    obtain ⟨T, hT, hne, hnull⟩ := hredundant
    have hkept : T ∈ unionOperands ((unionOperands S).erase emptyString ∪ S') := by
      rw [mem_unionOperands (literalSet?_of_nullable hnull)]
      refine ⟨Finset.mem_union_left S' (Finset.mem_erase.2 ⟨hne, hT⟩), ?_⟩
      exact ne_emptySet_of_nullable hnull
    rw [hdrop, dropEpsilon, if_pos ⟨T, hkept, hne, hnull⟩, unionOperands_erase_union,
      unionOperands_nest h h', dropEpsilon, if_pos ⟨T, mem_unionOperands_union hT hnull, hne, hnull⟩]
  · rw [dropEpsilon.eq_def (unionOperands S), if_neg hredundant, unionOperands_nest h h']

theorem unionArgs_collapse (h : ∀ T ∈ S, T.unionArgs = {T}) (h' : Solid S') :
    unionOperands ((collapse emptySet unionNode S).unionArgs ∪ S') = unionOperands (S ∪ S') := by
  obtain ⟨rfl, hcollapse⟩ | ⟨T, rfl, hcollapse⟩ | hcollapse := collapse_cases emptySet unionNode S
  · have hempty : Solid {emptySet} := by
      intro a ha
      cases Finset.mem_singleton.1 ha
    have hargs : unionArgs emptySet = {emptySet} := rfl
    rw [hcollapse, hargs, unionOperands_eq (hempty.union h'), Finset.empty_union,
      unionOperands_eq h', Finset.erase_union_distrib, Finset.erase_singleton, Finset.empty_union]
  · rw [hcollapse, h T (Finset.mem_singleton_self T)]
  · rw [hcollapse, unionArgs_unionNode]

theorem mem_dropEpsilon_of_ne (h : T ≠ emptyString) : T ∈ dropEpsilon S ↔ T ∈ S := by
  unfold dropEpsilon
  split
  · rw [Finset.mem_erase, and_iff_right h]
  · rfl

theorem mem_unionOperands_dropEpsilon (hlit : T.literalSet? = none) (hne : T ≠ emptyString) :
    T ∈ unionOperands (dropEpsilon (unionOperands S) ∪ S') ↔ T ∈ unionOperands (S ∪ S') := by
  rw [mem_unionOperands hlit, mem_unionOperands hlit, Finset.mem_union, Finset.mem_union,
    mem_dropEpsilon_of_ne hne, mem_unionOperands hlit]
  tauto

theorem saturated_mono (hcomplement : ∀ T, negation T ∈ S → T.literalSet? = none)
    (h : Saturated (unionOperands S)) : Saturated (unionOperands (S ∪ S')) := by
  have hmem : ∀ T, T.literalSet? = none → T ∈ unionOperands S → T ∈ unionOperands (S ∪ S') := by
    intro T hlit hT
    rw [mem_unionOperands hlit] at hT ⊢
    exact ⟨Finset.mem_union_left S' hT.1, hT.2⟩
  obtain h | ⟨T, hT, hnegation⟩ := h
  · exact .inl (hmem full rfl h)
  · have hlit := hcomplement T ((mem_unionOperands rfl).1 hnegation).1
    exact .inr ⟨T, hmem T hlit hT, hmem (negation T) rfl hnegation⟩

theorem saturated_dropEpsilon
    (hcomplement : ∀ T, negation T ∈ S ∪ S' → T.literalSet? = none ∧ T ≠ emptyString) :
    Saturated (unionOperands (dropEpsilon (unionOperands S) ∪ S')) ↔
      Saturated (unionOperands (S ∪ S')) := by
  have hnegation : ∀ T, negation T ∈ unionOperands (dropEpsilon (unionOperands S) ∪ S') ↔
      negation T ∈ unionOperands (S ∪ S') :=
    fun T => mem_unionOperands_dropEpsilon rfl Tree.noConfusion
  apply or_congr (hnegation emptySet)
  apply exists_congr
  intro T
  rw [hnegation T]
  apply and_congr_left
  intro hT
  obtain ⟨hlit, hne⟩ := hcomplement T ((mem_unionOperands rfl).1 hT).1
  exact mem_unionOperands_dropEpsilon hlit hne

theorem mkUnion_full_union (S : Finset Tree) : mkUnion (full.unionArgs ∪ S) = full := by
  apply mkUnion_of_saturated
  left
  rw [mem_unionOperands rfl]
  exact ⟨Finset.mem_union_left S (Finset.mem_singleton_self full), Tree.noConfusion⟩

section Nest

variable (hS : Operands unionArgs S) (hS' : Operands unionArgs S')

include hS hS'

theorem unionOperands_mkUnion (h : ¬Saturated (unionOperands S)) :
    unionOperands ((mkUnion S).unionArgs ∪ S') =
      unionOperands (dropEpsilon (unionOperands S) ∪ S') := by
  rw [mkUnion_of_not_saturated h, joined]
  apply unionArgs_collapse _ hS'.solid
  intro T hT
  apply flat_mergeLiterals SymbolSet.combines_union unionArgs_mkLiteral hS.flat
  exact Finset.mem_of_mem_erase (dropEpsilon_subset _ hT)

theorem mkUnion_nest :
    mkUnion ((mkUnion S).unionArgs ∪ S') = full ∨
      mkUnion ((mkUnion S).unionArgs ∪ S') = joined (S ∪ S') := by
  by_cases h : Saturated (unionOperands S)
  · left
    rw [mkUnion_of_saturated h, mkUnion_full_union]
  · by_cases h' : Saturated (unionOperands ((mkUnion S).unionArgs ∪ S'))
    · exact .inl (mkUnion_of_saturated h')
    · right
      rw [mkUnion_of_not_saturated h', joined, unionOperands_mkUnion hS hS' h,
        dropEpsilon_nest hS.solid hS'.solid, joined]

theorem mkUnion_nest_eq
    (hcomplement : ∀ T, negation T ∈ S ∪ S' → T.literalSet? = none ∧ T ≠ emptyString) :
    mkUnion ((mkUnion S).unionArgs ∪ S') = mkUnion (S ∪ S') := by
  by_cases h : Saturated (unionOperands S)
  · have hsaturated : Saturated (unionOperands (S ∪ S')) :=
      saturated_mono (fun T hT => (hcomplement T (Finset.mem_union_left S' hT)).1) h
    rw [mkUnion_of_saturated h, mkUnion_of_saturated hsaturated, mkUnion_full_union]
  · have hoperands := unionOperands_mkUnion hS hS' h
    have hiff := saturated_dropEpsilon hcomplement
    rw [← hoperands] at hiff
    by_cases h' : Saturated (unionOperands (S ∪ S'))
    · rw [mkUnion_of_saturated (hiff.2 h'), mkUnion_of_saturated h']
    · rw [mkUnion_of_not_saturated (mt hiff.1 h'), mkUnion_of_not_saturated h', joined, hoperands,
        dropEpsilon_nest hS.solid hS'.solid, joined]

end Nest

end Union

section Inter

noncomputable def interOperands (S : Finset Tree) : Finset Tree :=
  (mergeLiterals .inter S).erase full

def Refuted (S : Finset Tree) : Prop := emptySet ∈ S ∨ HasComplements S

theorem mkInter_of_refuted (h : Refuted (interOperands S)) : mkInter S = emptySet := if_pos h

theorem mkInter_congr (h : interOperands S = interOperands S') : mkInter S = mkInter S' := by
  have h : (mergeLiterals .inter S).erase full = (mergeLiterals .inter S').erase full := h
  rw [mkInter, mkInter, h]

theorem mem_interOperands (hlit : T.literalSet? = none) (hne : T ≠ emptySet) :
    T ∈ interOperands S ↔ T ∈ S ∧ T ≠ full := by
  rw [interOperands, Finset.mem_erase, and_comm, mem_mergeLiterals_of_ne SymbolSet.combines_inter hlit hne]

theorem mkLiteral_mem_interOperands {a : SymbolSet} (h : Merges .inter S a) :
    mkLiteral a ∈ interOperands S := by
  rw [interOperands, Finset.mem_erase, mem_mergeLiterals SymbolSet.combines_inter]
  refine ⟨?_, .inr ⟨a, h, rfl⟩⟩
  unfold mkLiteral
  split <;> exact Tree.noConfusion

theorem emptySet_mem_interOperands (h : emptySet ∈ S) : emptySet ∈ interOperands S := by
  rw [interOperands, Finset.mem_erase, mem_mergeLiterals SymbolSet.combines_inter]
  exact ⟨Tree.noConfusion, .inl ⟨h, rfl⟩⟩

theorem exists_merges {f : SymbolSet → SymbolSet → SymbolSet} {a : SymbolSet}
    (h : literal a ∈ S) : ∃ b, Merges f S b := by
  obtain ⟨l, hl⟩ := exists_literals S
  cases l with
  | nil => exact absurd ((hl a).2 h) List.not_mem_nil
  | cons x l => exact ⟨_, x, l, hl, rfl⟩

theorem mem_of_merges_inter {a : SymbolSet} {c : Char} (h : Merges .inter S a) :
    c ∈ a ↔ ∀ x, literal x ∈ S → c ∈ x := by
  obtain ⟨x, l, hl, rfl⟩ := h
  rw [SymbolSet.mem_foldl_inter]
  exact forall_congr' fun z => imp_congr_left (hl z)

theorem not_nullable_mkLiteral (a : SymbolSet) : ¬(mkLiteral a).nullable := by
  intro h
  rw [nullable, language_mkLiteral] at h
  obtain ⟨c, _, hc⟩ := mem_language_literal.1 h
  contradiction

theorem forall_nullable_interOperands :
    (∀ T ∈ interOperands S, T.nullable) ↔ ∀ T ∈ S, T.nullable := by
  constructor
  · intro h T hT
    cases hlit : T.literalSet? with
    | some a =>
      rw [literalSet?_eq_some_iff] at hlit
      obtain ⟨b, hb⟩ := exists_merges (f := .inter) (hlit ▸ hT)
      exact absurd (h _ (mkLiteral_mem_interOperands hb)) (not_nullable_mkLiteral b)
    | none =>
      by_cases hempty : T = emptySet
      · subst hempty
        exact h _ (emptySet_mem_interOperands hT)
      · by_cases hfull : T = full
        · rw [hfull]
          exact mem_language_full []
        · exact h T ((mem_interOperands hlit hempty).2 ⟨hT, hfull⟩)
  · intro h T hT
    rcases (mem_mergeLiterals SymbolSet.combines_inter).1 (Finset.mem_of_mem_erase hT) with
      ⟨hT, _⟩ | ⟨a, ⟨x, l, hl, _⟩, _⟩
    · exact h T hT
    · have hnull := literalSet?_of_nullable (h _ ((hl x).1 List.mem_cons_self))
      contradiction

theorem mkInter_of_emptyString (h : emptyString ∈ S) :
    mkInter S = if ∀ T ∈ S, T.nullable then emptyString else emptySet := by
  have hmem : emptyString ∈ interOperands S :=
    (mem_interOperands rfl Tree.noConfusion).2 ⟨h, Tree.noConfusion⟩
  by_cases hrefuted : Refuted (interOperands S)
  · rw [mkInter_of_refuted hrefuted, if_neg]
    rw [← forall_nullable_interOperands]
    obtain hempty | hcomplements := hrefuted
    · exact fun hall => ne_emptySet_of_nullable (hall _ hempty) rfl
    · exact hcomplements.not_forall_mem []
  · have hinter : mkInter S =
        if ∀ T ∈ interOperands S, T.nullable then emptyString else emptySet :=
      (if_neg hrefuted).trans (if_pos hmem)
    rw [hinter]
    simp only [forall_nullable_interOperands]

theorem mkInter_emptySet_union (S : Finset Tree) :
    mkInter (emptySet.interArgs ∪ S) = emptySet := by
  apply mkInter_of_refuted
  left
  exact emptySet_mem_interOperands (Finset.mem_union_left S (Finset.mem_singleton_self emptySet))

theorem interOperands_eq (S : Finset Tree) :
    interOperands S = mergeLiterals .inter (S.erase full) := by
  have hne : full ≠ emptySet := Tree.noConfusion
  exact (mergeLiterals_erase SymbolSet.combines_inter rfl fun h => absurd h hne).symm

theorem interOperands_nest (h : emptySet ∉ interOperands S) :
    interOperands (interOperands S ∪ S') = interOperands (S ∪ S') := by
  have hmerges : ∀ a, Merges .inter S a → ¬a.isEmpty = true := by
    intro a ha hempty
    have hmem := mkLiteral_mem_interOperands ha
    rw [mkLiteral, if_pos hempty] at hmem
    exact h hmem
  calc interOperands (interOperands S ∪ S')
    _ = mergeLiterals .inter ((interOperands S ∪ S').erase full) := interOperands_eq _
    _ = mergeLiterals .inter ((mergeLiterals .inter S ∪ S').erase full) := by
      rw [interOperands, erase_union_erase]
    _ = interOperands (mergeLiterals .inter S ∪ S') := (interOperands_eq _).symm
    _ = interOperands (S ∪ S') := by
      rw [interOperands, mergeLiterals_mergeLiterals_union SymbolSet.combines_inter hmerges]
      rfl

theorem interArgs_collapse (h : ∀ T ∈ S, T.interArgs = {T}) (S' : Finset Tree) :
    interOperands ((collapse full interNode S).interArgs ∪ S') = interOperands (S ∪ S') := by
  obtain ⟨rfl, hcollapse⟩ | ⟨T, rfl, hcollapse⟩ | hcollapse := collapse_cases full interNode S
  · have hargs : interArgs full = {full} := rfl
    rw [hcollapse, hargs, interOperands_eq, Finset.empty_union, interOperands_eq,
      Finset.erase_union_distrib, Finset.erase_singleton, Finset.empty_union]
  · rw [hcollapse, h T (Finset.mem_singleton_self T)]
  · rw [hcollapse, interArgs_interNode]

theorem refuted_mono (hcomplement : ∀ T, negation T ∈ S → T.literalSet? = none)
    (h : Refuted (interOperands S)) : Refuted (interOperands (S ∪ S')) := by
  obtain h | ⟨T, hT, hnegation⟩ := h
  · left
    rcases (mem_mergeLiterals SymbolSet.combines_inter).1 (Finset.mem_of_mem_erase h) with
      ⟨h, _⟩ | ⟨a, ha, heq⟩
    · exact emptySet_mem_interOperands (Finset.mem_union_left S' h)
    -- with more literals, the combined one still has no symbols
    · have hempty : a.isEmpty = true := by
        by_contra hne
        rw [mkLiteral_eq_literal hne] at heq
        contradiction
      obtain ⟨x, l, hl, _⟩ := id ha
      have hx : literal x ∈ S ∪ S' := Finset.mem_union_left S' ((hl x).1 List.mem_cons_self)
      obtain ⟨b, hb⟩ := exists_merges (f := .inter) hx
      have hmem := mkLiteral_mem_interOperands hb
      rw [mkLiteral, if_pos] at hmem
      · exact hmem
      rw [SymbolSet.isEmpty_iff] at hempty ⊢
      intro c hc
      apply hempty c
      rw [mem_of_merges_inter ha]
      intro z hz
      exact (mem_of_merges_inter hb).1 hc z (Finset.mem_union_left S' hz)
  · have hmem : ∀ U, U.literalSet? = none → U ≠ emptySet → U ∈ interOperands S →
        U ∈ interOperands (S ∪ S') := by
      intro U hlit hne hU
      rw [mem_interOperands hlit hne] at hU ⊢
      exact ⟨Finset.mem_union_left S' hU.1, hU.2⟩
    have hneg := (mem_interOperands rfl Tree.noConfusion).1 hnegation
    have hne : T ≠ emptySet := by
      rintro rfl
      exact hneg.2 rfl
    exact .inr ⟨T, hmem T (hcomplement T hneg.1) hne hT,
      hmem (negation T) rfl Tree.noConfusion hnegation⟩

section Nest

variable (hS : Operands interArgs S)

include hS

theorem interOperands_mkInter (h : ¬Refuted (interOperands S)) (hepsilon : emptyString ∉ S) :
    interOperands ((mkInter S).interArgs ∪ S') = interOperands (S ∪ S') := by
  have hmem : emptyString ∉ interOperands S := by
    rw [mem_interOperands rfl Tree.noConfusion]
    exact fun h => hepsilon h.1
  have hinter : mkInter S = collapse full interNode (interOperands S) :=
    (if_neg h).trans (if_neg hmem)
  have hflat : ∀ T ∈ interOperands S, T.interArgs = {T} := fun T hT =>
    flat_mergeLiterals SymbolSet.combines_inter interArgs_mkLiteral hS.flat T
      (Finset.mem_of_mem_erase hT)
  rw [hinter, interArgs_collapse hflat, interOperands_nest fun hempty => h (.inl hempty)]

theorem mkInter_nest_of_not_refuted (h : ¬Refuted (interOperands S)) :
    mkInter ((mkInter S).interArgs ∪ S') = mkInter (S ∪ S') := by
  -- with the empty word among the operands only their nullability counts
  by_cases hepsilon : emptyString ∈ S
  · rw [mkInter_of_emptyString (Finset.mem_union_left S' hepsilon), mkInter_of_emptyString hepsilon]
    by_cases hall : ∀ T ∈ S, T.nullable
    · have hargs : interArgs emptyString = {emptyString} := rfl
      rw [if_pos hall, hargs, mkInter_of_emptyString
        (Finset.mem_union_left S' (Finset.mem_singleton_self emptyString))]
      have hiff : (∀ T ∈ {emptyString} ∪ S', T.nullable) ↔ ∀ T ∈ S ∪ S', T.nullable := by
        simp only [Finset.forall_mem_union, Finset.mem_singleton, forall_eq]
        exact and_congr_left' (iff_of_true (hall _ hepsilon) hall)
      simp only [hiff]
    · have hnot : ¬∀ T ∈ S ∪ S', T.nullable :=
        fun h => hall fun T hT => h T (Finset.mem_union_left S' hT)
      rw [if_neg hall, if_neg hnot, mkInter_emptySet_union]
  · exact mkInter_congr (interOperands_mkInter hS h hepsilon)

theorem mkInter_nest :
    mkInter ((mkInter S).interArgs ∪ S') = emptySet ∨
      mkInter ((mkInter S).interArgs ∪ S') = mkInter (S ∪ S') := by
  by_cases h : Refuted (interOperands S)
  · left
    rw [mkInter_of_refuted h, mkInter_emptySet_union]
  · exact .inr (mkInter_nest_of_not_refuted hS h)

theorem mkInter_nest_eq (hcomplement : ∀ T, negation T ∈ S ∪ S' → T.literalSet? = none) :
    mkInter ((mkInter S).interArgs ∪ S') = mkInter (S ∪ S') := by
  by_cases h : Refuted (interOperands S)
  · have hrefuted : Refuted (interOperands (S ∪ S')) :=
      refuted_mono (fun T hT => hcomplement T (Finset.mem_union_left S' hT)) h
    rw [mkInter_of_refuted h, mkInter_of_refuted hrefuted, mkInter_emptySet_union]
  · exact mkInter_nest_of_not_refuted hS h

end Nest

end Inter

section Regrouping

structure Regroups (join : Finset Tree → Tree) (args : Tree → Finset Tree) (zero : Tree)
    (joined : Finset Tree → Tree) (fragile : Tree → Prop) : Prop where
  cases : ∀ S S', Operands args S → Operands args S' →
    join (args (join S) ∪ S') = zero ∨ join (args (join S) ∪ S') = joined (S ∪ S')
  eq : ∀ S S', Operands args S → Operands args S' → (∀ T ∈ S ∪ S', ¬fragile T) →
    join (args (join S) ∪ S') = join (S ∪ S')

def IsCoLiteral (T : Tree) : Prop := ∃ a, T = negation (literal a)

theorem literalSet?_of_not_isCoLiteral (h : ¬(negation T).IsCoLiteral) : T.literalSet? = none := by
  cases hlit : T.literalSet? with
  | none => rfl
  | some a =>
    rw [literalSet?_eq_some_iff] at hlit
    exact absurd ⟨a, congrArg negation hlit⟩ h

theorem mkUnionList_pair (X Y : Tree) : mkUnionList {X, Y} = mkUnion (X.unionArgs ∪ Y.unionArgs) := by
  rw [mkUnionList, Finset.biUnion_insert, Finset.singleton_biUnion]

theorem mkInterList_pair (X Y : Tree) : mkInterList {X, Y} = mkInter (X.interArgs ∪ Y.interArgs) := by
  rw [mkInterList, Finset.biUnion_insert, Finset.singleton_biUnion]

theorem regroups_union :
    Regroups mkUnion unionArgs full joined fun T => T.IsCoLiteral ∨ T = negation emptyString where
  cases S S' hS hS' := mkUnion_nest hS hS'
  eq S S' hS hS' h := by
    apply mkUnion_nest_eq hS hS'
    intro T hT
    obtain ⟨hlit, hne⟩ := not_or.1 (h _ hT)
    exact ⟨literalSet?_of_not_isCoLiteral hlit, fun heq => hne (congrArg negation heq)⟩

theorem regroups_inter : Regroups mkInter interArgs emptySet mkInter IsCoLiteral where
  cases S S' hS _ := mkInter_nest hS
  eq S S' hS _ h := by
    apply mkInter_nest_eq hS
    intro T hT
    exact literalSet?_of_not_isCoLiteral (h _ hT)

theorem Regroups.grouping {join : Finset Tree → Tree} {args : Tree → Finset Tree} {zero : Tree}
    {joined : Finset Tree → Tree} {fragile : Tree → Prop}
    (h : Regroups join args zero joined fragile) {A B C : Finset Tree} (hA : Operands args A)
    (hB : Operands args B) (hC : Operands args C)
    (hne : join (args (join (A ∪ B)) ∪ C) ≠ join (A ∪ args (join (B ∪ C)))) :
    (join (args (join (A ∪ B)) ∪ C) = zero ∨ join (A ∪ args (join (B ∪ C))) = zero) ∧
      ∃ T ∈ A ∪ B ∪ C, fragile T := by
  have hassoc : B ∪ C ∪ A = A ∪ B ∪ C := by rw [Finset.union_comm, Finset.union_assoc]
  rw [Finset.union_comm A (args (join (B ∪ C)))] at hne ⊢
  -- a grouping that is not `zero` joins all operands at once, like the other one
  constructor
  · have hright := h.cases _ _ (hB.union hC) hA
    rw [hassoc] at hright
    obtain hleft | hleft := h.cases _ _ (hA.union hB) hC
    · exact .inl hleft
    obtain hright | hright := hright
    · exact .inr hright
    · exact absurd (hleft.trans hright.symm) hne
  · by_contra hfragile
    push Not at hfragile
    apply hne
    rw [h.eq _ _ (hA.union hB) hC hfragile, h.eq _ _ (hB.union hC) hA (hassoc ▸ hfragile), hassoc]

end Regrouping

end Tree

end Residual
