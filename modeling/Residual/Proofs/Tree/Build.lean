import Residual.Proofs.Tree.Basic

/-!
This module contains the operations that build trees, with the same simplifications as those of a
store, and the languages of their results.
-/

namespace Residual

open Computability

namespace SymbolSet

theorem isEmpty_iff {s : SymbolSet} : s.isEmpty = true ↔ ∀ c, c ∉ s := by
  rw [isEmpty, Array.isEmpty_iff, Array.eq_empty_iff_forall_not_mem]
  rfl

theorem mem_foldl_union {sets : List SymbolSet} {set : SymbolSet} {c : Char} :
    c ∈ sets.foldl union set ↔ ∃ x ∈ set :: sets, c ∈ x := by
  induction sets generalizing set with
  | nil => simp
  | cons x sets ih =>
    rw [List.foldl_cons, ih]
    simp only [List.mem_cons, exists_eq_or_imp, mem_union, or_assoc]

theorem mem_foldl_inter {sets : List SymbolSet} {set : SymbolSet} {c : Char} :
    c ∈ sets.foldl inter set ↔ ∀ x ∈ set :: sets, c ∈ x := by
  induction sets generalizing set with
  | nil => simp
  | cons x sets ih =>
    rw [List.foldl_cons, ih]
    simp only [List.mem_cons, forall_eq_or_imp, mem_inter, and_assoc]

def Combines (f : SymbolSet → SymbolSet → SymbolSet) : Prop :=
  ∀ {x y : SymbolSet} {l m : List SymbolSet}, (∀ z, z ∈ x :: l ↔ z ∈ y :: m) →
    l.foldl f x = m.foldl f y

theorem combines_union : Combines union := by
  intro x y l m h
  apply SymbolSet.ext
  intro c
  rw [mem_foldl_union, mem_foldl_union]
  exact exists_congr fun z => and_congr_left' (h z)

theorem combines_inter : Combines inter := by
  intro x y l m h
  apply SymbolSet.ext
  intro c
  rw [mem_foldl_inter, mem_foldl_inter]
  exact forall_congr' fun z => imp_congr_left (h z)

end SymbolSet

namespace Tree

section Literal

noncomputable def mkLiteral (set : SymbolSet) : Tree :=
  if set.isEmpty then emptySet else literal set

theorem mem_language_literal {set : SymbolSet} {w : List Char} :
    w ∈ (literal set).language ↔ ∃ c ∈ set, w = [c] :=
  Iff.rfl

theorem language_mkLiteral (set : SymbolSet) : (mkLiteral set).language = (literal set).language := by
  unfold mkLiteral
  split
  next h =>
    apply Language.ext
    intro w
    rw [mem_language_literal, language]
    simp [SymbolSet.isEmpty_iff.1 h]
  · rfl

end Literal

section Concat

def factors : Tree → List Tree
  | concat left right => left :: right.factors
  | T => [T]

def append (T U : Tree) : Tree := T.factors.foldr concat U

theorem factors_append (T U : Tree) : (T.append U).factors = T.factors ++ U.factors := by
  unfold append
  generalize T.factors = l
  induction l with
  | nil => rfl
  | cons x l ih => rw [List.foldr_cons, factors, ih, List.cons_append]

theorem append_assoc (T U V : Tree) : (T.append U).append V = T.append (U.append V) := by
  rw [append, factors_append, List.foldr_append]
  rfl

theorem append_concat (T U V : Tree) : (concat T U).append V = concat T (U.append V) := rfl

theorem language_append (T U : Tree) : (T.append U).language = T.language * U.language := by
  induction T with
  | concat left right _ ih => rw [append_concat, language, ih, language, mul_assoc]
  | _ => rfl

open Classical in
noncomputable def mkConcat (T U : Tree) : Tree :=
  if T = emptySet ∨ U = emptySet then emptySet
  else if T = emptyString then U
  else if U = emptyString then T
  else if U = full ∧ T.nullable then full
  else T.append U

theorem mem_language_full (w : List Char) : w ∈ full.language := by
  show w ∉ (0 : Language Char)
  simp

theorem language_mkConcat (T U : Tree) : (T.mkConcat U).language = T.language * U.language := by
  unfold mkConcat
  repeat' split
  next h =>
    rcases h with rfl | rfl
    · simp [language]
    · simp [language]
  next h =>
    subst h
    simp [language]
  next h =>
    subst h
    simp [language]
  next h =>
    obtain ⟨rfl, hT⟩ := h
    apply Language.ext
    intro w
    simp only [mem_language_full, true_iff]
    exact Language.append_mem_mul (a := []) hT (mem_language_full w)
  · apply language_append

end Concat

section Operands

def literalSet? : Tree → Option SymbolSet
  | literal set => some set
  | _ => none

theorem literalSet?_eq_some_iff {T : Tree} {set : SymbolSet} :
    T.literalSet? = some set ↔ T = literal set := by
  cases T <;> simp [literalSet?]

noncomputable def mergeLiterals (f : SymbolSet → SymbolSet → SymbolSet) (S : Finset Tree) :
    Finset Tree :=
  let others := S.filter fun T => T.literalSet? = none
  match S.toList.filterMap literalSet? with
  | [] => others
  | set :: sets => insert (mkLiteral (sets.foldl f set)) others

theorem mem_filterMap_literalSet? {l : List Tree} {set : SymbolSet} :
    set ∈ l.filterMap literalSet? ↔ literal set ∈ l := by
  simp [literalSet?_eq_some_iff]

theorem mergeLiterals_cases (f : SymbolSet → SymbolSet → SymbolSet) (S : Finset Tree) :
    ((∀ set, literal set ∉ S) ∧ mergeLiterals f S = S) ∨
      ∃ set sets, (∀ x, x ∈ set :: sets ↔ literal x ∈ S) ∧
        mergeLiterals f S =
          insert (mkLiteral (sets.foldl f set)) (S.filter fun T => T.literalSet? = none) := by
  unfold mergeLiterals
  have hmem : ∀ x, x ∈ S.toList.filterMap literalSet? ↔ literal x ∈ S := by
    intro x
    rw [mem_filterMap_literalSet?, Finset.mem_toList]
  generalize S.toList.filterMap literalSet? = sets at hmem
  cases sets with
  | nil =>
    left
    have hnone : ∀ set, literal set ∉ S := by
      intro set h
      exact List.not_mem_nil ((hmem set).2 h)
    refine ⟨hnone, Finset.filter_true_of_mem ?_⟩
    intro T hT
    cases T with
    | literal set => exact absurd hT (hnone set)
    | _ => rfl
  | cons set sets =>
    right
    exact ⟨set, sets, hmem, rfl⟩

theorem mem_mergeLiterals_union {S : Finset Tree} {w : List Char} :
    (∃ T ∈ mergeLiterals .union S, w ∈ T.language) ↔ ∃ T ∈ S, w ∈ T.language := by
  rcases mergeLiterals_cases .union S with ⟨_, h⟩ | ⟨set, sets, hmem, h⟩
  · rw [h]
  · simp only [h, Finset.mem_insert, exists_eq_or_imp, Finset.mem_filter, language_mkLiteral,
      mem_language_literal, SymbolSet.mem_foldl_union]
    constructor
    · rintro (⟨c, ⟨x, hx, hc⟩, hw⟩ | ⟨T, ⟨hT, _⟩, hw⟩)
      · exact ⟨literal x, (hmem x).1 hx, c, hc, hw⟩
      · exact ⟨T, hT, hw⟩
    · rintro ⟨T, hT, hw⟩
      cases hlit : T.literalSet? with
      | none =>
        right
        exact ⟨T, ⟨hT, hlit⟩, hw⟩
      | some x =>
        left
        rw [literalSet?_eq_some_iff] at hlit
        subst hlit
        obtain ⟨c, hc, hw⟩ := hw
        exact ⟨c, ⟨x, (hmem x).2 hT, hc⟩, hw⟩

theorem mem_mergeLiterals_inter {S : Finset Tree} {w : List Char} :
    (∀ T ∈ mergeLiterals .inter S, w ∈ T.language) ↔ ∀ T ∈ S, w ∈ T.language := by
  rcases mergeLiterals_cases .inter S with ⟨_, h⟩ | ⟨set, sets, hmem, h⟩
  · rw [h]
  · simp only [h, Finset.mem_insert, forall_eq_or_imp, Finset.mem_filter, language_mkLiteral,
      mem_language_literal, SymbolSet.mem_foldl_inter]
    constructor
    · rintro ⟨⟨c, hc, hw⟩, hothers⟩ T hT
      cases hlit : T.literalSet? with
      | none => exact hothers T ⟨hT, hlit⟩
      | some x =>
        rw [literalSet?_eq_some_iff] at hlit
        subst hlit
        exact ⟨c, hc x ((hmem x).2 hT), hw⟩
    · intro hall
      refine ⟨?_, fun T hT => hall T hT.1⟩
      -- the literals share the first symbol of the word
      obtain ⟨c, _, rfl⟩ := hall (literal set) ((hmem set).1 List.mem_cons_self)
      refine ⟨c, fun x hx => ?_, rfl⟩
      obtain ⟨d, hd, hcd⟩ := hall (literal x) ((hmem x).1 hx)
      obtain rfl := List.singleton_inj.1 hcd
      exact hd

open Classical in
noncomputable def collapse (zero : Tree) (node : Finset Tree → Tree) (S : Finset Tree) : Tree :=
  if h : ∃ T, S = {T} then h.choose else if S = ∅ then zero else node S

theorem collapse_singleton (zero : Tree) (node : Finset Tree → Tree) (T : Tree) :
    collapse zero node {T} = T := by
  have h : ∃ U, ({T} : Finset Tree) = {U} := ⟨T, rfl⟩
  rw [collapse, dif_pos h]
  exact (Finset.singleton_injective h.choose_spec).symm

theorem collapse_empty (zero : Tree) (node : Finset Tree → Tree) : collapse zero node ∅ = zero := by
  have h : ¬∃ T, (∅ : Finset Tree) = {T} := by
    rintro ⟨T, h⟩
    exact Finset.singleton_ne_empty T h.symm
  rw [collapse, dif_neg h, if_pos rfl]

theorem collapse_of_ne {zero : Tree} {node : Finset Tree → Tree} {S : Finset Tree} {T U : Tree}
    (hT : T ∈ S) (hU : U ∈ S) (h : T ≠ U) : collapse zero node S = node S := by
  rw [collapse, dif_neg, if_neg (Finset.ne_empty_of_mem hT)]
  rintro ⟨V, rfl⟩
  rw [Finset.mem_singleton] at hT hU
  exact h (hT.trans hU.symm)

theorem collapse_cases (zero : Tree) (node : Finset Tree → Tree) (S : Finset Tree) :
    S = ∅ ∧ collapse zero node S = zero ∨ (∃ T, S = {T} ∧ collapse zero node S = T) ∨
      collapse zero node S = node S := by
  by_cases h : ∃ T, S = {T}
  · obtain ⟨T, rfl⟩ := h
    exact Or.inr (Or.inl ⟨T, rfl, collapse_singleton zero node T⟩)
  · by_cases hS : S = ∅
    · subst hS
      exact Or.inl ⟨rfl, collapse_empty zero node⟩
    · right
      right
      rw [collapse, dif_neg h, if_neg hS]

theorem mem_collapse_union {S : Finset Tree} {w : List Char} :
    w ∈ (collapse emptySet unionNode S).language ↔ ∃ T ∈ S, w ∈ T.language := by
  rcases collapse_cases emptySet unionNode S with ⟨rfl, h⟩ | ⟨T, rfl, h⟩ | h
  · rw [h]
    simp [language]
  · rw [h]
    simp
  · rw [h, mem_language_unionNode]

theorem mem_collapse_inter {S : Finset Tree} {w : List Char} :
    w ∈ (collapse full interNode S).language ↔ ∀ T ∈ S, w ∈ T.language := by
  rcases collapse_cases full interNode S with ⟨rfl, h⟩ | ⟨T, rfl, h⟩ | h
  · rw [h]
    simp [mem_language_full]
  · rw [h]
    simp
  · rw [h, mem_language_interNode]

open Classical in
noncomputable def dropEpsilon (S : Finset Tree) : Finset Tree :=
  if ∃ T ∈ S, T ≠ emptyString ∧ T.nullable then S.erase emptyString else S

theorem mem_dropEpsilon {S : Finset Tree} {w : List Char} :
    (∃ T ∈ dropEpsilon S, w ∈ T.language) ↔ ∃ T ∈ S, w ∈ T.language := by
  unfold dropEpsilon
  split
  next h =>
    obtain ⟨U, hU, hne, hnil⟩ := h
    constructor
    · rintro ⟨T, hT, hw⟩
      exact ⟨T, Finset.mem_of_mem_erase hT, hw⟩
    · rintro ⟨T, hT, hw⟩
      by_cases hT' : T = emptyString
      · subst hT'
        rw [language, Language.mem_one] at hw
        subst hw
        exact ⟨U, Finset.mem_erase.2 ⟨hne, hU⟩, hnil⟩
      · exact ⟨T, Finset.mem_erase.2 ⟨hT', hT⟩, hw⟩
  · rfl

theorem dropEpsilon_subset (S : Finset Tree) : dropEpsilon S ⊆ S := by
  unfold dropEpsilon
  split
  · apply Finset.erase_subset
  · rfl

def HasComplements (S : Finset Tree) : Prop := ∃ T ∈ S, negation T ∈ S

theorem HasComplements.exists_mem {S : Finset Tree} (h : HasComplements S) (w : List Char) :
    ∃ T ∈ S, w ∈ T.language := by
  obtain ⟨T, hT, hT'⟩ := h
  by_cases hw : w ∈ T.language
  · exact ⟨T, hT, hw⟩
  · exact ⟨negation T, hT', hw⟩

theorem HasComplements.not_forall_mem {S : Finset Tree} (h : HasComplements S) (w : List Char) :
    ¬∀ T ∈ S, w ∈ T.language := by
  obtain ⟨T, hT, hT'⟩ := h
  intro hall
  exact hall _ hT' (hall T hT)

open Classical in
noncomputable def mkUnion (S : Finset Tree) : Tree :=
  let S := (mergeLiterals .union S).erase emptySet
  if full ∈ S ∨ HasComplements S then full
  else collapse emptySet unionNode (dropEpsilon S)

open Classical in
noncomputable def mkInter (S : Finset Tree) : Tree :=
  let S := (mergeLiterals .inter S).erase full
  if emptySet ∈ S ∨ HasComplements S then emptySet
  else if emptyString ∈ S then (if ∀ T ∈ S, T.nullable then emptyString else emptySet)
  else collapse full interNode S

theorem mem_erase_emptySet {S : Finset Tree} {w : List Char} :
    (∃ T ∈ S.erase emptySet, w ∈ T.language) ↔ ∃ T ∈ S, w ∈ T.language := by
  constructor
  · rintro ⟨T, hT, hw⟩
    exact ⟨T, Finset.mem_of_mem_erase hT, hw⟩
  · rintro ⟨T, hT, hw⟩
    refine ⟨T, Finset.mem_erase.2 ⟨?_, hT⟩, hw⟩
    rintro rfl
    simp [language] at hw

theorem mem_erase_full {S : Finset Tree} {w : List Char} :
    (∀ T ∈ S.erase full, w ∈ T.language) ↔ ∀ T ∈ S, w ∈ T.language := by
  constructor
  · intro h T hT
    by_cases hT' : T = full
    · exact hT' ▸ mem_language_full w
    · exact h T (Finset.mem_erase.2 ⟨hT', hT⟩)
  · intro h T hT
    exact h T (Finset.mem_of_mem_erase hT)

theorem mem_language_mkUnion {S : Finset Tree} {w : List Char} :
    w ∈ (mkUnion S).language ↔ ∃ T ∈ S, w ∈ T.language := by
  rw [← mem_mergeLiterals_union, ← mem_erase_emptySet]
  unfold mkUnion
  generalize (mergeLiterals SymbolSet.union S).erase emptySet = S
  simp only
  split
  next h =>
    simp only [mem_language_full, true_iff]
    rcases h with h | h
    · exact ⟨full, h, mem_language_full w⟩
    · exact h.exists_mem w
  · rw [mem_collapse_union, mem_dropEpsilon]

theorem mem_language_mkInter {S : Finset Tree} {w : List Char} :
    w ∈ (mkInter S).language ↔ ∀ T ∈ S, w ∈ T.language := by
  rw [← mem_mergeLiterals_inter, ← mem_erase_full]
  unfold mkInter
  generalize (mergeLiterals SymbolSet.inter S).erase full = S
  simp only
  split
  next h =>
    simp only [language, Language.notMem_zero, false_iff]
    rcases h with h | h
    · intro hall
      simpa [language] using hall emptySet h
    · exact h.not_forall_mem w
  split
  next heps =>
    -- the empty word is the only one that can belong to all operands
    have hnil : (∀ T ∈ S, w ∈ T.language) → w = [] := fun hall => hall emptyString heps
    split
    next hnull =>
      rw [language, Language.mem_one]
      refine ⟨?_, hnil⟩
      rintro rfl
      exact hnull
    next hnull =>
      simp only [language, Language.notMem_zero, false_iff]
      intro hall
      have hw := hnil hall
      subst hw
      exact hnull hall
  · apply mem_collapse_inter

noncomputable def mkUnionList (S : Finset Tree) : Tree := mkUnion (S.biUnion unionArgs)

noncomputable def mkInterList (S : Finset Tree) : Tree := mkInter (S.biUnion interArgs)

theorem mem_unionArgs {T : Tree} {w : List Char} :
    (∃ U ∈ T.unionArgs, w ∈ U.language) ↔ w ∈ T.language := by
  cases T with
  | union size args =>
    simp only [unionArgs, Finset.mem_image, Finset.mem_univ, true_and, exists_exists_eq_and]
    rfl
  | _ => simp [unionArgs]

theorem mem_interArgs {T : Tree} {w : List Char} :
    (∀ U ∈ T.interArgs, w ∈ U.language) ↔ w ∈ T.language := by
  cases T with
  | inter size args =>
    simp only [interArgs, Finset.mem_image, Finset.mem_univ, true_and, forall_exists_index,
      forall_apply_eq_imp_iff]
    rfl
  | _ => simp [interArgs]

theorem mem_language_mkUnionList {S : Finset Tree} {w : List Char} :
    w ∈ (mkUnionList S).language ↔ ∃ T ∈ S, w ∈ T.language := by
  rw [mkUnionList, mem_language_mkUnion]
  constructor
  · rintro ⟨U, hU, hw⟩
    obtain ⟨T, hT, hU⟩ := Finset.mem_biUnion.1 hU
    exact ⟨T, hT, mem_unionArgs.1 ⟨U, hU, hw⟩⟩
  · rintro ⟨T, hT, hw⟩
    obtain ⟨U, hU, hw⟩ := mem_unionArgs.2 hw
    exact ⟨U, Finset.mem_biUnion.2 ⟨T, hT, hU⟩, hw⟩

theorem mem_language_mkInterList {S : Finset Tree} {w : List Char} :
    w ∈ (mkInterList S).language ↔ ∀ T ∈ S, w ∈ T.language := by
  rw [mkInterList, mem_language_mkInter]
  constructor
  · intro h T hT
    exact mem_interArgs.1 fun U hU => h U (Finset.mem_biUnion.2 ⟨T, hT, hU⟩)
  · intro h U hU
    obtain ⟨T, hT, hU⟩ := Finset.mem_biUnion.1 hU
    exact mem_interArgs.2 (h T hT) U hU

noncomputable def mkNegation : Tree → Tree
  | negation T => T
  | T => negation T

theorem language_mkNegation (T : Tree) : (mkNegation T).language = T.languageᶜ := by
  cases T with
  | negation T => rw [mkNegation, language, Language.compl_compl]
  | _ => rfl

end Operands

section Repetition

def mkStar : Tree → Tree
  | emptySet | emptyString => emptyString
  | star T => star T
  | T => star T

theorem language_mkStar (T : Tree) : (mkStar T).language = T.language∗ := by
  cases T with
  | emptySet => exact (kstar_zero).symm
  | emptyString => exact (kstar_one).symm
  | star T => exact (kstar_idem T.language).symm
  | _ => rfl

noncomputable def lowerBound (T : Tree) (min : Nat) : Nat := if T.nullable then 0 else min

noncomputable def mkRepeated (T : Tree) (min max : Nat) : Tree :=
  if max = 0 then emptyString
  else
    let min := T.lowerBound min
    if max = 1 ∧ (min = 1 ∨ T.nullable) then T
    else
      match T with
      | star T => star T
      | emptySet => if min = 0 then emptyString else emptySet
      | emptyString => emptyString
      | T => repeated T min max

theorem lowerBound_le (T : Tree) (min : Nat) : T.lowerBound min ≤ min := by
  unfold lowerBound
  split <;> omega

theorem powers_lowerBound (T : Tree) {min max : Nat} (h : min ≤ max) :
    powers T.language (T.lowerBound min) max = powers T.language min max := by
  unfold lowerBound
  split
  next hnull => rw [powers_of_nil_mem hnull h, powers_of_nil_mem hnull (Nat.zero_le max)]
  · rfl

theorem powers_zero {min max : Nat} (h : min ≤ max) :
    powers (0 : Language Char) min max = if min = 0 then 1 else 0 := by
  apply Language.ext
  intro w
  rw [mem_powers_iff]
  split
  next hmin =>
    subst hmin
    constructor
    · rintro ⟨k, _, _, hk⟩
      cases k with
      | zero => simpa using hk
      | succ k => simp [pow_succ] at hk
    · intro hw
      exact ⟨0, Nat.le_refl 0, h, by simpa using hw⟩
  next hmin =>
    simp only [Language.notMem_zero, iff_false]
    rintro ⟨k, hk, _, hw⟩
    obtain ⟨j, rfl⟩ : ∃ j, k = j + 1 := ⟨k - 1, by omega⟩
    simp [pow_succ] at hw

theorem language_mkRepeated (T : Tree) {min max : Nat} (h : min ≤ max) :
    (T.mkRepeated min max).language = powers T.language min max := by
  unfold mkRepeated
  split
  next hmax =>
    obtain rfl : min = 0 := by omega
    rw [hmax, powers_self, pow_zero]
    rfl
  next hmax =>
    have hlow : T.lowerBound min ≤ max := Nat.le_trans (T.lowerBound_le min) h
    rw [← powers_lowerBound T h]
    generalize T.lowerBound min = low at hlow
    simp only
    split
    next hone =>
      obtain ⟨rfl, rfl | hnull⟩ := hone
      · rw [powers_self, pow_one]
      · rw [powers_of_nil_mem hnull hlow, pow_one]
    obtain ⟨k, rfl⟩ : ∃ k, max = k + 1 := ⟨max - 1, by omega⟩
    split
    · rw [language, powers_of_nil_mem (Language.nil_mem_kstar _) hlow]
      exact (kstar_pow_succ k).symm
    · rw [language, powers_zero hlow]
      split <;> rfl
    · rw [language, powers_of_nil_mem (by simp) hlow, one_pow]
    · rfl

end Repetition

end Tree

end Residual
