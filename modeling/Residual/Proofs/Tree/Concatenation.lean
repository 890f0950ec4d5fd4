import Residual.Proofs.Tree.Build

/-!
This module contains the grouping of the parts of a concatenation at the level of trees. All words
absorb what can be skipped before them, but only if this is the whole part on the left.
-/

namespace Residual

namespace Tree

section Concat

variable {X Y Z : Tree}

def IsProper (T : Tree) : Prop := T ≠ emptySet ∧ T ≠ emptyString

def Conflict (X Y Z : Tree) : Prop :=
  X.IsProper ∧ Y.IsProper ∧ Z.IsProper ∧
    ((Z = full ∧ Y.nullable ∧ ¬X.nullable) ∨ (Y = full ∧ X.nullable ∧ Z ≠ full))

theorem factors_ne_nil (T : Tree) : T.factors ≠ [] := by
  cases T <;> exact nofun

theorem append_eq_concat (X Y : Tree) : ∃ T U, X.append Y = concat T U := by
  unfold append
  cases hfactors : X.factors with
  | nil => exact absurd hfactors X.factors_ne_nil
  | cons T l => exact ⟨T, l.foldr concat Y, rfl⟩

theorem isProper_append (X Y : Tree) : (X.append Y).IsProper := by
  obtain ⟨T, U, h⟩ := append_eq_concat X Y
  rw [h]
  exact ⟨Tree.noConfusion, Tree.noConfusion⟩

theorem append_ne_full (X Y : Tree) : X.append Y ≠ full := by
  obtain ⟨T, U, h⟩ := append_eq_concat X Y
  rw [h]
  exact Tree.noConfusion

theorem isProper_full : full.IsProper := ⟨Tree.noConfusion, Tree.noConfusion⟩

theorem nullable_full : full.nullable := mem_language_full []

theorem nullable_append : (X.append Y).nullable ↔ X.nullable ∧ Y.nullable := by
  rw [nullable, language_append, nil_mem_mul_iff]
  rfl

theorem append_ne_right (X Y : Tree) : X.append Y ≠ Y := by
  intro h
  have hlength := congrArg (fun T => T.factors.length) h
  simp only [factors_append, List.length_append] at hlength
  have hpos := List.length_pos_iff.2 X.factors_ne_nil
  omega

theorem append_append_ne (X Y Z : Tree) : X.append (Y.append Z) ≠ X.append Z := by
  intro h
  have hlength := congrArg (fun T => T.factors.length) h
  simp only [factors_append, List.length_append] at hlength
  have hpos := List.length_pos_iff.2 Y.factors_ne_nil
  omega

section Improper

variable (X : Tree)

theorem emptySet_mkConcat : emptySet.mkConcat X = emptySet := if_pos (.inl rfl)

theorem mkConcat_emptySet : X.mkConcat emptySet = emptySet := if_pos (.inr rfl)

theorem emptyString_mkConcat : emptyString.mkConcat X = X := by
  unfold mkConcat
  split
  next h => exact (h.resolve_left Tree.noConfusion).symm
  · exact if_pos rfl

theorem mkConcat_emptyString : X.mkConcat emptyString = X := by
  unfold mkConcat
  split
  next h => exact (h.resolve_right Tree.noConfusion).symm
  · split
    next h => exact h.symm
    · exact if_pos rfl

end Improper

section Proper

variable (hX : X.IsProper)

include hX

theorem mkConcat_full (h : X.nullable) : X.mkConcat full = full := by
  rw [mkConcat, if_neg (not_or.2 ⟨hX.1, Tree.noConfusion⟩), if_neg hX.2, if_neg Tree.noConfusion,
    if_pos ⟨rfl, h⟩]

theorem mkConcat_eq_append (hY : Y.IsProper) (h : ¬(Y = full ∧ X.nullable)) :
    X.mkConcat Y = X.append Y := by
  rw [mkConcat, if_neg (not_or.2 ⟨hX.1, hY.1⟩), if_neg hX.2, if_neg hY.2, if_neg h]

theorem mkConcat_append (Y Z : Tree) : X.mkConcat (Y.append Z) = X.append (Y.append Z) :=
  mkConcat_eq_append hX (isProper_append Y Z) fun h => append_ne_full Y Z h.1

theorem grouping_full_left (hZ : Z.IsProper) (h : X.nullable) :
    (X.mkConcat full).mkConcat Z = X.mkConcat (full.mkConcat Z) ↔ Z = full := by
  rw [mkConcat_full hX h]
  by_cases hz : Z = full
  · subst hz
    rw [mkConcat_full isProper_full nullable_full, mkConcat_full hX h]
  · rw [mkConcat_eq_append isProper_full hZ fun h => hz h.1, mkConcat_append hX]
    exact iff_of_false (append_ne_right X _).symm hz

theorem grouping_full_right (hY : Y.IsProper) (hxy : ¬(Y = full ∧ X.nullable)) (h : Y.nullable) :
    (X.mkConcat Y).mkConcat full = X.mkConcat (Y.mkConcat full) ↔ X.nullable := by
  rw [mkConcat_full hY h, mkConcat_eq_append hX hY hxy]
  by_cases hx : X.nullable
  · rw [mkConcat_full (isProper_append X Y) (nullable_append.2 ⟨hx, h⟩), mkConcat_full hX hx]
    exact iff_of_true rfl hx
  · rw [mkConcat_eq_append (isProper_append X Y) isProper_full fun h => hx (nullable_append.1 h.2).1,
      mkConcat_eq_append hX isProper_full fun h => hx h.2, append_assoc]
    exact iff_of_false (append_append_ne X Y full) hx

theorem grouping_append (hY : Y.IsProper) (hZ : Z.IsProper) (hxy : ¬(Y = full ∧ X.nullable))
    (hyz : ¬(Z = full ∧ Y.nullable)) : (X.mkConcat Y).mkConcat Z = X.mkConcat (Y.mkConcat Z) := by
  have hskip : ¬(Z = full ∧ (X.append Y).nullable) := by
    rw [nullable_append]
    exact fun h => hyz ⟨h.1, h.2.2⟩
  calc (X.mkConcat Y).mkConcat Z
    _ = (X.append Y).mkConcat Z := by rw [mkConcat_eq_append hX hY hxy]
    _ = (X.append Y).append Z := mkConcat_eq_append (isProper_append X Y) hZ hskip
    _ = X.append (Y.append Z) := append_assoc X Y Z
    _ = X.mkConcat (Y.append Z) := (mkConcat_append hX Y Z).symm
    _ = X.mkConcat (Y.mkConcat Z) := by rw [mkConcat_eq_append hY hZ hyz]

theorem concat_grouping_of_isProper (hY : Y.IsProper) (hZ : Z.IsProper) :
    (X.mkConcat Y).mkConcat Z = X.mkConcat (Y.mkConcat Z) ↔
      ¬((Z = full ∧ Y.nullable ∧ ¬X.nullable) ∨ (Y = full ∧ X.nullable ∧ Z ≠ full)) := by
  by_cases hxy : Y = full ∧ X.nullable
  · obtain ⟨rfl, hx⟩ := hxy
    rw [grouping_full_left hX hZ hx]
    tauto
  · by_cases hyz : Z = full ∧ Y.nullable
    · obtain ⟨rfl, hy⟩ := hyz
      rw [grouping_full_right hX hY hxy hy]
      tauto
    · apply iff_of_true (grouping_append hX hY hZ hxy hyz)
      tauto

end Proper

theorem concat_grouping :
    (X.mkConcat Y).mkConcat Z = X.mkConcat (Y.mkConcat Z) ↔ ¬Conflict X Y Z := by
  by_cases hX : X.IsProper
  · by_cases hY : Y.IsProper
    · by_cases hZ : Z.IsProper
      · rw [concat_grouping_of_isProper hX hY hZ, Conflict, and_iff_right hX, and_iff_right hY,
          and_iff_right hZ]
      · apply iff_of_true _ fun h => hZ h.2.2.1
        rw [IsProper, ← not_or, not_not] at hZ
        obtain rfl | rfl := hZ
        · rw [mkConcat_emptySet, mkConcat_emptySet, mkConcat_emptySet]
        · rw [mkConcat_emptyString, mkConcat_emptyString]
    · apply iff_of_true _ fun h => hY h.2.1
      rw [IsProper, ← not_or, not_not] at hY
      obtain rfl | rfl := hY
      · rw [mkConcat_emptySet, emptySet_mkConcat, mkConcat_emptySet]
      · rw [mkConcat_emptyString, emptyString_mkConcat]
  · apply iff_of_true _ fun h => hX h.1
    rw [IsProper, ← not_or, not_not] at hX
    obtain rfl | rfl := hX
    · rw [emptySet_mkConcat, emptySet_mkConcat, emptySet_mkConcat]
    · rw [emptyString_mkConcat, emptyString_mkConcat]

end Concat

end Tree

end Residual
