import Residual.Proofs.Subterms
import Residual.Proofs.Tree.Derivative

/-!
This module contains the symbols that a derivative of a tree mentions. They are symbols of the tree,
and symbols that the tree does not mention have the same derivative.
-/

namespace Residual

namespace Tree

variable {T U : Tree} {S : Finset Tree} {c d : Char}

section Operands

theorem mentions_mkLiteral {set : SymbolSet} (h : (mkLiteral set).Mentions c) : c ∈ set := by
  unfold mkLiteral at h
  split at h
  · contradiction
  · exact h

def Conservative (f : SymbolSet → SymbolSet → SymbolSet) : Prop :=
  ∀ {x : SymbolSet} {l : List SymbolSet} {c : Char}, c ∈ l.foldl f x → ∃ z ∈ x :: l, c ∈ z

theorem conservative_union : Conservative .union := SymbolSet.mem_foldl_union.1

theorem conservative_inter : Conservative .inter := by
  intro x l c h
  exact ⟨x, List.mem_cons_self, SymbolSet.mem_foldl_inter.1 h x List.mem_cons_self⟩

theorem mentions_mergeLiterals {f : SymbolSet → SymbolSet → SymbolSet} (hf : Conservative f)
    (hT : T ∈ mergeLiterals f S) (h : T.Mentions c) : ∃ U ∈ S, U.Mentions c := by
  obtain ⟨_, heq⟩ | ⟨set, sets, hsets, heq⟩ := mergeLiterals_cases f S
  · exact ⟨T, heq ▸ hT, h⟩
  · rw [heq, Finset.mem_insert, Finset.mem_filter] at hT
    obtain rfl | hT := hT
    · obtain ⟨x, hx, hc⟩ := hf (mentions_mkLiteral h)
      exact ⟨literal x, (hsets x).1 hx, hc⟩
    · exact ⟨T, hT.1, h⟩

theorem mentions_unionNode : (unionNode S).Mentions c ↔ ∃ T ∈ S, T.Mentions c :=
  exists_equivFin (p := Mentions c)

theorem mentions_interNode : (interNode S).Mentions c ↔ ∃ T ∈ S, T.Mentions c :=
  exists_equivFin (p := Mentions c)

theorem mentions_collapse {zero : Tree} {node : Finset Tree → Tree} (hzero : ¬zero.Mentions c)
    (hnode : (node S).Mentions c → ∃ T ∈ S, T.Mentions c) (h : (collapse zero node S).Mentions c) :
    ∃ T ∈ S, T.Mentions c := by
  obtain ⟨_, heq⟩ | ⟨T, hS, heq⟩ | heq := collapse_cases zero node S
  · exact absurd (heq ▸ h) hzero
  · exact ⟨T, hS ▸ Finset.mem_singleton_self T, heq ▸ h⟩
  · exact hnode (heq ▸ h)

theorem not_mentions_emptySet : ¬emptySet.Mentions c := id

theorem not_mentions_full : ¬full.Mentions c := id

theorem mentions_mkUnion (h : (mkUnion S).Mentions c) : ∃ T ∈ S, T.Mentions c := by
  unfold mkUnion at h
  dsimp only at h
  split at h
  · exact absurd h not_mentions_full
  · obtain ⟨T, hT, hc⟩ := mentions_collapse not_mentions_emptySet mentions_unionNode.1 h
    have hmem := Finset.mem_of_mem_erase (dropEpsilon_subset _ hT)
    exact mentions_mergeLiterals conservative_union hmem hc

theorem mentions_mkInter (h : (mkInter S).Mentions c) : ∃ T ∈ S, T.Mentions c := by
  unfold mkInter at h
  dsimp only at h
  split at h
  · contradiction
  split at h
  · split at h <;> contradiction
  · obtain ⟨T, hT, hc⟩ := mentions_collapse not_mentions_full mentions_interNode.1 h
    exact mentions_mergeLiterals conservative_inter (Finset.mem_of_mem_erase hT) hc

theorem mentions_unionArgs (hU : U ∈ T.unionArgs) (h : U.Mentions c) : T.Mentions c := by
  cases T with
  | union size args =>
    obtain ⟨i, _, rfl⟩ := Finset.mem_image.1 hU
    exact ⟨i, h⟩
  | _ => exact Finset.mem_singleton.1 hU ▸ h

theorem mentions_interArgs (hU : U ∈ T.interArgs) (h : U.Mentions c) : T.Mentions c := by
  cases T with
  | inter size args =>
    obtain ⟨i, _, rfl⟩ := Finset.mem_image.1 hU
    exact ⟨i, h⟩
  | _ => exact Finset.mem_singleton.1 hU ▸ h

theorem mentions_mkUnionList (h : (mkUnionList S).Mentions c) : ∃ T ∈ S, T.Mentions c := by
  obtain ⟨U, hU, hc⟩ := mentions_mkUnion h
  obtain ⟨T, hT, hU⟩ := Finset.mem_biUnion.1 hU
  exact ⟨T, hT, mentions_unionArgs hU hc⟩

theorem mentions_mkInterList (h : (mkInterList S).Mentions c) : ∃ T ∈ S, T.Mentions c := by
  obtain ⟨U, hU, hc⟩ := mentions_mkInter h
  obtain ⟨T, hT, hU⟩ := Finset.mem_biUnion.1 hU
  exact ⟨T, hT, mentions_interArgs hU hc⟩

theorem mentions_mkNegation (h : (mkNegation T).Mentions c) : T.Mentions c := by
  cases T <;> exact h

end Operands

section Words

theorem mentions_append : (T.append U).Mentions c ↔ T.Mentions c ∨ U.Mentions c := by
  induction T with
  | concat left right _ ih => rw [append_concat, Mentions, Mentions, ih, or_assoc]
  | _ => rfl

theorem mentions_mkConcat (h : (T.mkConcat U).Mentions c) : T.Mentions c ∨ U.Mentions c := by
  unfold mkConcat at h
  split at h
  · contradiction
  split at h
  · exact .inr h
  split at h
  · exact .inl h
  split at h
  · exact absurd h not_mentions_full
  · exact mentions_append.1 h

theorem mentions_mkRepeated {min max : Nat} (h : (T.mkRepeated min max).Mentions c) :
    T.Mentions c := by
  unfold mkRepeated at h
  split at h
  · contradiction
  dsimp only at h
  split at h
  · exact h
  split at h
  · exact h
  · split at h <;> contradiction
  · contradiction
  · exact h

end Words

section Derivative

theorem mentions_derivative (h : (T.derivative c).Mentions d) : T.Mentions d := by
  induction T with
  | emptySet | emptyString => exact h
  | literal set =>
    rw [derivative] at h
    split at h <;> contradiction
  | concat left right ihl ihr =>
    have hconcat : ((left.derivative c).mkConcat right).Mentions d →
        (left.concat right).Mentions d := fun h => (mentions_mkConcat h).imp_left ihl
    rw [derivative] at h
    split at h
    · obtain ⟨U, hU, hd⟩ := mentions_mkUnionList h
      rw [Finset.mem_insert, Finset.mem_singleton] at hU
      obtain rfl | rfl := hU
      · exact hconcat hd
      · exact .inr (ihr hd)
    · exact hconcat h
  | union size args ih =>
    obtain ⟨U, hU, hd⟩ := mentions_mkUnionList h
    obtain ⟨i, _, rfl⟩ := Finset.mem_image.1 hU
    exact ⟨i, ih i hd⟩
  | inter size args ih =>
    obtain ⟨U, hU, hd⟩ := mentions_mkInterList h
    obtain ⟨i, _, rfl⟩ := Finset.mem_image.1 hU
    exact ⟨i, ih i hd⟩
  | negation arg ih => exact ih (mentions_mkNegation h)
  | star arg ih => exact (mentions_mkConcat h).elim ih id
  | repeated arg min max ih => exact (mentions_mkConcat h).elim ih mentions_mkRepeated

theorem mentions_wordDerivative {word : List Char} (h : (T.wordDerivative word).Mentions d) :
    T.Mentions d := by
  induction word generalizing T with
  | nil => exact h
  | cons c word ih => exact mentions_derivative (ih h)

def Alike (T : Tree) (c d : Char) : Prop := c = d ∨ ¬T.Mentions c ∧ ¬T.Mentions d

theorem Alike.mono (h : T.Alike c d) (hU : ∀ c, U.Mentions c → T.Mentions c) : U.Alike c d :=
  h.imp_right fun h => ⟨mt (hU c) h.1, mt (hU d) h.2⟩

theorem Alike.contains_eq {set : SymbolSet} (h : (literal set).Alike c d) :
    set.contains c = set.contains d := by
  rw [Bool.eq_iff_iff, SymbolSet.contains_iff, SymbolSet.contains_iff]
  obtain rfl | ⟨hc, hd⟩ := h
  · rfl
  · exact iff_of_false hc hd

theorem Alike.derivative_eq (h : T.Alike c d) : T.derivative c = T.derivative d := by
  induction T with
  | emptySet | emptyString => rfl
  | literal set => rw [derivative, derivative, h.contains_eq]
  | concat left right ihl ihr =>
    rw [derivative, derivative, ihl (h.mono fun _ => .inl), ihr (h.mono fun _ => .inr)]
  | union size args ih =>
    have hargs : (fun i => (args i).derivative c) = fun i => (args i).derivative d :=
      funext fun i => ih i (h.mono fun _ hc => ⟨i, hc⟩)
    rw [derivative, derivative, hargs]
  | inter size args ih =>
    have hargs : (fun i => (args i).derivative c) = fun i => (args i).derivative d :=
      funext fun i => ih i (h.mono fun _ hc => ⟨i, hc⟩)
    rw [derivative, derivative, hargs]
  | negation arg ih => rw [derivative, derivative, ih h]
  | star arg ih => rw [derivative, derivative, ih h]
  | repeated arg min max ih => rw [derivative, derivative, ih h]

end Derivative

end Tree

end Residual
