import Mathlib.Data.Set.Finite.Lattice
import Mathlib.Data.Set.Finite.Powerset
import Residual.Proofs.Tree.Derivative

/-!
This module contains the finiteness of derivatives: every tree belongs to a finite set of trees that
contains the derivatives of its members.

Simplification does not bring all trees of one language together, so such a set has to be found for
the operations as they are. A concatenation associates to the right when it is built, and therefore
the derivative of `(x · y) · z` is not put together from that of `x · y`. The sets below are closed
under what happens to the right part of a concatenation as well.
-/

namespace Residual

namespace Tree

noncomputable def symbols : Tree → Finset Char
  | emptySet | emptyString => ∅
  | literal set => set.toList.toFinset
  | concat left right => left.symbols ∪ right.symbols
  | union _ args | inter _ args => Finset.univ.biUnion fun i => (args i).symbols
  | negation arg | star arg | repeated arg _ _ => arg.symbols

section Closed

def ground (symbols : Finset Char) : Set Tree :=
  {emptySet, emptyString, full} ∪ literal '' {set | ∀ c ∈ set, c ∈ symbols}

structure Fits (symbols : Finset Char) (F : Set Tree) (T : Tree) : Prop where
  literal : ∀ set, T = literal set → ∀ c ∈ set, c ∈ symbols
  unionArgs : ∀ U ∈ T.unionArgs, U ∈ F
  interArgs : ∀ U ∈ T.interArgs, U ∈ F
  negation : ∀ U, T = negation U → U ∈ F

structure Stays (F : Set Tree) (T : Tree) : Prop where
  derivative : ∀ c, T.derivative c ∈ F
  right : ∀ x y, T = concat x y → y ∈ F
  mkConcat : ∀ x y, T = concat x y → ∀ c, (x.derivative c).mkConcat y ∈ F
  append : ∀ x y, T = concat x y → ∀ c, (x.derivative c).append y ∈ F

structure Grounded (symbols : Finset Char) (F : Set Tree) : Prop where
  ground_subset : ground symbols ⊆ F
  fits : ∀ T ∈ F, T.Fits symbols F

structure Closed (symbols : Finset Char) (F : Set Tree) : Prop extends Grounded symbols F where
  stays : ∀ T ∈ F, T.Stays F

variable {symbols : Finset Char} {F G : Set Tree} {T : Tree}

theorem Fits.mono (h : T.Fits symbols F) (hFG : F ⊆ G) : T.Fits symbols G where
  literal := h.literal
  unionArgs U hU := hFG (h.unionArgs U hU)
  interArgs U hU := hFG (h.interArgs U hU)
  negation U hU := hFG (h.negation U hU)

theorem Stays.mono (h : T.Stays F) (hFG : F ⊆ G) : T.Stays G where
  derivative c := hFG (h.derivative c)
  right x y hT := hFG (h.right x y hT)
  mkConcat x y hT c := hFG (h.mkConcat x y hT c)
  append x y hT c := hFG (h.append x y hT c)

theorem Grounded.emptySet_mem (h : Grounded symbols F) : emptySet ∈ F :=
  h.ground_subset (by simp [ground])

theorem Grounded.emptyString_mem (h : Grounded symbols F) : emptyString ∈ F :=
  h.ground_subset (by simp [ground])

theorem Grounded.full_mem (h : Grounded symbols F) : full ∈ F :=
  h.ground_subset (by simp [ground])

theorem Grounded.literal_mem_iff (h : Grounded symbols F) {set : SymbolSet} :
    literal set ∈ F ↔ ∀ c ∈ set, c ∈ symbols := by
  constructor
  · intro hset
    exact (h.fits _ hset).literal set rfl
  · intro hset
    apply h.ground_subset
    exact Or.inr ⟨set, hset, rfl⟩

theorem Grounded.union (hF : Grounded symbols F) (hG : Grounded symbols G) :
    Grounded symbols (F ∪ G) where
  ground_subset := hF.ground_subset.trans Set.subset_union_left
  fits := by
    rintro T (hT | hT)
    · exact (hF.fits T hT).mono Set.subset_union_left
    · exact (hG.fits T hT).mono Set.subset_union_right

theorem fits_of_mem (hT : T ∈ F) (hliteral : ∀ set, T ≠ .literal set)
    (hunion : T.unionArgs = {T}) (hinter : T.interArgs = {T}) (hnegation : ∀ U, T ≠ .negation U) :
    T.Fits symbols F where
  literal set h := absurd h (hliteral set)
  unionArgs U hU := by
    rw [hunion, Finset.mem_singleton] at hU
    exact hU ▸ hT
  interArgs U hU := by
    rw [hinter, Finset.mem_singleton] at hU
    exact hU ▸ hT
  negation U h := absurd h (hnegation U)

theorem fits_negation {U : Tree} (hU : U ∈ F) (h : Tree.negation U ∈ F) :
    (Tree.negation U).Fits symbols F := by
  constructor
  · simp
  · simpa [unionArgs] using h
  · simpa [interArgs] using h
  · simpa using hU

theorem stays_of_ne_concat (h : ∀ c, T.derivative c ∈ F) (hconcat : ∀ x y, T ≠ .concat x y) :
    T.Stays F where
  derivative := h
  right x y hT := absurd hT (hconcat x y)
  mkConcat x y hT := absurd hT (hconcat x y)
  append x y hT := absurd hT (hconcat x y)

theorem Grounded.insert (hF : Grounded symbols F) (hfits : T.Fits symbols (Insert.insert T F)) :
    Grounded symbols (Insert.insert T F) where
  ground_subset := hF.ground_subset.trans (Set.subset_insert T F)
  fits := by
    rintro U (rfl | hU)
    · exact hfits
    · exact (hF.fits U hU).mono (Set.subset_insert T F)

theorem Closed.insert (hF : Closed symbols F) (hfits : T.Fits symbols (Insert.insert T F))
    (hstays : T.Stays (Insert.insert T F)) : Closed symbols (Insert.insert T F) where
  __ := hF.toGrounded.insert hfits
  stays := by
    rintro U (rfl | hU)
    · exact hstays
    · exact (hF.stays U hU).mono (Set.subset_insert T F)

end Closed

section Ground

theorem finite_ground (symbols : Finset Char) : (ground symbols).Finite := by
  have hsets : {set : SymbolSet | ∀ c ∈ set, c ∈ symbols}.Finite := by
    apply (symbols.powerset.finite_toSet.image fun S => SymbolSet.ofList S.toList).subset
    intro set hset
    refine ⟨set.toList.toFinset, ?_, ?_⟩
    · rw [Finset.mem_coe, Finset.mem_powerset]
      intro c hc
      rw [List.mem_toFinset, SymbolSet.mem_toList] at hc
      exact hset c hc
    · apply SymbolSet.ext
      intro c
      simp
  apply Set.Finite.union _ (hsets.image literal)
  exact Set.toFinite _

theorem closed_ground (symbols : Finset Char) : Closed symbols (ground symbols) where
  ground_subset := subset_rfl
  fits := by
    rintro T ((rfl | rfl | rfl) | ⟨set, hset, rfl⟩)
    · constructor <;> simp [ground, unionArgs, interArgs]
    · constructor <;> simp [ground, unionArgs, interArgs]
    · constructor <;> simp [ground, unionArgs, interArgs]
    · constructor <;> simp_all [ground, unionArgs, interArgs]
  stays := by
    rintro T ((rfl | rfl | rfl) | ⟨set, hset, rfl⟩) <;> apply stays_of_ne_concat
    · simp [ground, derivative]
    · simp
    · simp [ground, derivative]
    · simp
    · simp [ground, derivative, mkNegation]
    · simp
    · intro c
      rw [derivative]
      split <;> simp [ground]
    · simp

end Ground

section Nodes

variable {symbols : Finset Char} {B : Set Tree} {S : Finset Tree}

def nodes (node : Finset Tree → Tree) (B : Set Tree) : Set Tree := B ∪ node '' {S | ↑S ⊆ B}

theorem finite_nodes (node : Finset Tree → Tree) (hB : B.Finite) : (nodes node B).Finite := by
  apply hB.union
  apply Set.Finite.image
  apply (hB.toFinset.powerset.finite_toSet).subset
  intro S hS
  rw [Finset.mem_coe, Finset.mem_powerset]
  intro T hT
  rw [Set.Finite.mem_toFinset]
  exact hS hT

theorem subset_nodes (node : Finset Tree → Tree) (B : Set Tree) : B ⊆ nodes node B :=
  Set.subset_union_left

theorem node_mem_nodes {node : Finset Tree → Tree} (hS : ↑S ⊆ B) : node S ∈ nodes node B :=
  Or.inr ⟨S, hS, rfl⟩

theorem mergeLiterals_subset {f : SymbolSet → SymbolSet → SymbolSet} (hB : Grounded symbols B)
    (hf : ∀ set sets, (∀ x ∈ set :: sets, ∀ c ∈ x, c ∈ symbols) →
      ∀ c ∈ sets.foldl f set, c ∈ symbols)
    (hS : ↑S ⊆ B) : ↑(mergeLiterals f S) ⊆ B := by
  rcases mergeLiterals_cases f S with ⟨_, h⟩ | ⟨set, sets, hmem, h⟩
  · rw [h]
    exact hS
  · rw [h]
    intro T hT
    rw [Finset.mem_coe, Finset.mem_insert, Finset.mem_filter] at hT
    rcases hT with rfl | ⟨hT, _⟩
    · unfold mkLiteral
      split
      · exact hB.emptySet_mem
      · rw [hB.literal_mem_iff]
        apply hf
        intro x hx
        exact hB.literal_mem_iff.1 (hS ((hmem x).1 hx))
    · exact hS hT

theorem collapse_mem_nodes {zero : Tree} {node : Finset Tree → Tree} (hzero : zero ∈ B)
    (hS : ↑S ⊆ B) : collapse zero node S ∈ nodes node B := by
  rcases collapse_cases zero node S with ⟨_, h⟩ | ⟨T, rfl, h⟩ | h
  · rw [h]
    exact subset_nodes node B hzero
  · rw [h]
    apply subset_nodes
    apply hS
    exact Finset.mem_singleton_self T
  · rw [h]
    exact node_mem_nodes hS

theorem mkUnion_mem_nodes (hB : Grounded symbols B) (hS : ↑S ⊆ B) :
    mkUnion S ∈ nodes unionNode B := by
  have hmerge := mergeLiterals_subset (f := .union) hB (by
    intro set sets h c hc
    obtain ⟨x, hx, hc⟩ := SymbolSet.mem_foldl_union.1 hc
    exact h x hx c hc) hS
  unfold mkUnion
  generalize mergeLiterals SymbolSet.union S = S' at hmerge
  have herase : ↑(S'.erase emptySet) ⊆ B := by
    intro T hT
    exact hmerge (Finset.mem_of_mem_erase hT)
  dsimp only
  split
  · apply subset_nodes
    exact hB.full_mem
  · apply collapse_mem_nodes hB.emptySet_mem
    intro T hT
    exact herase (dropEpsilon_subset _ hT)

theorem mkInter_mem_nodes (hB : Grounded symbols B) (hS : ↑S ⊆ B) :
    mkInter S ∈ nodes interNode B := by
  have hmerge := mergeLiterals_subset (f := .inter) hB (by
    intro set sets h c hc
    exact h set List.mem_cons_self c (SymbolSet.mem_foldl_inter.1 hc set List.mem_cons_self)) hS
  unfold mkInter
  generalize mergeLiterals SymbolSet.inter S = S' at hmerge
  have herase : ↑(S'.erase full) ⊆ B := by
    intro T hT
    exact hmerge (Finset.mem_of_mem_erase hT)
  dsimp only
  split
  · apply subset_nodes
    exact hB.emptySet_mem
  split
  · apply subset_nodes
    split
    · exact hB.emptyString_mem
    · exact hB.emptySet_mem
  · apply collapse_mem_nodes hB.full_mem herase

structure Joins (node mk : Finset Tree → Tree) : Prop where
  derivative : ∀ S c, (node S).derivative c = mk (S.image (Tree.derivative c))
  mk_mem : ∀ {symbols : Finset Char} {B : Set Tree}, Grounded symbols B → ∀ S : Finset Tree,
    ↑S ⊆ nodes node B → mk S ∈ nodes node B
  unionArgs : ∀ S, ∀ U ∈ (node S).unionArgs, U ∈ S ∨ U = node S
  interArgs : ∀ S, ∀ U ∈ (node S).interArgs, U ∈ S ∨ U = node S
  ne_literal : ∀ S set, node S ≠ literal set
  ne_negation : ∀ S U, node S ≠ negation U
  ne_concat : ∀ S x y, node S ≠ concat x y

theorem joins_union : Joins unionNode mkUnionList where
  derivative := derivative_unionNode
  mk_mem := by
    intro symbols B hB S hS
    apply mkUnion_mem_nodes hB
    intro U hU
    obtain ⟨T, hT, hU⟩ := Finset.mem_biUnion.1 hU
    rcases hS hT with hT | ⟨S', hS', rfl⟩
    · exact (hB.fits T hT).unionArgs U hU
    · rw [unionArgs_unionNode] at hU
      exact hS' hU
  unionArgs := by
    intro S U hU
    rw [unionArgs_unionNode] at hU
    exact Or.inl hU
  interArgs := by
    intro S U hU
    exact Or.inr (Finset.mem_singleton.1 hU)
  ne_literal := by simp [unionNode]
  ne_negation := by simp [unionNode]
  ne_concat := by simp [unionNode]

theorem joins_inter : Joins interNode mkInterList where
  derivative := derivative_interNode
  mk_mem := by
    intro symbols B hB S hS
    apply mkInter_mem_nodes hB
    intro U hU
    obtain ⟨T, hT, hU⟩ := Finset.mem_biUnion.1 hU
    rcases hS hT with hT | ⟨S', hS', rfl⟩
    · exact (hB.fits T hT).interArgs U hU
    · rw [interArgs_interNode] at hU
      exact hS' hU
  unionArgs := by
    intro S U hU
    exact Or.inr (Finset.mem_singleton.1 hU)
  interArgs := by
    intro S U hU
    rw [interArgs_interNode] at hU
    exact Or.inl hU
  ne_literal := by simp [interNode]
  ne_negation := by simp [interNode]
  ne_concat := by simp [interNode]

theorem Joins.closed_nodes {node mk : Finset Tree → Tree} (h : Joins node mk)
    (hB : Grounded symbols B) (hstays : ∀ T ∈ B, T.Stays (nodes node B)) :
    Closed symbols (nodes node B) where
  ground_subset := hB.ground_subset.trans (subset_nodes node B)
  fits := by
    rintro T (hT | ⟨S, hS, rfl⟩)
    · exact (hB.fits T hT).mono (subset_nodes node B)
    · have hargs : ∀ U, U ∈ S ∨ U = node S → U ∈ nodes node B := by
        rintro U (hU | rfl)
        · exact subset_nodes node B (hS hU)
        · exact node_mem_nodes hS
      constructor
      · intro set hset
        exact absurd hset (h.ne_literal S set)
      · intro U hU
        exact hargs U (h.unionArgs S U hU)
      · intro U hU
        exact hargs U (h.interArgs S U hU)
      · intro U hU
        exact absurd hU (h.ne_negation S U)
  stays := by
    rintro T (hT | ⟨S, hS, rfl⟩)
    · exact hstays T hT
    · apply stays_of_ne_concat _ (h.ne_concat S)
      intro c
      rw [h.derivative]
      apply h.mk_mem hB
      intro U hU
      rw [Finset.mem_coe, Finset.mem_image] at hU
      obtain ⟨T, hT, rfl⟩ := hU
      exact (hstays T (hS hT)).derivative c

end Nodes

section Concat

variable {symbols : Finset Char} {F G : Set Tree} {right : Tree}

def pieces (F G : Set Tree) (right : Tree) : Set Tree := F ∪ G ∪ (fun T => T.append right) '' F

theorem mem_pieces_left {T : Tree} (hT : T ∈ F) : T ∈ pieces F G right := Or.inl (Or.inl hT)

theorem mem_pieces_right {T : Tree} (hT : T ∈ G) : T ∈ pieces F G right := Or.inl (Or.inr hT)

theorem append_mem_pieces {T : Tree} (hT : T ∈ F) : T.append right ∈ pieces F G right :=
  Or.inr ⟨T, hT, rfl⟩

theorem append_cases (T U : Tree) :
    ((∀ x y, T ≠ concat x y) ∧ T.append U = concat T U) ∨
      ∃ x y, T = concat x y ∧ T.append U = concat x (y.append U) := by
  cases T with
  | concat x y => exact Or.inr ⟨x, y, rfl, rfl⟩
  | _ => exact Or.inl ⟨by simp, rfl⟩

theorem exists_append_eq_concat (T U : Tree) : ∃ x y, T.append U = concat x y := by
  rcases append_cases T U with ⟨_, h⟩ | ⟨x, y, _, h⟩
  · exact ⟨T, U, h⟩
  · exact ⟨x, y.append U, h⟩

theorem mkConcat_mem_pieces (hF : Grounded symbols F) (hright : right ∈ G) {T : Tree} (hT : T ∈ F) :
    T.mkConcat right ∈ pieces F G right := by
  unfold mkConcat
  split
  · apply mem_pieces_left hF.emptySet_mem
  split
  · apply mem_pieces_right hright
  split
  · apply mem_pieces_left hT
  split
  · apply mem_pieces_left hF.full_mem
  · apply append_mem_pieces hT

theorem mkConcat_append_mem_pieces (hF : Grounded symbols F) {T y : Tree} (hy : y ∈ F)
    (happend : T.append y ∈ F) : T.mkConcat (y.append right) ∈ pieces F G right := by
  -- `y.append right` is a concatenation, which rules out two of the cases
  obtain ⟨x', y', hconcat⟩ := exists_append_eq_concat y right
  unfold mkConcat
  split
  · apply mem_pieces_left hF.emptySet_mem
  split
  · apply append_mem_pieces hy
  split
  next h =>
    rw [hconcat] at h
    contradiction
  split
  next h =>
    rw [hconcat] at h
    cases h.1
  · rw [← append_assoc]
    apply append_mem_pieces happend

theorem grounded_pieces (hF : Grounded symbols F) (hG : Grounded symbols G) :
    Grounded symbols (pieces F G right) where
  ground_subset := (hF.union hG).ground_subset.trans Set.subset_union_left
  fits := by
    rintro T (hT | ⟨T, hT, rfl⟩)
    · exact ((hF.union hG).fits T hT).mono Set.subset_union_left
    · have hmem : T.append right ∈ pieces F G right := append_mem_pieces hT
      obtain ⟨x, y, hconcat⟩ := exists_append_eq_concat T right
      dsimp only
      rw [hconcat] at hmem ⊢
      apply fits_of_mem hmem <;> simp [unionArgs, interArgs]

theorem derivative_concat_mem_nodes {B : Set Tree} (hB : Grounded symbols B) {x y : Tree} {c : Char}
    (hconcat : (x.derivative c).mkConcat y ∈ B) (hy : y.derivative c ∈ nodes unionNode B) :
    (concat x y).derivative c ∈ nodes unionNode B := by
  rw [derivative]
  split
  · apply joins_union.mk_mem hB
    intro T hT
    rw [Finset.mem_coe, Finset.mem_insert, Finset.mem_singleton] at hT
    rcases hT with rfl | rfl
    · exact subset_nodes unionNode B hconcat
    · exact hy
  · exact subset_nodes unionNode B hconcat

variable (hF : Closed symbols F) (hG : Grounded symbols G) (hright : right ∈ G)
  (hderivative : ∀ T ∈ G, ∀ c, T.derivative c ∈ pieces F G right)
include hF hG hright hderivative

theorem derivative_append_mem_nodes {T : Tree} (hT : T ∈ F) (c : Char) :
    (T.append right).derivative c ∈ nodes unionNode (pieces F G right) := by
  -- by induction on the factors of `T`; the right part of a member is a member itself
  have hB : Grounded symbols (pieces F G right) := grounded_pieces hF.toGrounded hG
  have hlast : ∀ {p : Tree}, p ∈ F →
      (concat p right).derivative c ∈ nodes unionNode (pieces F G right) := by
    intro p hp
    apply derivative_concat_mem_nodes hB
    · apply mkConcat_mem_pieces hF.toGrounded hright
      exact (hF.stays p hp).derivative c
    · apply subset_nodes
      exact hderivative right hright c
  induction T with
  | concat x y _ ih =>
    have hstays := hF.stays _ hT
    have hy := hstays.right x y rfl
    rw [append_concat]
    apply derivative_concat_mem_nodes hB
    · apply mkConcat_append_mem_pieces hF.toGrounded hy
      exact hstays.append x y rfl c
    · exact ih hy
  | _ => exact hlast hT

theorem closed_pieces (hconcat : ∀ T ∈ G, (∀ x y, T ≠ concat x y) ∨ T.Stays G) :
    Closed symbols (nodes unionNode (pieces F G right)) := by
  have hB : Grounded symbols (pieces F G right) := grounded_pieces hF.toGrounded hG
  have hsub := subset_nodes unionNode (pieces F G right)
  apply joins_union.closed_nodes hB
  rintro T ((hT | hT) | ⟨T, hT, rfl⟩)
  · apply (hF.stays T hT).mono
    intro U hU
    exact hsub (mem_pieces_left hU)
  · rcases hconcat T hT with hne | hstays
    · apply stays_of_ne_concat _ hne
      intro c
      exact hsub (hderivative T hT c)
    · apply hstays.mono
      intro U hU
      exact hsub (mem_pieces_right hU)
  · -- appending hides the right part of a concatenation one level deeper
    have hderiv := derivative_append_mem_nodes hF hG hright hderivative hT
    have hstays := hF.stays T hT
    dsimp only
    rcases append_cases T right with ⟨_, h⟩ | ⟨x, y, rfl, h⟩
    · refine ⟨hderiv, ?_, ?_, ?_⟩ <;> rintro x y hxy <;> obtain ⟨rfl, rfl⟩ := concat.inj (h ▸ hxy)
      · exact hsub (mem_pieces_right hright)
      · intro c
        apply hsub
        exact mkConcat_mem_pieces hF.toGrounded hright (hstays.derivative c)
      · intro c
        apply hsub
        exact append_mem_pieces (hstays.derivative c)
    · have hy := hstays.right x y rfl
      refine ⟨hderiv, ?_, ?_, ?_⟩ <;> rintro x' y' hxy <;>
        obtain ⟨rfl, rfl⟩ := concat.inj (h ▸ hxy)
      · exact hsub (append_mem_pieces hy)
      · intro c
        apply hsub
        exact mkConcat_append_mem_pieces hF.toGrounded hy (hstays.append x y rfl c)
      · intro c
        rw [← append_assoc]
        apply hsub
        exact append_mem_pieces (hstays.append x y rfl c)

end Concat

section Finitary

variable {symbols : Finset Char}

def Finitary (symbols : Finset Char) (T : Tree) : Prop :=
  ∃ F : Set Tree, F.Finite ∧ Closed symbols F ∧ T ∈ F

theorem finitary_of_closed {F : Set Tree} (hF : Closed symbols F) (hfinite : F.Finite)
    {T : Tree} (hfits : T.Fits symbols (insert T F)) (hderivative : ∀ c, T.derivative c ∈ F)
    (hconcat : ∀ x y, T ≠ concat x y) : Finitary symbols T := by
  refine ⟨insert T F, hfinite.insert T, ?_, Set.mem_insert T F⟩
  apply hF.insert hfits
  apply stays_of_ne_concat _ hconcat
  intro c
  exact Or.inr (hderivative c)

theorem finitary_ground {T : Tree} (hT : T ∈ ground symbols) : Finitary symbols T :=
  ⟨ground symbols, finite_ground symbols, closed_ground symbols, hT⟩

theorem finite_pieces {F G : Set Tree} (hF : F.Finite) (hG : G.Finite) (right : Tree) :
    (nodes unionNode (pieces F G right)).Finite :=
  finite_nodes unionNode ((hF.union hG).union (hF.image _))

theorem exists_closed_concat {left right : Tree} (hleft : Finitary symbols left)
    (hright : Finitary symbols right) :
    ∃ H : Set Tree, H.Finite ∧ Closed symbols H ∧ right ∈ H ∧
      (∀ c, (left.derivative c).mkConcat right ∈ H) ∧
      (∀ c, (left.derivative c).append right ∈ H) ∧ ∀ c, (concat left right).derivative c ∈ H := by
  obtain ⟨F, hFfinite, hF, hleft⟩ := hleft
  obtain ⟨G, hGfinite, hG, hright⟩ := hright
  have hderivative : ∀ T ∈ G, ∀ c, T.derivative c ∈ pieces F G right := by
    intro T hT c
    exact mem_pieces_right ((hG.stays T hT).derivative c)
  have hclosed := closed_pieces hF hG.toGrounded hright hderivative fun T hT => Or.inr (hG.stays T hT)
  have hmk : ∀ c, (left.derivative c).mkConcat right ∈ pieces F G right := by
    intro c
    exact mkConcat_mem_pieces hF.toGrounded hright ((hF.stays left hleft).derivative c)
  refine ⟨_, finite_pieces hFfinite hGfinite right, hclosed, ?_, ?_, ?_, ?_⟩
  · exact subset_nodes _ _ (mem_pieces_right hright)
  · intro c
    exact subset_nodes _ _ (hmk c)
  · intro c
    exact subset_nodes _ _ (append_mem_pieces ((hF.stays left hleft).derivative c))
  · intro c
    apply derivative_concat_mem_nodes (grounded_pieces hF.toGrounded hG.toGrounded) (hmk c)
    exact subset_nodes _ _ (hderivative right hright c)

theorem finitary_concat {left right : Tree} (hleft : Finitary symbols left)
    (hright : Finitary symbols right) : Finitary symbols (concat left right) := by
  obtain ⟨H, hfinite, hH, hright, hmk, happend, hderivative⟩ := exists_closed_concat hleft hright
  refine ⟨insert (concat left right) H, hfinite.insert _, ?_, Set.mem_insert _ H⟩
  apply hH.insert
  · apply fits_of_mem (Set.mem_insert _ H) <;> simp [unionArgs, interArgs]
  · refine ⟨?_, ?_, ?_, ?_⟩
    · intro c
      exact Or.inr (hderivative c)
    all_goals
      rintro x y hxy
      obtain ⟨rfl, rfl⟩ := concat.inj hxy
    · exact Or.inr hright
    · intro c
      exact Or.inr (hmk c)
    · intro c
      exact Or.inr (happend c)

theorem finitary_star {arg : Tree} (harg : Finitary symbols arg) : Finitary symbols (star arg) := by
  -- a closure is the right part of its own derivatives
  obtain ⟨F, hFfinite, hF, harg⟩ := harg
  have hground := closed_ground symbols
  have hmem : star arg ∈ insert (star arg) (ground symbols) := Set.mem_insert _ _
  have hG : Grounded symbols (insert (star arg) (ground symbols)) := by
    apply hground.toGrounded.insert
    apply fits_of_mem hmem <;> simp [unionArgs, interArgs]
  have hclosed := closed_pieces hF hG hmem (by
    rintro T (rfl | hT) c
    · rw [derivative]
      exact mkConcat_mem_pieces hF.toGrounded hmem ((hF.stays arg harg).derivative c)
    · apply mem_pieces_right
      exact Or.inr ((hground.stays T hT).derivative c)) (by
    rintro T (rfl | hT)
    · left
      simp
    · right
      exact (hground.stays T hT).mono (Set.subset_insert _ _))
  refine ⟨_, finite_pieces hFfinite ((finite_ground symbols).insert _) (star arg), hclosed, ?_⟩
  apply subset_nodes
  exact mem_pieces_right hmem

theorem finitary_mkRepeated {arg : Tree} (harg : Finitary symbols arg) {min max : Nat}
    (h : ∀ low, max ≠ 0 → Finitary symbols (repeated arg low max)) :
    Finitary symbols (arg.mkRepeated min max) := by
  unfold mkRepeated
  split
  · exact finitary_ground (by simp [ground])
  next hmax =>
    dsimp only
    split
    · exact harg
    split
    · exact harg
    · split
      · exact finitary_ground (by simp [ground])
      · exact finitary_ground (by simp [ground])
    · exact finitary_ground (by simp [ground])
    · exact h _ hmax

theorem finitary_repeated_of_rest {arg : Tree} (harg : Finitary symbols arg) {min max : Nat}
    (hrest : Finitary symbols (arg.mkRepeated (min - 1) (max - 1))) :
    Finitary symbols (repeated arg min max) := by
  obtain ⟨H, hfinite, hH, _, hmk, _⟩ := exists_closed_concat harg hrest
  apply finitary_of_closed hH hfinite
  · apply fits_of_mem (Set.mem_insert _ H) <;> simp [unionArgs, interArgs]
  · exact hmk
  · simp

theorem finitary_repeated {arg : Tree} (harg : Finitary symbols arg) (min max : Nat) :
    Finitary symbols (repeated arg min max) := by
  induction max generalizing min with
  | zero =>
    apply finitary_repeated_of_rest harg
    apply finitary_mkRepeated harg
    intro low h
    exact absurd rfl h
  | succ max ih =>
    -- the rest has a smaller upper bound
    apply finitary_repeated_of_rest harg
    apply finitary_mkRepeated harg
    intro low _
    exact ih low

theorem finitary_negation {arg : Tree} (harg : Finitary symbols arg) :
    Finitary symbols (negation arg) := by
  obtain ⟨F, hfinite, hF, harg⟩ := harg
  have hsub : F ⊆ F ∪ mkNegation '' F := Set.subset_union_left
  -- a double negation is its operand, any other negation has a negation as its derivative
  have hcases : ∀ T ∈ F, mkNegation T ∈ F ∨
      mkNegation T = negation T ∧ ∀ c, (mkNegation T).derivative c ∈ mkNegation '' F := by
    intro T hT
    cases T with
    | negation U => exact Or.inl ((hF.fits _ hT).negation U rfl)
    | _ => exact Or.inr ⟨rfl, fun c => ⟨_, (hF.stays _ hT).derivative c, rfl⟩⟩
  have hclosed : Closed symbols (F ∪ mkNegation '' F) := by
    refine ⟨⟨hF.ground_subset.trans hsub, ?_⟩, ?_⟩
    · rintro T (hT | ⟨T, hT, rfl⟩)
      · exact (hF.fits T hT).mono hsub
      · rcases hcases T hT with h | ⟨h, _⟩
        · exact (hF.fits _ h).mono hsub
        · rw [h]
          exact fits_negation (hsub hT) (Or.inr ⟨T, hT, h⟩)
    · rintro T (hT | ⟨T, hT, rfl⟩)
      · exact (hF.stays T hT).mono hsub
      · rcases hcases T hT with h | ⟨h, hderivative⟩
        · exact (hF.stays _ h).mono hsub
        · apply stays_of_ne_concat
          · intro c
            exact Or.inr (hderivative c)
          · simp [h]
  apply finitary_of_closed hclosed (hfinite.union (hfinite.image mkNegation))
  · exact fits_negation (Or.inr (hsub harg)) (Set.mem_insert _ _)
  · intro c
    rw [derivative]
    exact Or.inr ⟨_, (hF.stays arg harg).derivative c, rfl⟩
  · simp

theorem Joins.finitary {node mk : Finset Tree → Tree} (h : Joins node mk) {size : Nat}
    {args : Fin size → Tree} (hargs : ∀ i, Finitary symbols (args i)) {T : Tree}
    (hderivative : ∀ c, T.derivative c = mk (Finset.univ.image fun i => (args i).derivative c))
    (hfits : ∀ F : Set Tree, (∀ i, args i ∈ F) → T ∈ F → T.Fits symbols F)
    (hconcat : ∀ x y, T ≠ concat x y) : Finitary symbols T := by
  -- the nodes over what the sets of all operands hold together are closed
  choose F hfinite hF hmem using hargs
  have hground : Closed symbols (ground symbols) := closed_ground symbols
  have hsub : ∀ i, F i ⊆ ground symbols ∪ ⋃ i, F i := by
    intro i
    exact (Set.subset_iUnion F i).trans Set.subset_union_right
  have hB : Grounded symbols (ground symbols ∪ ⋃ i, F i) := by
    refine ⟨Set.subset_union_left, ?_⟩
    rintro U (hU | hU)
    · exact (hground.fits U hU).mono Set.subset_union_left
    · obtain ⟨i, hU⟩ := Set.mem_iUnion.1 hU
      exact ((hF i).fits U hU).mono (hsub i)
  have hnodes := subset_nodes node (ground symbols ∪ ⋃ i, F i)
  have hclosed : Closed symbols (nodes node (ground symbols ∪ ⋃ i, F i)) := by
    apply h.closed_nodes hB
    rintro U (hU | hU)
    · exact (hground.stays U hU).mono (Set.subset_union_left.trans hnodes)
    · obtain ⟨i, hU⟩ := Set.mem_iUnion.1 hU
      exact ((hF i).stays U hU).mono ((hsub i).trans hnodes)
  apply finitary_of_closed hclosed _ _ _ hconcat
  · apply finite_nodes
    exact (finite_ground symbols).union (Set.finite_iUnion hfinite)
  · apply hfits _ _ (Set.mem_insert _ _)
    intro i
    exact Or.inr (hnodes (hsub i (hmem i)))
  · intro c
    rw [hderivative]
    apply h.mk_mem hB
    intro U hU
    rw [Finset.mem_coe, Finset.mem_image] at hU
    obtain ⟨i, _, rfl⟩ := hU
    exact hnodes (hsub i (((hF i).stays _ (hmem i)).derivative c))

theorem finitary_of_symbols_subset {T : Tree} (hT : T.symbols ⊆ symbols) : Finitary symbols T := by
  induction T with
  | emptySet | emptyString => exact finitary_ground (by simp [ground])
  | literal set =>
    apply finitary_ground
    right
    refine ⟨set, ?_, rfl⟩
    intro c hc
    apply hT
    simpa [Tree.symbols] using hc
  | concat left right ihl ihr =>
    rw [Tree.symbols, Finset.union_subset_iff] at hT
    exact finitary_concat (ihl hT.1) (ihr hT.2)
  | union size args ih =>
    rw [Tree.symbols, Finset.biUnion_subset] at hT
    apply joins_union.finitary fun i => ih i (hT i (Finset.mem_univ i))
    · intro c
      rfl
    · intro F hargs hmem
      constructor <;> simp [unionArgs, interArgs, hargs, hmem]
    · simp
  | inter size args ih =>
    rw [Tree.symbols, Finset.biUnion_subset] at hT
    apply joins_inter.finitary fun i => ih i (hT i (Finset.mem_univ i))
    · intro c
      rfl
    · intro F hargs hmem
      constructor <;> simp [unionArgs, interArgs, hargs, hmem]
    · simp
  | negation arg ih => exact finitary_negation (ih hT)
  | star arg ih => exact finitary_star (ih hT)
  | repeated arg min max ih => exact finitary_repeated (ih hT) min max

theorem exists_finset_wordDerivative (T : Tree) :
    ∃ F : Finset Tree, ∀ word, T.wordDerivative word ∈ F := by
  obtain ⟨F, hfinite, hF, hT⟩ := finitary_of_symbols_subset (Finset.Subset.refl T.symbols)
  refine ⟨hfinite.toFinset, ?_⟩
  intro word
  rw [Set.Finite.mem_toFinset]
  -- by induction on the word: the set is closed, so the word may start at any member
  generalize T.symbols = symbols at hF
  induction word generalizing T with
  | nil => exact hT
  | cons c word ih => exact ih (T.derivative c) ((hF.stays T hT).derivative c)

end Finitary

end Tree

end Residual
