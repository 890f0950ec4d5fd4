import Residual.Proofs.NormalForm.Rebuild
import Residual.Proofs.Tree.Concatenation
import Residual.Proofs.Tree.Grouping

/-!
This module contains the grouping of the operands of unions, intersections and concatenations. Both
groupings of three operands are mostly the same term. Where they are not, a rule has been applied to
two of the operands that does not apply to all three. The exceptions are stated for each operation.
-/

namespace Residual

namespace Store

section Groupings

variable (op : Store → TermId → TermId → TermId × Store)

def groupLeft (s : Store) (x y z : TermId) : TermId × Store :=
  let (t, s) := op s x y
  op s t z

def groupRight (s : Store) (x y z : TermId) : TermId × Store :=
  let (t, s) := op s y z
  op s x t

def groupings (s : Store) (x y z : TermId) : (TermId × TermId) × Store :=
  let (t, s) := s.groupLeft op x y z
  let (u, s) := s.groupRight op x y z
  ((t, u), s)

end Groupings

variable {s s' : Store} {t u v x y z : TermId}

structure Groups (s s' : Store) (t u : TermId) (T U : Tree) : Prop where
  ext : s.Extends s'
  wellFormed : s'.WellFormed
  fst_lt_size : t < s'.size
  snd_lt_size : u < s'.size
  tree_fst : s'.tree t = T
  tree_snd : s'.tree u = U

theorem Groups.eq_iff {T U : Tree} (h : s.Groups s' t u T U) : t = u ↔ T = U := by
  rw [← h.tree_fst, ← h.tree_snd, h.wellFormed.tree_eq_iff h.fst_lt_size h.snd_lt_size]

theorem Groups.eq_or_eq {T U : Tree} (h : s.Groups s' t u T U) (hv : v < s.size)
    (heq : T = s.tree v ∨ U = s.tree v) : t = v ∨ u = v := by
  rw [← h.ext.tree_eq hv, ← h.tree_fst, ← h.tree_snd] at heq
  have hv' := h.ext.lt_size hv
  exact heq.imp (h.wellFormed.tree_inj h.fst_lt_size hv') (h.wellFormed.tree_inj h.snd_lt_size hv')

section Mirrors

variable {op : Store → TermId → TermId → TermId × Store} {f : Tree → Tree → Tree}

def Mirrors (op : Store → TermId → TermId → TermId × Store) (f : Tree → Tree → Tree) : Prop :=
  ∀ s : Store, s.WellFormed → ∀ t < s.size, ∀ u < s.size,
    s.Builds (op s t u) (f (s.tree t) (s.tree u))

theorem mirrors_union : Mirrors union fun T U => .mkUnion (T.unionArgs ∪ U.unionArgs) := by
  intro s hs t ht u hu
  dsimp only
  rw [← Tree.mkUnionList_pair]
  exact builds_union hs ht hu

theorem mirrors_inter : Mirrors inter fun T U => .mkInter (T.interArgs ∪ U.interArgs) := by
  intro s hs t ht u hu
  dsimp only
  rw [← Tree.mkInterList_pair]
  exact builds_inter hs ht hu

theorem mirrors_concat : Mirrors concat .mkConcat :=
  fun _ hs _ ht _ hu => builds_concat hs ht hu

variable (hop : Mirrors op f) (hs : s.WellFormed) (hx : x < s.size) (hy : y < s.size)
  (hz : z < s.size)

include hop hs hx hy hz

theorem builds_groupLeft :
    s.Builds (s.groupLeft op x y z) (f (f (s.tree x) (s.tree y)) (s.tree z)) := by
  have h := hop s hs x hx y hy
  rw [← h.tree_eq, ← h.grows.ext.tree_eq hz]
  apply Builds.mono _ h.grows.ext
  exact hop _ h.wellFormed _ h.grows.lt_size _ (h.grows.ext.lt_size hz)

theorem builds_groupRight :
    s.Builds (s.groupRight op x y z) (f (s.tree x) (f (s.tree y) (s.tree z))) := by
  have h := hop s hs y hy z hz
  rw [← h.tree_eq, ← h.grows.ext.tree_eq hx]
  apply Builds.mono _ h.grows.ext
  exact hop _ h.wellFormed _ (h.grows.ext.lt_size hx) _ h.grows.lt_size

theorem groups_groupings (h : s.groupings op x y z = ((t, u), s')) : s.Groups s' t u
    (f (f (s.tree x) (s.tree y)) (s.tree z)) (f (s.tree x) (f (s.tree y) (s.tree z))) := by
  have hleft := builds_groupLeft hop hs hx hy hz
  have hext := hleft.grows.ext
  have hright := builds_groupRight hop hleft.wellFormed (hext.lt_size hx) (hext.lt_size hy)
    (hext.lt_size hz)
  rw [hext.tree_eq hx, hext.tree_eq hy, hext.tree_eq hz] at hright
  have hext' := hright.grows.ext
  cases h
  refine ⟨hext.trans hext', hright.wellFormed, hext'.lt_size hleft.grows.lt_size,
    hright.grows.lt_size, ?_, hright.tree_eq⟩
  rw [← hleft.tree_eq]
  exact hext'.tree_eq hleft.grows.lt_size

end Mirrors

section Operands

def IsCoLiteral (s : Store) (t : TermId) : Prop := ∃ u, s.expr t = .negation u ∧ s.IsLiteral u

theorem isCoLiteral_of_tree (h : (s.tree t).IsCoLiteral) : s.IsCoLiteral t := by
  obtain ⟨a, h⟩ := h
  obtain ⟨u, he, hu⟩ := expr_of_tree_eq_negation h
  exact ⟨u, he, a, literalSet?_eq_some_iff.1 (tree_eq_literal_iff.1 hu)⟩

theorem expr_of_tree_eq_negation_emptyString (hs : s.WellFormed) (ht : t < s.size)
    (h : s.tree t = .negation .emptyString) : s.expr t = .negation epsilon := by
  obtain ⟨u, he, hu⟩ := expr_of_tree_eq_negation h
  have hlt : u < s.size := lt_size_of_child ht he (by simp [Expr.children])
  rw [he, (hs.tree_eq_emptyString_iff hlt).1 hu]

theorem solid_trees (hs : s.Normal) (ts : List TermId) : Tree.Solid (s.trees ts) := by
  intro a ha
  obtain ⟨t, _, ht⟩ := mem_trees.1 ha
  have hnormal := hs t
  rw [literalSet?_eq_some_iff.1 (tree_eq_literal_iff.1 ht)] at hnormal
  obtain ⟨c, hc⟩ := hnormal
  exact fun hempty => SymbolSet.isEmpty_iff.1 hempty c hc

theorem trees_singleton (s : Store) (t : TermId) : s.trees [t] = {s.tree t} := by
  rw [trees_cons]
  rfl

theorem operands_unionArgs (hs : s.Normal) (ht : t < s.size) :
    Tree.Operands Tree.unionArgs (s.tree t).unionArgs := by
  rw [← trees_unionArgs]
  refine ⟨?_, solid_trees hs _⟩
  intro T hT
  obtain ⟨u, hu, rfl⟩ := mem_trees.1 hT
  rw [← trees_unionArgs, unionArgs_of_ne (of_mem_unionArgs hs ht hu).2, trees_singleton]

theorem operands_interArgs (hs : s.Normal) (ht : t < s.size) :
    Tree.Operands Tree.interArgs (s.tree t).interArgs := by
  rw [← trees_interArgs]
  refine ⟨?_, solid_trees hs _⟩
  intro T hT
  obtain ⟨u, hu, rfl⟩ := mem_trees.1 hT
  rw [← trees_interArgs, interArgs_of_ne (of_mem_interArgs hs ht hu).2, trees_singleton]

theorem groupings_of_regroups {op : Store → TermId → TermId → TermId × Store}
    {join : Finset Tree → Tree} {args : Tree → Finset Tree} {joined : Finset Tree → Tree}
    {fragile : Tree → Prop} {split : TermId → List TermId}
    (h : Tree.Regroups join args (s.tree v) joined fragile)
    (hop : Mirrors op fun T U => join (args T ∪ args U)) (hs : s.WellFormed) (hv : v < s.size)
    (hsplit : ∀ t, s.trees (split t) = args (s.tree t))
    (hoperands : ∀ t < s.size, Tree.Operands args (args (s.tree t))) (hx : x < s.size)
    (hy : y < s.size) (hz : z < s.size) (hgroupings : s.groupings op x y z = ((t, u), s'))
    (hne : t ≠ u) : (t = v ∨ u = v) ∧ ∃ a ∈ [x, y, z].flatMap split, fragile (s.tree a) := by
  have hgroups := groups_groupings hop hs hx hy hz hgroupings
  obtain ⟨hdecided, T, hT, hfragile⟩ := h.grouping (hoperands x hx) (hoperands y hy)
    (hoperands z hz) (mt hgroups.eq_iff.2 hne)
  refine ⟨hgroups.eq_or_eq hv hdecided, ?_⟩
  rw [← hsplit x, ← hsplit y, ← hsplit z] at hT
  simp only [Finset.mem_union, mem_trees] at hT
  obtain (⟨a, ha, rfl⟩ | ⟨a, ha, rfl⟩) | ⟨a, ha, rfl⟩ := hT
  · exact ⟨a, List.mem_flatMap.2 ⟨x, by simp, ha⟩, hfragile⟩
  · exact ⟨a, List.mem_flatMap.2 ⟨y, by simp, ha⟩, hfragile⟩
  · exact ⟨a, List.mem_flatMap.2 ⟨z, by simp, ha⟩, hfragile⟩

end Operands

section Conflict

theorem isProper_tree : (s.tree t).IsProper ↔ s.IsProper t := by
  rw [Tree.IsProper, IsProper, tree_eq]
  cases s.expr t <;> simp [Expr.tree, Tree.unionNode, Tree.interNode]

/--
Whether all words absorb a part in one grouping of a concatenation only. Either they come last and
absorb the middle part, but not the first two parts together, as the first one cannot be skipped. Or
they come in the middle and absorb the first part, but not once something else follows them.
-/
def Conflict (s : Store) (x y z : TermId) : Prop :=
  s.IsProper x ∧ s.IsProper y ∧ s.IsProper z ∧
    ((z = full ∧ s.nullable y = true ∧ ¬s.nullable x = true) ∨
      (y = full ∧ s.nullable x = true ∧ z ≠ full))

theorem conflict_tree (hs : s.WellFormed) (hx : x < s.size) (hy : y < s.size) (hz : z < s.size) :
    (s.tree x).Conflict (s.tree y) (s.tree z) ↔ s.Conflict x y z := by
  rw [Tree.Conflict, Conflict, isProper_tree, isProper_tree, isProper_tree,
    hs.nullable_tree hx, hs.nullable_tree hy, Ne, hs.tree_eq_full_iff hy, hs.tree_eq_full_iff hz]

end Conflict

end Store

namespace Workspace

variable {w : Workspace} {x y z : TermId}

theorem store_of_build {α : Type} {f : Store → α × Store} {a : α} {w' : Workspace}
    (h : w.build f = (a, w')) : f w.store = (a, w'.store) := by
  rw [build_eq] at h
  cases h
  rfl

/--
The groupings of three operands are the same term with these exceptions. A complement of a literal
may meet this literal in one grouping only, which then is all words in a union and the empty
language in an intersection. In a union it may also be the complement of the empty word. In a
concatenation all words may absorb a part in one grouping only, and then the results do differ.
-/
theorem Reachable.grouping_exceptions (hw : w.Reachable) (hx : x < w.numTerms) (hy : y < w.numTerms)
    (hz : z < w.numTerms) :
    (∀ t u w', w.build (fun s => s.groupings Store.union x y z) = ((t, u), w') → t ≠ u →
      (t = Store.full ∨ u = Store.full) ∧ ∃ v ∈ [x, y, z].flatMap w.store.unionArgs,
        w.store.IsCoLiteral v ∨ w.store.expr v = .negation Store.epsilon) ∧
    (∀ t u w', w.build (fun s => s.groupings Store.inter x y z) = ((t, u), w') → t ≠ u →
      (t = Store.empty ∨ u = Store.empty) ∧ ∃ v ∈ [x, y, z].flatMap w.store.interArgs,
        w.store.IsCoLiteral v) ∧
    (∀ t u w', w.build (fun s => s.groupings Store.concat x y z) = ((t, u), w') →
      (t = u ↔ ¬w.store.Conflict x y z)) := by
  have hs := hw.sound.wellFormed
  have hnormal := (invariant_normal.holds hw).store
  refine ⟨?_, ?_, ?_⟩
  · intro t u w' hbuild hne
    have hgroupings := store_of_build hbuild
    have hregroups := Tree.regroups_union
    rw [← w.store.tree_full] at hregroups
    obtain ⟨hdecided, v, hv, hfragile⟩ := Store.groupings_of_regroups hregroups
      Store.mirrors_union hs w.store.full_lt_size w.store.trees_unionArgs
      (fun _ => Store.operands_unionArgs hnormal) hx hy hz hgroupings hne
    refine ⟨hdecided, v, hv, hfragile.imp Store.isCoLiteral_of_tree ?_⟩
    obtain ⟨a, ha, hva⟩ := List.mem_flatMap.1 hv
    apply Store.expr_of_tree_eq_negation_emptyString hs
    apply Store.unionArgs_lt_size _ hva
    simp only [List.mem_cons, List.not_mem_nil, or_false] at ha
    obtain rfl | rfl | rfl := ha <;> assumption
  · intro t u w' hbuild hne
    have hgroupings := store_of_build hbuild
    have hregroups := Tree.regroups_inter
    rw [← w.store.tree_empty] at hregroups
    obtain ⟨hdecided, v, hv, hfragile⟩ := Store.groupings_of_regroups hregroups
      Store.mirrors_inter hs w.store.empty_lt_size w.store.trees_interArgs
      (fun _ => Store.operands_interArgs hnormal) hx hy hz hgroupings hne
    exact ⟨hdecided, v, hv, Store.isCoLiteral_of_tree hfragile⟩
  · intro t u w' hbuild
    have hgroupings := store_of_build hbuild
    rw [← Store.conflict_tree hs hx hy hz, ← Tree.concat_grouping]
    exact (Store.groups_groupings Store.mirrors_concat hs hx hy hz hgroupings).eq_iff

def complements : Workspace :=
  (((((initial 5).perform (.build (.symbol 'a'))).perform (.build (.negation 3))).perform
    (.build (.oneOf ['a', 'b']))).perform (.build (.negation 5))).perform (.build (.symbol 'b'))

theorem reachable_complements : complements.Reachable := by
  have hneg := (reachable_symbol 5 'a').perform (.build (.negation 3)) (by decide +kernel)
  have hset := hneg.perform (.build (.oneOf ['a', 'b'])) (by decide +kernel)
  have hneg' := hset.perform (.build (.negation 5)) (by decide +kernel)
  exact hneg'.perform (.build (.symbol 'b')) (by decide +kernel)

theorem grouping_exceptions_complements :
    complements.Reachable ∧ 4 < complements.numTerms ∧ 3 < complements.numTerms ∧
      5 < complements.numTerms ∧
      (complements.build fun s => s.groupings Store.union 4 3 5).1 = (Store.full, 8) ∧
      (∃ v ∈ [4, 3, 5].flatMap complements.store.unionArgs, complements.store.IsCoLiteral v ∨
        complements.store.expr v = .negation Store.epsilon) ∧
      (complements.build fun s => s.groupings Store.inter 4 3 5).1 = (Store.empty, Store.empty) ∧
      ¬complements.store.Conflict 4 3 5 := by
  have hx : 4 < complements.numTerms := by decide +kernel
  have hy : 3 < complements.numTerms := by decide +kernel
  have hz : 5 < complements.numTerms := by decide +kernel
  have hunion : (complements.build fun s => s.groupings Store.union 4 3 5).1 = (Store.full, 8) := by
    decide +kernel
  have hinter : (complements.build fun s => s.groupings Store.inter 4 3 5).1 =
      (Store.empty, Store.empty) := by decide +kernel
  have hconcat : (complements.build fun s => s.groupings Store.concat 4 3 5).1 = (10, 10) := by
    decide +kernel
  obtain ⟨hunions, _, hconcats⟩ := reachable_complements.grouping_exceptions hx hy hz
  refine ⟨reachable_complements, hx, hy, hz, hunion, ?_, hinter, ?_⟩
  · exact (hunions _ _ _ (Prod.ext hunion rfl) (by decide)).2
  · exact (hconcats _ _ _ (Prod.ext hconcat rfl)).1 rfl

def Associates (op : Store → TermId → TermId → TermId × Store) : Prop :=
  ∀ w : Workspace, w.Reachable → ∀ x < w.numTerms, ∀ y < w.numTerms, ∀ z < w.numTerms,
    ∀ t u w', w.build (fun s => s.groupings op x y z) = ((t, u), w') → t = u

theorem not_associates_complements :
    ¬Associates Store.union ∧ ¬Associates Store.inter ∧ ¬Associates Store.concat := by
  have hlt : ∀ t < 8, t < complements.numTerms := by decide +kernel
  have hunion : (complements.build fun s => s.groupings Store.union 4 3 5).1 = (Store.full, 8) := by
    decide +kernel
  have hinter : (complements.build fun s => s.groupings Store.inter 5 6 7).1 = (Store.empty, 8) := by
    decide +kernel
  have hconcat : (complements.build fun s => s.groupings Store.concat 2 2 3).1 = (8, 9) := by
    decide +kernel
  refine ⟨?_, ?_, ?_⟩
  · intro h
    cases h _ reachable_complements 4 (hlt 4 (by decide)) 3 (hlt 3 (by decide)) 5
      (hlt 5 (by decide)) _ _ _ (Prod.ext hunion rfl)
  · intro h
    cases h _ reachable_complements 5 (hlt 5 (by decide)) 6 (hlt 6 (by decide)) 7
      (hlt 7 (by decide)) _ _ _ (Prod.ext hinter rfl)
  · intro h
    cases h _ reachable_complements 2 (hlt 2 (by decide)) 2 (hlt 2 (by decide)) 3
      (hlt 3 (by decide)) _ _ _ (Prod.ext hconcat rfl)

end Workspace

end Residual
