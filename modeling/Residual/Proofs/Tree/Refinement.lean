import Residual.Proofs.Tree.Derivative

/-!
This module contains the connection between the operations of a store and those on trees: the result
of an operation stands for the tree that the same operation makes of the trees of its operands.
-/

namespace Residual

namespace Store

structure Builds (s : Store) (r : TermId × Store) (T : Tree) : Prop where
  grows : s.Grows r
  wellFormed : r.2.WellFormed
  tree_eq : r.2.tree r.1 = T

theorem Builds.of_lt {s : Store} (hs : s.WellFormed) {t : TermId} (ht : t < s.size) :
    s.Builds (t, s) (s.tree t) :=
  ⟨.of_lt ht, hs, rfl⟩

theorem Builds.mono {s s' : Store} {r : TermId × Store} {T : Tree} (h : s'.Builds r T)
    (hs : s.Extends s') : s.Builds r T :=
  ⟨h.grows.mono hs, h.wellFormed, h.tree_eq⟩

section Basic

variable (s : Store)

@[simp]
theorem tree_empty : s.tree empty = .emptySet := by rw [tree_eq, expr_empty]; rfl

@[simp]
theorem tree_epsilon : s.tree epsilon = .emptyString := by rw [tree_eq, expr_epsilon]; rfl

@[simp]
theorem tree_full : s.tree full = .full := by rw [tree_eq, expr_full, Expr.tree, tree_empty]

theorem wellFormed_initial : initial.WellFormed := by
  intro t
  match t with
  | 0 | 1 | 2 | _ + 3 => exact True.intro

end Basic

section WellFormed

variable {s : Store}

theorem WellFormed.tree_eq_iff (hs : s.WellFormed) {t u : TermId} (ht : t < s.size)
    (hu : u < s.size) : s.tree t = s.tree u ↔ t = u :=
  ⟨hs.tree_inj ht hu, congrArg s.tree⟩

theorem WellFormed.tree_eq_emptySet_iff (hs : s.WellFormed) {t : TermId} (ht : t < s.size) :
    s.tree t = .emptySet ↔ t = empty := by
  rw [← s.tree_empty, hs.tree_eq_iff ht s.empty_lt_size]

theorem WellFormed.tree_eq_emptyString_iff (hs : s.WellFormed) {t : TermId} (ht : t < s.size) :
    s.tree t = .emptyString ↔ t = epsilon := by
  rw [← s.tree_epsilon, hs.tree_eq_iff ht s.epsilon_lt_size]

theorem WellFormed.tree_eq_full_iff (hs : s.WellFormed) {t : TermId} (ht : t < s.size) :
    s.tree t = .full ↔ t = full := by
  rw [← s.tree_full, hs.tree_eq_iff ht s.full_lt_size]

theorem builds_empty (hs : s.WellFormed) : s.Builds (empty, s) .emptySet :=
  s.tree_empty ▸ Builds.of_lt hs s.empty_lt_size

theorem builds_epsilon (hs : s.WellFormed) : s.Builds (epsilon, s) .emptyString :=
  s.tree_epsilon ▸ Builds.of_lt hs s.epsilon_lt_size

theorem builds_full (hs : s.WellFormed) : s.Builds (full, s) .full :=
  s.tree_full ▸ Builds.of_lt hs s.full_lt_size

theorem wellFormed_push {e : Expr} (hs : s.WellFormed) (hc : ∀ c ∈ e.children, c < s.size)
    (hnew : s.exprs.find? e = none) (he : e.WellFormed) : (s.push e hc hnew).WellFormed := by
  intro t
  have hget : (s.push e hc hnew).exprs.get? t = if t = s.exprs.size then some e else s.exprs.get? t :=
    Numbering.get?_push s.exprs e hnew t
  rw [expr, hget]
  split
  · exact he
  · exact hs t

theorem builds_make {e : Expr} (hs : s.WellFormed) (hc : ∀ c ∈ e.children, c < s.size)
    (he : e.WellFormed) : s.Builds (s.make e) (e.tree s.tree) := by
  refine ⟨grows_make hc, ?_, ?_⟩
  · unfold make
    rw [dif_pos hc]
    split
    · exact hs
    · exact wellFormed_push hs hc _ he
  · rw [Store.tree_eq, expr_make hc]
    apply Expr.tree_congr
    intro c h
    exact (grows_make hc).ext.tree_eq (hc c h)

theorem builds_literal (hs : s.WellFormed) (set : SymbolSet) :
    s.Builds (s.literal set) (.mkLiteral set) := by
  unfold literal Tree.mkLiteral
  split
  · exact builds_empty hs
  · exact builds_make hs (by simp [Expr.children]) True.intro

end WellFormed

section Concat

variable {s : Store}

theorem map_tree_factors (s : Store) (t : TermId) :
    (s.factors t).map s.tree = (s.tree t).factors := by
  fun_induction factors s t with
  | case1 t left right he _ ih => rw [tree_eq s t, he, Expr.tree, Tree.factors, List.map_cons, ih]
  | case2 t he =>
    rw [List.map_singleton]
    rw [tree_eq]
    cases h : s.expr t with
    | concat left right => exact absurd h (he left right)
    | _ => rfl

theorem builds_foldr_concat (hs : s.WellFormed) {l : List TermId} (hl : ∀ x ∈ l, x < s.size)
    {right : TermId} (hr : right < s.size) :
    s.Builds (l.foldr (fun x r => r.2.make (.concat x r.1)) (right, s))
      ((l.map s.tree).foldr .concat (s.tree right)) := by
  induction l with
  | nil => exact .of_lt hs hr
  | cons x l ih =>
    have ih := ih fun y hy => hl y (List.mem_cons_of_mem x hy)
    have hx := hl x List.mem_cons_self
    rw [List.foldr_cons, List.map_cons, List.foldr_cons]
    rw [← ih.tree_eq, ← ih.grows.ext.tree_eq hx]
    apply Builds.mono _ ih.grows.ext
    apply builds_make (e := .concat x _) ih.wellFormed _ True.intro
    simpa [Expr.children] using ⟨ih.grows.ext.lt_size hx, ih.grows.lt_size⟩

theorem builds_concat (hs : s.WellFormed) {left right : TermId} (hl : left < s.size)
    (hr : right < s.size) :
    s.Builds (s.concat left right) ((s.tree left).mkConcat (s.tree right)) := by
  unfold concat Tree.mkConcat
  simp only [hs.tree_eq_emptySet_iff hl, hs.tree_eq_emptySet_iff hr,
    hs.tree_eq_emptyString_iff hl, hs.tree_eq_emptyString_iff hr, hs.tree_eq_full_iff hr,
    hs.nullable_tree hl]
  by_cases hempty : left = empty ∨ right = empty
  · rw [if_pos hempty, if_pos hempty]
    exact builds_empty hs
  rw [if_neg hempty, if_neg hempty]
  by_cases hleft : left = epsilon
  · rw [if_pos hleft, if_pos hleft]
    exact .of_lt hs hr
  rw [if_neg hleft, if_neg hleft]
  by_cases hright : right = epsilon
  · rw [if_pos hright, if_pos hright]
    exact .of_lt hs hl
  rw [if_neg hright, if_neg hright]
  by_cases hfull : right = full ∧ s.nullable left = true
  · rw [if_pos hfull, if_pos hfull]
    exact builds_full hs
  · rw [if_neg hfull, if_neg hfull, Tree.append, ← map_tree_factors]
    apply builds_foldr_concat hs _ hr
    intro x hx
    exact Nat.lt_of_le_of_lt (le_of_mem_factors hx) hl

theorem builds_concatList (hs : s.WellFormed) {ts : List TermId} (h : ∀ t ∈ ts, t < s.size) :
    s.Builds (s.concatList ts) ((ts.map s.tree).foldr .mkConcat .emptyString) := by
  unfold concatList
  induction ts with
  | nil => exact builds_epsilon hs
  | cons t ts ih =>
    have ih := ih fun u hu => h u (List.mem_cons_of_mem t hu)
    have ht := h t List.mem_cons_self
    rw [List.foldr_cons, List.map_cons, List.foldr_cons]
    rw [← ih.tree_eq, ← ih.grows.ext.tree_eq ht]
    apply Builds.mono _ ih.grows.ext
    exact builds_concat ih.wellFormed (ih.grows.ext.lt_size ht) ih.grows.lt_size

theorem builds_word (hs : s.WellFormed) (w : List Char) :
    s.Builds (s.word w)
      (w.foldr (fun c T => (Tree.mkLiteral (.singleton c)).mkConcat T) .emptyString) := by
  unfold word
  induction w with
  | nil => exact builds_epsilon hs
  | cons c w ih =>
    rw [List.foldr_cons, List.foldr_cons]
    have hc := builds_literal ih.wellFormed (.singleton c)
    rw [← ih.tree_eq, ← hc.grows.ext.tree_eq ih.grows.lt_size, ← hc.tree_eq]
    apply Builds.mono _ (ih.grows.ext.trans hc.grows.ext)
    exact builds_concat hc.wellFormed hc.grows.lt_size (hc.grows.ext.lt_size ih.grows.lt_size)

end Concat

section Boolean

variable {s : Store}

noncomputable def trees (s : Store) (ts : List TermId) : Finset Tree := (ts.map s.tree).toFinset

theorem mem_trees {ts : List TermId} {T : Tree} : T ∈ s.trees ts ↔ ∃ t ∈ ts, s.tree t = T := by
  simp [trees]

theorem tree_mem_trees {ts : List TermId} {t : TermId} (h : t ∈ ts) : s.tree t ∈ s.trees ts :=
  mem_trees.2 ⟨t, h, rfl⟩

theorem trees_congr {ts us : List TermId} (h : ∀ t, t ∈ ts ↔ t ∈ us) : s.trees ts = s.trees us := by
  ext T
  rw [mem_trees, mem_trees]
  exact exists_congr fun t => and_congr_left' (h t)

theorem trees_cons (t : TermId) (ts : List TermId) :
    s.trees (t :: ts) = insert (s.tree t) (s.trees ts) := by
  simp [trees]

theorem Extends.trees_eq {s' : Store} (h : s.Extends s') {ts : List TermId}
    (ht : ∀ t ∈ ts, t < s.size) : s'.trees ts = s.trees ts := by
  have : ts.map s'.tree = ts.map s.tree := List.map_congr_left fun t h' => h.tree_eq (ht t h')
  rw [trees, trees, this]

theorem trees_filter {ts : List TermId} {p : TermId → Bool} {q : Tree → Prop} [DecidablePred q]
    (h : ∀ t ∈ ts, (p t = true ↔ q (s.tree t))) : s.trees (ts.filter p) = (s.trees ts).filter q := by
  ext T
  simp only [mem_trees, Finset.mem_filter, List.mem_filter]
  constructor
  · rintro ⟨t, ⟨ht, hp⟩, rfl⟩
    exact ⟨⟨t, ht, rfl⟩, (h t ht).1 hp⟩
  · rintro ⟨⟨t, ht, rfl⟩, hq⟩
    exact ⟨t, ⟨ht, (h t ht).2 hq⟩, rfl⟩

theorem WellFormed.tree_mem_trees_iff (hs : s.WellFormed) {ts : List TermId}
    (hts : ∀ t ∈ ts, t < s.size) {t : TermId} (ht : t < s.size) :
    s.tree t ∈ s.trees ts ↔ t ∈ ts := by
  rw [mem_trees]
  constructor
  · rintro ⟨u, hu, heq⟩
    rw [← hs.tree_inj (hts u hu) ht heq]
    exact hu
  · intro h
    exact ⟨t, h, rfl⟩

theorem WellFormed.trees_filter_ne (hs : s.WellFormed) {ts : List TermId}
    (hts : ∀ t ∈ ts, t < s.size) {u : TermId} (hu : u < s.size) :
    s.trees (ts.filter (· ≠ u)) = (s.trees ts).erase (s.tree u) := by
  rw [← Finset.filter_ne']
  apply trees_filter
  intro t ht
  rw [decide_eq_true_eq]
  exact not_congr (hs.tree_eq_iff (hts t ht) hu).symm

theorem literalSet?_tree (s : Store) (t : TermId) : (s.tree t).literalSet? = s.literalSet? t := by
  rw [tree_eq, literalSet?]
  cases s.expr t <;> rfl

theorem tree_eq_literal_iff {t : TermId} {set : SymbolSet} :
    s.tree t = .literal set ↔ s.literalSet? t = some set := by
  rw [← literalSet?_tree, Tree.literalSet?_eq_some_iff]

structure Arranges (s : Store) (r : List TermId × Store) (S : Finset Tree) : Prop where
  ext : s.Extends r.2
  lt_size : ∀ t ∈ r.1, t < r.2.size
  wellFormed : r.2.WellFormed
  increasing : Increasing r.1
  trees_eq : r.2.trees r.1 = S

theorem arranges_orderArgs {f : SymbolSet → SymbolSet → SymbolSet} (hf : SymbolSet.Combines f)
    (hs : s.WellFormed) {args : List TermId} (h : ∀ t ∈ args, t < s.size) :
    s.Arranges (s.orderArgs f args) (Tree.mergeLiterals f (s.trees args)) := by
  obtain ⟨hext, hlt⟩ := orderArgs_spec (f := f) h
  have hothers : s.trees (args.filter fun t => (s.literalSet? t).isNone) =
      (s.trees args).filter fun T => T.literalSet? = none := by
    apply trees_filter
    intro t _
    rw [literalSet?_tree, Option.isNone_iff_eq_none]
  have hlit : ∀ x, x ∈ args.filterMap s.literalSet? ↔ .literal x ∈ s.trees args := by
    intro x
    simp only [List.mem_filterMap, mem_trees, tree_eq_literal_iff]
  unfold orderArgs at hext hlt ⊢
  simp only at hext hlt ⊢
  generalize args.filterMap s.literalSet? = sets at hlit hext hlt ⊢
  rcases Tree.mergeLiterals_cases f (s.trees args) with ⟨hnone, heq⟩ | ⟨x, xs, hmem, heq⟩
  · cases sets with
    | cons set sets => exact absurd ((hlit set).1 List.mem_cons_self) (hnone set)
    | nil =>
      refine ⟨hext, hlt, hs, increasing_increasing _, ?_⟩
      rw [trees_congr fun t => mem_increasing, hothers, heq]
      apply Finset.filter_true_of_mem
      intro T hT
      cases T with
      | literal set => exact absurd hT (hnone set)
      | _ => rfl
  · cases sets with
    | nil => exact absurd ((hlit x).2 ((hmem x).1 List.mem_cons_self)) List.not_mem_nil
    | cons set sets =>
      have hset := builds_literal hs (sets.foldl f set)
      refine ⟨hext, hlt, hset.wellFormed, increasing_increasing _, ?_⟩
      have hfold : sets.foldl f set = xs.foldl f x := hf fun z => (hlit z).trans (hmem z).symm
      have hold : ∀ t ∈ args.filter fun t => (s.literalSet? t).isNone, t < s.size :=
        fun t ht => h t (List.mem_filter.1 ht).1
      rw [trees_congr fun t => mem_increasing, trees_cons, hset.tree_eq,
        hset.grows.ext.trees_eq hold, hothers, hfold, heq]

theorem expr_of_tree_eq_negation {t : TermId} {T : Tree} (h : s.tree t = .negation T) :
    ∃ u, s.expr t = .negation u ∧ s.tree u = T := by
  rw [tree_eq] at h
  cases he : s.expr t <;> simp only [he, Expr.tree, Tree.unionNode, Tree.interNode, reduceCtorEq,
    Tree.negation.injEq] at h
  next u => exact ⟨u, rfl, h⟩

theorem hasComplements_iff (hs : s.WellFormed) {args : List TermId} (h : ∀ t ∈ args, t < s.size) :
    s.hasComplements args = true ↔ Tree.HasComplements (s.trees args) := by
  rw [hasComplements, List.any_eq_true, Tree.HasComplements]
  constructor
  · rintro ⟨t, ht, hneg⟩
    split at hneg
    next u he =>
      refine ⟨s.tree u, tree_mem_trees (List.contains_iff_mem.1 hneg), ?_⟩
      have : s.tree t = .negation (s.tree u) := by rw [tree_eq, he, Expr.tree]
      exact this ▸ tree_mem_trees ht
    · contradiction
  · rintro ⟨T, hT, hneg⟩
    obtain ⟨u, hu, rfl⟩ := mem_trees.1 hT
    obtain ⟨t, ht, heq⟩ := mem_trees.1 hneg
    obtain ⟨v, he, hv⟩ := expr_of_tree_eq_negation heq
    have hlt : v < s.size := lt_size_of_child (h t ht) he (by simp [Expr.children])
    rw [hs.tree_eq_iff hlt (h u hu)] at hv
    refine ⟨t, ht, ?_⟩
    rw [he, hv]
    exact List.contains_iff_mem.2 hu

theorem collapse_trees (hs : s.WellFormed) {args : List TermId} (h : ∀ t ∈ args, t < s.size)
    (hinc : Increasing args) (hnil : args ≠ []) (hsingle : ∀ t, args ≠ [t]) (zero : Tree)
    (node : Finset Tree → Tree) : Tree.collapse zero node (s.trees args) = node (s.trees args) := by
  match args with
  | [] => exact absurd rfl hnil
  | [t] => exact absurd rfl (hsingle t)
  | t :: u :: args =>
    have ht : t ∈ t :: u :: args := List.mem_cons_self
    have hu : u ∈ t :: u :: args := List.mem_cons_of_mem t List.mem_cons_self
    apply Tree.collapse_of_ne (tree_mem_trees ht) (tree_mem_trees hu)
    intro heq
    have htu := (List.pairwise_cons.1 hinc).1 u List.mem_cons_self
    rw [hs.tree_inj (h t ht) (h u hu) heq] at htu
    simp at htu

theorem trees_dropEpsilon (hs : s.WellFormed) {args : List TermId} (h : ∀ t ∈ args, t < s.size) :
    s.trees (if args.any fun t => t ≠ epsilon && s.nullable t then args.filter (· ≠ epsilon)
      else args) = Tree.dropEpsilon (s.trees args) := by
  have hiff : (args.any fun t => t ≠ epsilon && s.nullable t) = true ↔
      ∃ T ∈ s.trees args, T ≠ .emptyString ∧ T.nullable := by
    rw [List.any_eq_true]
    constructor
    · rintro ⟨t, ht, hp⟩
      rw [Bool.and_eq_true, decide_eq_true_eq] at hp
      refine ⟨s.tree t, tree_mem_trees ht, ?_, (hs.nullable_tree (h t ht)).2 hp.2⟩
      rw [Ne, hs.tree_eq_emptyString_iff (h t ht)]
      exact hp.1
    · rintro ⟨T, hT, hne, hnull⟩
      obtain ⟨t, ht, rfl⟩ := mem_trees.1 hT
      refine ⟨t, ht, ?_⟩
      rw [Ne, hs.tree_eq_emptyString_iff (h t ht)] at hne
      rw [Bool.and_eq_true, decide_eq_true_eq]
      exact ⟨hne, (hs.nullable_tree (h t ht)).1 hnull⟩
  unfold Tree.dropEpsilon
  by_cases hany : (args.any fun t => t ≠ epsilon && s.nullable t) = true
  · rw [if_pos hany, if_pos (hiff.1 hany), hs.trees_filter_ne h s.epsilon_lt_size, tree_epsilon]
  · rw [if_neg hany, if_neg (mt hiff.2 hany)]

theorem Arranges.erase {r : List TermId × Store} {S : Finset Tree} (h : s.Arranges r S) {u : TermId}
    (hu : u < r.2.size) : s.Arranges (r.1.filter (· ≠ u), r.2) (S.erase (r.2.tree u)) where
  ext := h.ext
  lt_size t ht := h.lt_size t (List.mem_filter.1 ht).1
  wellFormed := h.wellFormed
  increasing := h.increasing.filter _
  trees_eq := by
    show r.2.trees (r.1.filter (· ≠ u)) = _
    rw [h.wellFormed.trees_filter_ne h.lt_size hu, h.trees_eq]

theorem Arranges.dropEpsilon {args : List TermId} {s' : Store} {S : Finset Tree}
    (h : s.Arranges (args, s') S) :
    s.Arranges (if args.any fun t => t ≠ epsilon && s'.nullable t then args.filter (· ≠ epsilon)
      else args, s') (Tree.dropEpsilon S) := by
  obtain ⟨hext, hlt, hs', hinc, rfl⟩ := h
  refine ⟨hext, ?_, hs', ?_, trees_dropEpsilon hs' hlt⟩
  · intro t ht
    dsimp only at ht
    split at ht
    · exact hlt t (List.mem_filter.1 ht).1
    · exact hlt t ht
  · dsimp only
    split
    · exact hinc.filter _
    · exact hinc

theorem Arranges.isDecided_iff {args : List TermId} {s' : Store} {S : Finset Tree}
    (h : s.Arranges (args, s') S) {u : TermId} (hu : u < s'.size) :
    (args.contains u || s'.hasComplements args) = true ↔ s'.tree u ∈ S ∨ Tree.HasComplements S := by
  obtain ⟨_, hlt, hs', _, rfl⟩ := h
  rw [Bool.or_eq_true, List.contains_iff_mem, hasComplements_iff hs' hlt,
    hs'.tree_mem_trees_iff hlt hu]

theorem Arranges.all_nullable_iff {args : List TermId} {s' : Store} {S : Finset Tree}
    (h : s.Arranges (args, s') S) : args.all s'.nullable = true ↔ ∀ T ∈ S, T.nullable := by
  obtain ⟨_, hlt, hs', _, rfl⟩ := h
  rw [List.all_eq_true]
  constructor
  · intro hnull T hT
    obtain ⟨t, ht, rfl⟩ := mem_trees.1 hT
    exact (hs'.nullable_tree (hlt t ht)).2 (hnull t ht)
  · intro hnull t ht
    exact (hs'.nullable_tree (hlt t ht)).1 (hnull _ (tree_mem_trees ht))

theorem builds_unionOf (hs : s.WellFormed) {args : List TermId} (h : ∀ t ∈ args, t < s.size) :
    s.Builds (s.unionOf args) (.mkUnion (s.trees args)) := by
  have harranges := arranges_orderArgs SymbolSet.combines_union hs h
  replace harranges := harranges.erase (empty_lt_size _)
  rw [tree_empty] at harranges
  unfold unionOf Tree.mkUnion
  generalize s.orderArgs .union args = r at harranges
  obtain ⟨args', s'⟩ := r
  dsimp only at harranges ⊢
  generalize args'.filter (· ≠ empty) = args' at harranges
  generalize (Tree.mergeLiterals .union (s.trees args)).erase .emptySet = S at harranges
  apply Builds.mono _ harranges.ext
  have hs' : s'.WellFormed := harranges.wellFormed
  have hfull := harranges.isDecided_iff s'.full_lt_size
  rw [tree_full] at hfull
  by_cases hc : (args'.contains full || s'.hasComplements args') = true
  · rw [if_pos hc, if_pos (hfull.1 hc)]
    exact builds_full hs'
  rw [if_neg hc, if_neg (mt hfull.2 hc)]
  obtain ⟨_, hlt, _, hinc, htrees⟩ := harranges.dropEpsilon
  rw [← htrees]
  generalize (if args'.any fun t => t ≠ epsilon && s'.nullable t then
    args'.filter (· ≠ epsilon) else args') = args' at hlt hinc
  split
  · rw [← s'.tree_empty]
    exact (Tree.collapse_empty ..).symm ▸ .of_lt hs' s'.empty_lt_size
  next t => exact (Tree.collapse_singleton ..).symm ▸ .of_lt hs' (hlt t List.mem_cons_self)
  next hnil hsingle =>
    rw [collapse_trees hs' hlt hinc hnil hsingle]
    exact builds_make (e := .union _) hs' hlt hinc

theorem builds_interOf (hs : s.WellFormed) {args : List TermId} (h : ∀ t ∈ args, t < s.size) :
    s.Builds (s.interOf args) (.mkInter (s.trees args)) := by
  have harranges := arranges_orderArgs SymbolSet.combines_inter hs h
  replace harranges := harranges.erase (full_lt_size _)
  rw [tree_full] at harranges
  unfold interOf Tree.mkInter
  generalize s.orderArgs .inter args = r at harranges
  obtain ⟨args', s'⟩ := r
  dsimp only at harranges ⊢
  generalize args'.filter (· ≠ full) = args' at harranges
  generalize (Tree.mergeLiterals .inter (s.trees args)).erase .full = S at harranges
  apply Builds.mono _ harranges.ext
  have hs' : s'.WellFormed := harranges.wellFormed
  have hempty := harranges.isDecided_iff s'.empty_lt_size
  rw [tree_empty] at hempty
  by_cases hc : (args'.contains empty || s'.hasComplements args') = true
  · rw [if_pos hc, if_pos (hempty.1 hc)]
    exact builds_empty hs'
  rw [if_neg hc, if_neg (mt hempty.2 hc)]
  have hall := harranges.all_nullable_iff
  obtain ⟨-, hlt, -, hinc, rfl⟩ := harranges
  have heps : args'.contains epsilon = true ↔ Tree.emptyString ∈ s'.trees args' := by
    rw [List.contains_iff_mem, ← s'.tree_epsilon, hs'.tree_mem_trees_iff hlt s'.epsilon_lt_size]
  by_cases he : args'.contains epsilon = true
  · rw [if_pos he, if_pos (heps.1 he)]
    by_cases hn : args'.all s'.nullable = true
    · rw [if_pos hn, if_pos (hall.1 hn)]
      exact builds_epsilon hs'
    · rw [if_neg hn, if_neg (mt hall.2 hn)]
      exact builds_empty hs'
  · rw [if_neg he, if_neg (mt heps.2 he)]
    split
    · rw [← s'.tree_full]
      exact (Tree.collapse_empty ..).symm ▸ .of_lt hs' s'.full_lt_size
    next t => exact (Tree.collapse_singleton ..).symm ▸ .of_lt hs' (hlt t List.mem_cons_self)
    next hnil hsingle =>
      rw [collapse_trees hs' hlt hinc hnil hsingle]
      exact builds_make (e := .inter _) hs' hlt hinc

theorem trees_unionArgs (s : Store) (t : TermId) : s.trees (s.unionArgs t) = (s.tree t).unionArgs := by
  rw [tree_eq, unionArgs]
  cases h : s.expr t with
  | union args => exact (Tree.unionArgs_unionNode _).symm
  | _ =>
    rw [trees_cons, tree_eq, h]
    rfl

theorem trees_interArgs (s : Store) (t : TermId) : s.trees (s.interArgs t) = (s.tree t).interArgs := by
  rw [tree_eq, interArgs]
  cases h : s.expr t with
  | inter args => exact (Tree.interArgs_interNode _).symm
  | _ =>
    rw [trees_cons, tree_eq, h]
    rfl

theorem trees_flatMap {f : TermId → List TermId} {g : Tree → Finset Tree}
    (h : ∀ t, s.trees (f t) = g (s.tree t)) (ts : List TermId) :
    s.trees (ts.flatMap f) = (s.trees ts).biUnion g := by
  ext T
  simp only [mem_trees, List.mem_flatMap, Finset.mem_biUnion]
  constructor
  · rintro ⟨u, ⟨t, ht, hu⟩, rfl⟩
    exact ⟨s.tree t, ⟨t, ht, rfl⟩, h t ▸ tree_mem_trees hu⟩
  · rintro ⟨U, ⟨t, ht, rfl⟩, hT⟩
    obtain ⟨u, hu, rfl⟩ := mem_trees.1 (h t ▸ hT)
    exact ⟨u, ⟨t, ht, hu⟩, rfl⟩

theorem builds_unionList (hs : s.WellFormed) {ts : List TermId} (h : ∀ t ∈ ts, t < s.size) :
    s.Builds (s.unionList ts) (.mkUnionList (s.trees ts)) := by
  rw [Tree.mkUnionList, ← trees_flatMap s.trees_unionArgs]
  apply builds_unionOf hs
  intro u hu
  obtain ⟨t, ht, hu⟩ := List.mem_flatMap.1 hu
  exact unionArgs_lt_size (h t ht) hu

theorem builds_interList (hs : s.WellFormed) {ts : List TermId} (h : ∀ t ∈ ts, t < s.size) :
    s.Builds (s.interList ts) (.mkInterList (s.trees ts)) := by
  rw [Tree.mkInterList, ← trees_flatMap s.trees_interArgs]
  apply builds_interOf hs
  intro u hu
  obtain ⟨t, ht, hu⟩ := List.mem_flatMap.1 hu
  exact interArgs_lt_size (h t ht) hu

theorem trees_pair (t u : TermId) : s.trees [t, u] = {s.tree t, s.tree u} := by
  rw [trees_cons, trees_cons]
  rfl

theorem builds_union (hs : s.WellFormed) {t u : TermId} (ht : t < s.size) (hu : u < s.size) :
    s.Builds (s.union t u) (.mkUnionList {s.tree t, s.tree u}) := by
  rw [← trees_pair]
  exact builds_unionList hs (by simpa using ⟨ht, hu⟩)

theorem builds_inter (hs : s.WellFormed) {t u : TermId} (ht : t < s.size) (hu : u < s.size) :
    s.Builds (s.inter t u) (.mkInterList {s.tree t, s.tree u}) := by
  rw [← trees_pair]
  exact builds_interList hs (by simpa using ⟨ht, hu⟩)

theorem builds_negation (hs : s.WellFormed) {t : TermId} (ht : t < s.size) :
    s.Builds (s.negation t) (s.tree t).mkNegation := by
  rw [negation]
  split
  next u he =>
    rw [tree_eq, he]
    exact .of_lt hs (lt_size_of_child ht he (by simp [Expr.children]))
  next he =>
    have hmk : (s.tree t).mkNegation = .negation (s.tree t) := by
      rw [tree_eq]
      cases h : s.expr t with
      | negation u => exact absurd h (he u)
      | _ => rfl
    rw [hmk]
    exact builds_make (e := .negation t) hs (by simpa [Expr.children] using ht) True.intro

theorem builds_difference (hs : s.WellFormed) {t u : TermId} (ht : t < s.size) (hu : u < s.size) :
    s.Builds (s.difference t u) (.mkInterList {s.tree t, (s.tree u).mkNegation}) := by
  have h := builds_negation hs hu
  rw [← h.tree_eq, ← h.grows.ext.tree_eq ht]
  apply Builds.mono _ h.grows.ext
  exact builds_inter h.wellFormed (h.grows.ext.lt_size ht) h.grows.lt_size

end Boolean

section Repetition

variable {s : Store}

theorem builds_star (hs : s.WellFormed) {t : TermId} (ht : t < s.size) :
    s.Builds (s.star t) (s.tree t).mkStar := by
  rw [star]
  split
  next he =>
    rw [tree_eq, he]
    exact builds_epsilon hs
  next he =>
    rw [tree_eq, he]
    exact builds_epsilon hs
  next u he =>
    have hmk : (s.tree t).mkStar = s.tree t := by rw [tree_eq, he]; rfl
    rw [hmk]
    exact .of_lt hs ht
  next hempty heps hstar =>
    have hmk : (s.tree t).mkStar = .star (s.tree t) := by
      rw [tree_eq]
      cases h : s.expr t with
      | emptySet => exact absurd h hempty
      | emptyString => exact absurd h heps
      | star u => exact absurd h (hstar u)
      | _ => rfl
    rw [hmk]
    exact builds_make (e := .star t) hs (by simpa [Expr.children] using ht) True.intro

theorem builds_plus (hs : s.WellFormed) {t : TermId} (ht : t < s.size) :
    s.Builds (s.plus t) ((s.tree t).mkConcat (s.tree t).mkStar) := by
  have h := builds_star hs ht
  rw [← h.tree_eq, ← h.grows.ext.tree_eq ht]
  apply Builds.mono _ h.grows.ext
  exact builds_concat h.wellFormed (h.grows.ext.lt_size ht) h.grows.lt_size

theorem builds_between (hs : s.WellFormed) {t : TermId} (ht : t < s.size) {min max : Nat}
    (hle : min ≤ max) : s.Builds (s.between t min max) ((s.tree t).mkRepeated min max) := by
  unfold between Tree.mkRepeated
  by_cases hmax : max = 0
  · rw [if_pos hmax, if_pos hmax]
    exact builds_epsilon hs
  rw [if_neg hmax, if_neg hmax]
  have hmin : (s.tree t).lowerBound min = if s.nullable t then 0 else min := by
    unfold Tree.lowerBound
    simp only [hs.nullable_tree ht]
  have hlow := (s.tree t).lowerBound_le min
  rw [hmin] at hlow ⊢
  generalize (if s.nullable t then 0 else min) = low at hlow
  simp only [hs.nullable_tree ht]
  by_cases hone : max = 1 ∧ (low = 1 ∨ s.nullable t = true)
  · rw [if_pos hone, if_pos hone]
    exact .of_lt hs ht
  rw [if_neg hone, if_neg hone]
  have hmake : s.Builds (s.make (.repeated t low max)) (.repeated (s.tree t) low max) := by
    apply builds_make (e := .repeated t low max) hs (by simpa [Expr.children] using ht)
    exact ⟨Nat.le_trans hlow hle, Nat.pos_of_ne_zero hmax⟩
  rw [tree_eq] at hmake ⊢
  cases h : s.expr t with
  | star u =>
    have htree : s.tree t = .star (s.tree u) := by rw [tree_eq, h, Expr.tree]
    show s.Builds (t, s) (.star (s.tree u))
    rw [← htree]
    exact .of_lt hs ht
  | emptySet =>
    simp only [Expr.tree]
    split
    · exact builds_epsilon hs
    · exact builds_empty hs
  | emptyString => exact builds_epsilon hs
  | _ =>
    rw [h] at hmake
    exact hmake

theorem builds_atLeast (hs : s.WellFormed) {t : TermId} (ht : t < s.size) (min : Nat) :
    s.Builds (s.atLeast t min) (((s.tree t).mkRepeated min min).mkConcat (s.tree t).mkStar) := by
  have h := builds_between hs ht (Nat.le_refl min)
  have h' := builds_star h.wellFormed (h.grows.ext.lt_size ht)
  rw [← h.tree_eq, ← h.grows.ext.tree_eq ht, ← h'.tree_eq, ← h'.grows.ext.tree_eq h.grows.lt_size]
  apply Builds.mono _ (h.grows.ext.trans h'.grows.ext)
  exact builds_concat h'.wellFormed (h'.grows.ext.lt_size h.grows.lt_size) h'.grows.lt_size

end Repetition

section Derivative

variable {s : Store}

theorem builds_derive (hs : s.WellFormed) {c : Char} {t : TermId} {sub : TermId → TermId}
    (ht : t < s.size) (hsub : ∀ u ∈ s.dependencies t, sub u < s.size)
    (htree : ∀ u ∈ s.dependencies t, s.tree (sub u) = (s.tree u).derivative c) :
    s.Builds (s.derive c t sub) ((s.tree t).derivative c) := by
  have hmap : ∀ args, (∀ u ∈ args, s.tree (sub u) = (s.tree u).derivative c) →
      s.trees (args.map sub) = (s.trees args).image (Tree.derivative c) := by
    intro args h
    ext T
    simp only [mem_trees, List.mem_map, Finset.mem_image, exists_exists_and_eq_and]
    exact exists_congr fun u => and_congr_right fun hu => by rw [h u hu]
  unfold derive
  unfold dependencies at hsub htree
  split
  next he =>
    rw [tree_eq, he]
    exact builds_empty hs
  next he =>
    rw [tree_eq, he]
    exact builds_empty hs
  next set he =>
    rw [tree_eq, he, Expr.tree, Tree.derivative]
    split
    · exact builds_epsilon hs
    · exact builds_empty hs
  next left right he =>
    have hleft : left < s.size := lt_size_of_child ht he (by simp [Expr.children])
    have hright : right < s.size := lt_size_of_child ht he (by simp [Expr.children])
    have hl : left ∈ if s.nullable left then [left, right] else [left] := by split <;> simp
    simp only [he] at hsub htree
    have hcat := builds_concat hs (hsub left hl) hright
    rw [htree left hl] at hcat
    rw [tree_eq, he, Expr.tree, Tree.derivative]
    simp only [hs.nullable_tree hleft]
    split
    next hnull =>
      rw [if_pos hnull] at hsub htree
      have hr : right ∈ [left, right] := by simp
      have hsubr := hsub right hr
      -- the union is built in the store that the concatenation leaves
      rw [← htree right hr, ← hcat.tree_eq, ← hcat.grows.ext.tree_eq hsubr]
      apply Builds.mono _ hcat.grows.ext
      exact builds_union hcat.wellFormed hcat.grows.lt_size (hcat.grows.ext.lt_size hsubr)
    · exact hcat
  next args he =>
    simp only [he, Expr.children] at hsub htree
    have hunion : s.tree t = .unionNode (s.trees args) := by rw [tree_eq, he, Expr.tree, trees]
    rw [hunion, Tree.derivative_unionNode, ← hmap args htree]
    exact builds_unionList hs (by simpa using hsub)
  next args he =>
    simp only [he, Expr.children] at hsub htree
    have hinter : s.tree t = .interNode (s.trees args) := by rw [tree_eq, he, Expr.tree, trees]
    rw [hinter, Tree.derivative_interNode, ← hmap args htree]
    exact builds_interList hs (by simpa using hsub)
  next arg he =>
    have harg : arg ∈ (s.expr t).children := by simp [he, Expr.children]
    simp only [he] at hsub htree harg
    rw [tree_eq, he, Expr.tree, Tree.derivative, ← htree arg harg]
    exact builds_negation hs (hsub arg harg)
  next arg he =>
    have harg : arg ∈ (s.expr t).children := by simp [he, Expr.children]
    simp only [he] at hsub htree harg
    have hstar : s.tree t = .star (s.tree arg) := by rw [tree_eq, he, Expr.tree]
    rw [hstar, Tree.derivative, ← hstar, ← htree arg harg]
    exact builds_concat hs (hsub arg harg) ht
  next arg min max he =>
    have harg : arg ∈ (s.expr t).children := by simp [he, Expr.children]
    have hlt : arg < s.size := lt_size_of_child ht he (by simp [Expr.children])
    have hle : min ≤ max := by
      have := hs t
      rw [he] at this
      exact this.1
    simp only [he] at hsub htree harg
    have hrest := builds_between hs hlt (Nat.sub_le_sub_right hle 1)
    have hsubarg := hsub arg harg
    rw [tree_eq, he, Expr.tree, Tree.derivative, ← htree arg harg, ← hrest.tree_eq,
      ← hrest.grows.ext.tree_eq hsubarg]
    apply Builds.mono _ hrest.grows.ext
    exact builds_concat hrest.wellFormed (hrest.grows.ext.lt_size hsubarg) hrest.grows.lt_size

end Derivative

end Store

end Residual
