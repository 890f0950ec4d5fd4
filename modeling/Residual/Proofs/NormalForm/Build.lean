import Residual.Proofs.NormalForm.Basic
import Residual.Proofs.Operation

/-!
This module contains the preservation of the normal form by the operations of a store. Unions and
intersections flatten one level only, which is enough because their operands are in normal form.
-/

namespace Residual

namespace Store

variable {s : Store} {t u : TermId} {args : List TermId}

theorem keeps_empty (hs : s.Normal) : s.Keeps (empty, s) := .of_lt hs s.empty_lt_size

theorem keeps_epsilon (hs : s.Normal) : s.Keeps (epsilon, s) := .of_lt hs s.epsilon_lt_size

theorem keeps_full (hs : s.Normal) : s.Keeps (full, s) := .of_lt hs s.full_lt_size

section Literal

theorem exists_mem_of_isEmpty {set : SymbolSet} (h : ¬set.isEmpty = true) : ∃ c, c ∈ set := by
  apply Array.exists_mem_of_ne_empty
  rw [SymbolSet.isEmpty, Array.isEmpty_iff] at h
  exact h

theorem keeps_literal (hs : s.Normal) (set : SymbolSet) : s.Keeps (s.literal set) := by
  unfold literal
  split
  · exact keeps_empty hs
  next hset =>
    apply keeps_make hs
    · simp [Expr.children]
    · exact exists_mem_of_isEmpty hset

theorem expr_literal (s : Store) (set : SymbolSet) :
    (s.literal set).2.expr (s.literal set).1 = .emptySet ∨
      (s.literal set).2.expr (s.literal set).1 = .literal set := by
  unfold literal
  split
  · left
    exact s.expr_empty
  · right
    apply expr_make
    simp [Expr.children]

end Literal

section Concat

theorem isFactor_of_mem_factors (hs : s.Normal) (ht : s.IsProper t) (h : u ∈ s.factors t) :
    s.IsFactor u := by
  fun_induction factors s t with
  | case1 t left right he _ ih =>
    have hconcat := hs t
    rw [he] at hconcat
    rcases List.mem_cons.1 h with rfl | h
    · exact hconcat.1
    · exact ih hconcat.2 h
  | case2 t he =>
    rw [List.mem_singleton.1 h]
    exact ⟨ht, he⟩

theorem keeps_foldr_concat (hs : s.Normal) {l : List TermId}
    (hl : ∀ x ∈ l, x < s.size ∧ s.IsFactor x) (ht : t < s.size) (hproper : s.IsProper t) :
    let r := l.foldr (fun x r => r.2.make (.concat x r.1)) (t, s)
    s.Keeps r ∧ r.2.IsProper r.1 := by
  induction l with
  | nil => exact ⟨.of_lt hs ht, hproper⟩
  | cons x l ih =>
    -- the last factors are put together first; what they give is no left operand of a concatenation
    obtain ⟨⟨hx, hfactor⟩, hl⟩ := List.forall_mem_cons.1 hl
    obtain ⟨hkeeps, hproper⟩ := ih hl
    have hext := hkeeps.grows.ext
    rw [List.foldr_cons]
    generalize l.foldr (fun x r => r.2.make (.concat x r.1)) (t, s) = r at hkeeps hproper hext
    have hc : ∀ c ∈ (Expr.concat x r.1).children, c < r.2.size := by
      simp only [Expr.children, List.forall_mem_cons]
      exact ⟨hext.lt_size hx, hkeeps.grows.lt_size, List.forall_mem_nil _⟩
    constructor
    · apply Keeps.mono _ hext
      apply keeps_make hkeeps.normal hc
      exact ⟨hfactor.mono (hext.expr_eq hx), hproper⟩
    · rw [IsProper, expr_make hc]
      exact ⟨Expr.noConfusion, Expr.noConfusion⟩

theorem keeps_concat (hs : s.Normal) (ht : t < s.size) (hu : u < s.size) :
    s.Keeps (s.concat t u) := by
  unfold concat
  split
  · exact keeps_empty hs
  next hempty =>
    rw [not_or] at hempty
    split
    · exact .of_lt hs hu
    next hleft =>
      split
      · exact .of_lt hs ht
      next hright =>
        split
        · exact keeps_full hs
        · have hl : ∀ x ∈ s.factors t, x < s.size ∧ s.IsFactor x := by
            intro x hx
            constructor
            · exact Nat.lt_of_le_of_lt (le_of_mem_factors hx) ht
            · exact isFactor_of_mem_factors hs (isProper_of_ne ht hempty.1 hleft) hx
          exact (keeps_foldr_concat hs hl hu (isProper_of_ne hu hempty.2 hright)).1

theorem keeps_concatList (hs : s.Normal) (h : ∀ t ∈ args, t < s.size) :
    s.Keeps (s.concatList args) := by
  unfold concatList
  induction args with
  | nil => exact keeps_epsilon hs
  | cons t args ih =>
    obtain ⟨ht, h⟩ := List.forall_mem_cons.1 h
    specialize ih h
    apply Keeps.mono _ ih.grows.ext
    exact keeps_concat ih.normal (ih.grows.ext.lt_size ht) ih.grows.lt_size

theorem keeps_word (hs : s.Normal) (w : List Char) : s.Keeps (s.word w) := by
  unfold word
  induction w with
  | nil => exact keeps_epsilon hs
  | cons c w ih =>
    have hc := keeps_literal ih.normal (.singleton c)
    apply Keeps.mono _ (ih.grows.ext.trans hc.grows.ext)
    exact keeps_concat hc.normal hc.grows.lt_size (hc.grows.ext.lt_size ih.grows.lt_size)

end Concat

section Boolean

variable {p : Expr → Prop}

theorem isLiteral_iff : s.IsLiteral t ↔ (s.literalSet? t).isNone = false := by
  unfold IsLiteral literalSet?
  cases s.expr t <;> simp

structure Ordered (s : Store) (p : Expr → Prop) (args : List TermId) : Prop where
  lt_size : ∀ t ∈ args, t < s.size
  increasing : args.Pairwise (· < ·)
  kind : ∀ t ∈ args, p (s.expr t)
  literal_unique : ∀ t ∈ args, ∀ u ∈ args, s.IsLiteral t → s.IsLiteral u → t = u

theorem Ordered.sublist {us : List TermId} (h : s.Ordered p args) (hsub : us.Sublist args) :
    s.Ordered p us where
  lt_size t ht := h.lt_size t (hsub.subset ht)
  increasing := h.increasing.sublist hsub
  kind t ht := h.kind t (hsub.subset ht)
  literal_unique t ht u hu := h.literal_unique t (hsub.subset ht) u (hsub.subset hu)

theorem pairwise_increasing (l : List TermId) : (Residual.increasing l).Pairwise (· < ·) := by
  apply (increasing_increasing l).imp
  intro t u h
  exact Nat.compare_eq_lt.1 h

theorem ordered_orderArgs {f : SymbolSet → SymbolSet → SymbolSet} (hs : s.Normal)
    (hempty : p .emptySet) (hliteral : ∀ set, p (.literal set))
    (h : ∀ t ∈ args, t < s.size ∧ p (s.expr t)) :
    let r := s.orderArgs f args
    s.Extends r.2 ∧ r.2.Normal ∧ r.2.Ordered p r.1 := by
  have hothers : ∀ t ∈ args.filter fun t => (s.literalSet? t).isNone,
      t < s.size ∧ p (s.expr t) ∧ ¬s.IsLiteral t := by
    intro t ht
    rw [List.mem_filter] at ht
    rw [isLiteral_iff, ht.2]
    exact ⟨(h t ht.1).1, (h t ht.1).2, Bool.noConfusion⟩
  unfold orderArgs
  dsimp only
  generalize (args.filter fun t => (s.literalSet? t).isNone) = others at hothers
  split
  · refine ⟨.refl s, hs, ?_, pairwise_increasing _, ?_, ?_⟩
    · intro t ht
      exact (hothers t (mem_increasing.1 ht)).1
    · intro t ht
      exact (hothers t (mem_increasing.1 ht)).2.1
    · intro t ht u _ hlit
      exact absurd hlit (hothers t (mem_increasing.1 ht)).2.2
  next set sets _ =>
    -- the literals have become one, which is the only literal among the operands
    have hkeeps := keeps_literal hs (sets.foldl f set)
    have hexpr := s.expr_literal (sets.foldl f set)
    generalize s.literal (sets.foldl f set) = r at hkeeps hexpr
    obtain ⟨x, s'⟩ := r
    have hext : s.Extends s' := hkeeps.grows.ext
    have hmem : ∀ t ∈ Residual.increasing (x :: others),
        t < s'.size ∧ p (s'.expr t) ∧ (s'.IsLiteral t → t = x) := by
      intro t ht
      rw [mem_increasing, List.mem_cons] at ht
      cases ht with
      | inl ht =>
        subst ht
        refine ⟨hkeeps.grows.lt_size, ?_, fun _ => rfl⟩
        cases hexpr with
        | inl hexpr =>
          rw [hexpr]
          exact hempty
        | inr hexpr =>
          rw [hexpr]
          apply hliteral
      | inr ht =>
        obtain ⟨hlt, hkind, hlit⟩ := hothers t ht
        rw [IsLiteral, hext.expr_eq hlt]
        exact ⟨hext.lt_size hlt, hkind, fun h => absurd h hlit⟩
    refine ⟨hext, hkeeps.normal, ?_, pairwise_increasing _, ?_, ?_⟩
    · intro t ht
      exact (hmem t ht).1
    · intro t ht
      exact (hmem t ht).2.1
    · intro t ht u hu hlit hlit'
      rw [(hmem t ht).2.2 hlit, (hmem u hu).2.2 hlit']

theorem no_complements_of_hasComplements (h : ¬s.hasComplements args = true) :
    ∀ t ∈ args, ∀ u ∈ args, s.expr t ≠ .negation u := by
  intro t ht u hu he
  apply h
  rw [hasComplements, List.any_eq_true]
  refine ⟨t, ht, ?_⟩
  rw [he]
  exact List.contains_iff_mem.2 hu

theorem Ordered.simplified (h : s.Ordered p args) (hempty : empty ∉ args) (hfull : full ∉ args)
    (hcomplements : ∀ t ∈ args, ∀ u ∈ args, s.expr t ≠ .negation u) (hnil : args ≠ [])
    (hsingle : ∀ t, args ≠ [t]) : s.Simplified args where
  two_le_length := by
    match args with
    | [] => exact absurd rfl hnil
    | [t] => exact absurd rfl (hsingle t)
    | t :: u :: args =>
      rw [List.length_cons, List.length_cons]
      omega
  increasing := h.increasing
  ne_emptySet := by
    intro t ht he
    rw [← s.expr_empty, expr_inj (h.lt_size t ht) s.empty_lt_size] at he
    exact hempty (he ▸ ht)
  ne_full := by
    intro t ht he
    rw [← s.expr_full, expr_inj (h.lt_size t ht) s.full_lt_size] at he
    exact hfull (he ▸ ht)
  literal_unique := h.literal_unique
  no_complements := hcomplements

theorem ne_emptyString_of_not_mem (h : ∀ t ∈ args, t < s.size) (hepsilon : epsilon ∉ args) :
    ∀ t ∈ args, s.expr t ≠ .emptyString := by
  intro t ht he
  rw [← s.expr_epsilon, expr_inj (h t ht) s.epsilon_lt_size] at he
  exact hepsilon (he ▸ ht)

theorem dropEpsilon_spec (h : ∀ t ∈ args, t < s.size) :
    let rest := if args.any fun t => t ≠ epsilon && s.nullable t then args.filter (· ≠ epsilon)
      else args
    rest.Sublist args ∧
      ∀ t ∈ rest, s.expr t = .emptyString → ∀ u ∈ rest, u ≠ t → s.nullable u = false := by
  intro rest
  by_cases hredundant : (args.any fun t => t ≠ epsilon && s.nullable t) = true
  · have hrest : rest = args.filter (· ≠ epsilon) := if_pos hredundant
    rw [hrest]
    refine ⟨List.filter_sublist, ?_⟩
    have hlt : ∀ t ∈ args.filter (· ≠ epsilon), t < s.size := fun t ht => h t (List.mem_of_mem_filter ht)
    intro t ht he
    exact absurd he (ne_emptyString_of_not_mem hlt (by simp) t ht)
  · have hrest : rest = args := if_neg hredundant
    rw [hrest]
    refine ⟨List.Sublist.refl args, ?_⟩
    intro t ht he u hu hne
    rw [← s.expr_epsilon, expr_inj (h t ht) s.epsilon_lt_size] at he
    rw [List.any_eq_true, not_exists] at hredundant
    simpa [hu, he ▸ hne] using hredundant u

theorem keeps_unionOf (hs : s.Normal)
    (h : ∀ t ∈ args, t < s.size ∧ ∀ us, s.expr t ≠ .union us) : s.Keeps (s.unionOf args) := by
  obtain ⟨hext, hnormal, hordered⟩ := ordered_orderArgs (p := fun e => ∀ us, e ≠ .union us)
    (f := .union) hs (fun _ => Expr.noConfusion) (fun _ _ => Expr.noConfusion) h
  unfold unionOf
  generalize s.orderArgs .union args = r at hext hnormal hordered
  obtain ⟨args, s'⟩ := r
  dsimp only at hext hnormal hordered ⊢
  apply Keeps.mono _ hext
  have hempty : empty ∉ args.filter (· ≠ empty) := by simp
  replace hordered := hordered.sublist (List.filter_sublist (p := (· ≠ empty)))
  generalize args.filter (· ≠ empty) = args at hempty hordered
  split
  · exact keeps_full hnormal
  next hdecided =>
    rw [Bool.or_eq_true, not_or, List.contains_iff_mem] at hdecided
    obtain ⟨hfull, hcomplements⟩ := hdecided
    replace hcomplements := no_complements_of_hasComplements hcomplements
    obtain ⟨hsub, hepsilon⟩ := dropEpsilon_spec hordered.lt_size
    generalize (if args.any fun t => t ≠ epsilon && s'.nullable t then args.filter (· ≠ epsilon)
      else args) = rest at hsub hepsilon
    have hordered' := hordered.sublist hsub
    split
    · exact keeps_empty hnormal
    · exact .of_lt hnormal (hordered'.lt_size _ (List.mem_singleton_self _))
    next hnil hsingle =>
      apply keeps_make (e := .union _) hnormal hordered'.lt_size
      -- leaving out an operand does not bring back what was ruled out before
      refine ⟨?_, hordered'.kind, hepsilon⟩
      apply hordered'.simplified (mt (hsub.subset ·) hempty) (mt (hsub.subset ·) hfull) _ hnil hsingle
      intro t ht u hu
      exact hcomplements t (hsub.subset ht) u (hsub.subset hu)

theorem keeps_interOf (hs : s.Normal)
    (h : ∀ t ∈ args, t < s.size ∧ ∀ us, s.expr t ≠ .inter us) : s.Keeps (s.interOf args) := by
  obtain ⟨hext, hnormal, hordered⟩ := ordered_orderArgs (p := fun e => ∀ us, e ≠ .inter us)
    (f := .inter) hs (fun _ => Expr.noConfusion) (fun _ _ => Expr.noConfusion) h
  unfold interOf
  generalize s.orderArgs .inter args = r at hext hnormal hordered
  obtain ⟨args, s'⟩ := r
  dsimp only at hext hnormal hordered ⊢
  apply Keeps.mono _ hext
  have hfull : full ∉ args.filter (· ≠ full) := by simp
  replace hordered := hordered.sublist (List.filter_sublist (p := (· ≠ full)))
  generalize args.filter (· ≠ full) = args at hfull hordered
  split
  · exact keeps_empty hnormal
  next hdecided =>
    rw [Bool.or_eq_true, not_or, List.contains_iff_mem] at hdecided
    obtain ⟨hempty, hcomplements⟩ := hdecided
    replace hcomplements := no_complements_of_hasComplements hcomplements
    split
    · split
      · exact keeps_epsilon hnormal
      · exact keeps_empty hnormal
    next hepsilon =>
      rw [List.contains_iff_mem] at hepsilon
      split
      · exact keeps_full hnormal
      · exact .of_lt hnormal (hordered.lt_size _ (List.mem_singleton_self _))
      next hnil hsingle =>
        apply keeps_make (e := .inter _) hnormal hordered.lt_size
        refine ⟨?_, hordered.kind, ne_emptyString_of_not_mem hordered.lt_size hepsilon⟩
        exact hordered.simplified hempty hfull hcomplements hnil hsingle

theorem of_mem_unionArgs (hs : s.Normal) (ht : t < s.size) (h : u ∈ s.unionArgs t) :
    u < s.size ∧ ∀ us, s.expr u ≠ .union us := by
  refine ⟨unionArgs_lt_size ht h, ?_⟩
  unfold unionArgs at h
  split at h
  next args he =>
    have hunion := hs t
    rw [he] at hunion
    exact hunion.2.1 u h
  next he =>
    rw [List.mem_singleton.1 h]
    exact he

theorem of_mem_interArgs (hs : s.Normal) (ht : t < s.size) (h : u ∈ s.interArgs t) :
    u < s.size ∧ ∀ us, s.expr u ≠ .inter us := by
  refine ⟨interArgs_lt_size ht h, ?_⟩
  unfold interArgs at h
  split at h
  next args he =>
    have hinter := hs t
    rw [he] at hinter
    exact hinter.2.1 u h
  next he =>
    rw [List.mem_singleton.1 h]
    exact he

theorem keeps_unionList (hs : s.Normal) (h : ∀ t ∈ args, t < s.size) :
    s.Keeps (s.unionList args) := by
  apply keeps_unionOf hs
  intro u hu
  obtain ⟨t, ht, hu⟩ := List.mem_flatMap.1 hu
  exact of_mem_unionArgs hs (h t ht) hu

theorem keeps_interList (hs : s.Normal) (h : ∀ t ∈ args, t < s.size) :
    s.Keeps (s.interList args) := by
  apply keeps_interOf hs
  intro u hu
  obtain ⟨t, ht, hu⟩ := List.mem_flatMap.1 hu
  exact of_mem_interArgs hs (h t ht) hu

theorem keeps_union (hs : s.Normal) (ht : t < s.size) (hu : u < s.size) : s.Keeps (s.union t u) := by
  apply keeps_unionList hs
  simpa using ⟨ht, hu⟩

theorem keeps_inter (hs : s.Normal) (ht : t < s.size) (hu : u < s.size) : s.Keeps (s.inter t u) := by
  apply keeps_interList hs
  simpa using ⟨ht, hu⟩

theorem keeps_negation (hs : s.Normal) (ht : t < s.size) : s.Keeps (s.negation t) := by
  unfold negation
  split
  next u he =>
    apply Keeps.of_lt hs
    apply lt_size_of_child ht he
    simp [Expr.children]
  next he =>
    apply keeps_make (e := .negation t) hs _ he
    simpa [Expr.children] using ht

theorem keeps_difference (hs : s.Normal) (ht : t < s.size) (hu : u < s.size) :
    s.Keeps (s.difference t u) := by
  have h := keeps_negation hs hu
  apply Keeps.mono _ h.grows.ext
  exact keeps_inter h.normal (h.grows.ext.lt_size ht) h.grows.lt_size

end Boolean

section Repetition

theorem keeps_star (hs : s.Normal) (ht : t < s.size) : s.Keeps (s.star t) := by
  unfold star
  split
  · exact keeps_epsilon hs
  · exact keeps_epsilon hs
  · exact .of_lt hs ht
  next hempty hepsilon hstar =>
    apply keeps_make hs
    · simpa [Expr.children] using ht
    · exact ⟨⟨hempty, hepsilon⟩, hstar⟩

theorem keeps_plus (hs : s.Normal) (ht : t < s.size) : s.Keeps (s.plus t) := by
  have h := keeps_star hs ht
  apply Keeps.mono _ h.grows.ext
  exact keeps_concat h.normal (h.grows.ext.lt_size ht) h.grows.lt_size

theorem keeps_between (hs : s.Normal) (ht : t < s.size) {min max : Nat} (hle : min ≤ max) :
    s.Keeps (s.between t min max) := by
  unfold between
  split
  · exact keeps_epsilon hs
  next hmax =>
    have hlow : (if s.nullable t then 0 else min) ≤ max := by
      split
      · exact Nat.zero_le max
      · exact hle
    -- the lower bound is zero from here on if the operand is nullable
    have hnull : s.nullable t = true → (if s.nullable t then 0 else min) = 0 := fun h => if_pos h
    dsimp only
    generalize (if s.nullable t then 0 else min) = low at hlow hnull
    split
    · exact .of_lt hs ht
    next hone =>
      split
      · exact .of_lt hs ht
      · split
        · exact keeps_epsilon hs
        · exact keeps_empty hs
      · exact keeps_epsilon hs
      next hstar hempty hepsilon =>
        apply keeps_make hs
        · simpa [Expr.children] using ht
        · refine ⟨⟨⟨hempty, hepsilon⟩, hstar⟩, hlow, Nat.pos_of_ne_zero hmax, ?_, ?_⟩
          · rintro ⟨⟩
            exact hone ⟨rfl, .inl rfl⟩
          · intro hn
            refine ⟨hnull hn, ?_⟩
            have : max ≠ 1 := fun h => hone ⟨h, .inr hn⟩
            omega

theorem keeps_atLeast (hs : s.Normal) (ht : t < s.size) (min : Nat) :
    s.Keeps (s.atLeast t min) := by
  have h := keeps_between hs ht (Nat.le_refl min)
  have h' := keeps_star h.normal (h.grows.ext.lt_size ht)
  apply Keeps.mono _ (h.grows.ext.trans h'.grows.ext)
  exact keeps_concat h'.normal (h'.grows.ext.lt_size h.grows.lt_size) h'.grows.lt_size

end Repetition

theorem keeps_derive (hs : s.Normal) (c : Char) (t : TermId) {sub : TermId → TermId}
    (hsub : ∀ u, sub u < s.size) : s.Keeps (s.derive c t sub) := by
  have hchild : ∀ {e u}, s.expr t = e → u ∈ e.children → u < s.size := by
    intro e u he hu
    subst he
    exact lt_size_of_mem_children hu
  have hmap : ∀ args : List TermId, ∀ u ∈ args.map sub, u < s.size := by
    intro args u hu
    obtain ⟨v, _, rfl⟩ := List.mem_map.1 hu
    exact hsub v
  unfold derive
  split
  · exact keeps_empty hs
  · exact keeps_empty hs
  · split
    · exact keeps_epsilon hs
    · exact keeps_empty hs
  next left right he =>
    have hright : right < s.size := hchild he (by simp [Expr.children])
    have hconcat := keeps_concat hs (hsub left) hright
    split
    · apply Keeps.mono _ hconcat.grows.ext
      exact keeps_union hconcat.normal hconcat.grows.lt_size (hconcat.grows.ext.lt_size (hsub right))
    · exact hconcat
  next args _ => exact keeps_unionList hs (hmap args)
  next args _ => exact keeps_interList hs (hmap args)
  next arg _ => exact keeps_negation hs (hsub arg)
  next arg he =>
    apply keeps_concat hs (hsub arg)
    apply lt_size_of_expr_ne
    rw [he]
    exact Expr.noConfusion
  next arg min max he =>
    have hrepeated := hs t
    rw [he] at hrepeated
    obtain ⟨_, hle, _⟩ := hrepeated
    have harg : arg < s.size := hchild he (by simp [Expr.children])
    have hrest := keeps_between hs harg (Nat.sub_le_sub_right hle 1)
    apply Keeps.mono _ hrest.grows.ext
    exact keeps_concat hrest.normal (hrest.grows.ext.lt_size (hsub arg)) hrest.grows.lt_size

end Store

namespace Operation

variable {s : Store} {op : Operation}

theorem keeps_apply_of_inOrder (hs : s.Normal) (hargs : ∀ t ∈ op.args, t < s.size)
    (hop : op.InOrder) : ∃ r, op.apply s = (.ok r.1, r.2) ∧ s.Keeps r := by
  cases op with
  | empty => exact ⟨_, rfl, Store.keeps_empty hs⟩
  | epsilon => exact ⟨_, rfl, Store.keeps_epsilon hs⟩
  | full => exact ⟨_, rfl, Store.keeps_full hs⟩
  | literal set => exact ⟨_, rfl, Store.keeps_literal hs set⟩
  | symbol c => exact ⟨_, rfl, Store.keeps_literal hs _⟩
  | oneOf symbols => exact ⟨_, rfl, Store.keeps_literal hs _⟩
  | anyOf a => exact ⟨_, rfl, Store.keeps_literal hs _⟩
  | noneOf set a => exact ⟨_, rfl, Store.keeps_literal hs _⟩
  | word w => exact ⟨_, rfl, Store.keeps_word hs w⟩
  | concat t u => refine ⟨_, rfl, Store.keeps_concat hs ?_ ?_⟩ <;> apply hargs <;> simp [args]
  | concatList ts => exact ⟨_, rfl, Store.keeps_concatList hs hargs⟩
  | union t u => refine ⟨_, rfl, Store.keeps_union hs ?_ ?_⟩ <;> apply hargs <;> simp [args]
  | unionList ts => exact ⟨_, rfl, Store.keeps_unionList hs hargs⟩
  | inter t u => refine ⟨_, rfl, Store.keeps_inter hs ?_ ?_⟩ <;> apply hargs <;> simp [args]
  | interList ts => exact ⟨_, rfl, Store.keeps_interList hs hargs⟩
  | difference t u => refine ⟨_, rfl, Store.keeps_difference hs ?_ ?_⟩ <;> apply hargs <;> simp [args]
  | negation t => exact ⟨_, rfl, Store.keeps_negation hs (hargs t (List.mem_singleton_self t))⟩
  | star t => exact ⟨_, rfl, Store.keeps_star hs (hargs t (List.mem_singleton_self t))⟩
  | plus t => exact ⟨_, rfl, Store.keeps_plus hs (hargs t (List.mem_singleton_self t))⟩
  | optional t =>
    have ht := hargs t (List.mem_singleton_self t)
    exact ⟨_, rfl, Store.keeps_between hs ht (Nat.zero_le 1)⟩
  | repeated t min max =>
    have ht := hargs t (List.mem_singleton_self t)
    refine ⟨s.between t min max, ?_, Store.keeps_between hs ht hop⟩
    rw [apply, Store.repeated, if_neg (Nat.not_lt_of_le hop)]
  | atLeast t min => exact ⟨_, rfl, Store.keeps_atLeast hs (hargs t (List.mem_singleton_self t)) min⟩

theorem keeps_apply (hs : s.Normal) (hargs : ∀ t ∈ op.args, t < s.size) :
    s.Extends (op.apply s).2 ∧ (op.apply s).2.Normal := by
  by_cases hop : op.InOrder
  · obtain ⟨r, hr, hkeeps⟩ := keeps_apply_of_inOrder hs hargs hop
    rw [hr]
    exact ⟨hkeeps.grows.ext, hkeeps.normal⟩
  · obtain ⟨e, he⟩ := apply_of_not_inOrder hop s
    rw [he]
    exact ⟨.refl s, hs⟩

end Operation

end Residual
