import Residual.Proofs.Tree.Refinement

/-!
This module contains the repetition of operations. An operation that is done again, at any later
time, finds all terms that it built and builds none.
-/

namespace Residual

namespace Store

variable {s s' : Store}

theorem factors_of_concat {t left right : TermId} (he : s.expr t = .concat left right) :
    s.factors t = left :: s.factors right := by
  rw [factors]
  split
  next he' =>
    cases he.symm.trans he'
    rfl
  next hne => exact absurd he (hne left right)

theorem factors_of_ne {t : TermId} (h : ∀ left right, s.expr t ≠ .concat left right) :
    s.factors t = [t] := by
  rw [factors]
  split
  next left right he => exact absurd he (h left right)
  · rfl

namespace Extends

variable {t : TermId} {args : List TermId}

theorem factors_eq (h : s.Extends s') (ht : t < s.size) : s'.factors t = s.factors t := by
  fun_induction factors s t with
  | case1 t left right he hlt ih =>
    have he' : s'.expr t = .concat left right := (h.expr_eq ht).trans he
    rw [factors_of_concat he', ih (Nat.lt_trans hlt ht)]
  | case2 t hne =>
    apply factors_of_ne
    intro left right he
    rw [h.expr_eq ht] at he
    exact hne left right he

theorem literalSet?_eq (h : s.Extends s') (ht : t < s.size) :
    s'.literalSet? t = s.literalSet? t := by
  rw [literalSet?, literalSet?, h.expr_eq ht]

theorem unionArgs_eq (h : s.Extends s') (ht : t < s.size) : s'.unionArgs t = s.unionArgs t := by
  rw [unionArgs, unionArgs, h.expr_eq ht]

theorem interArgs_eq (h : s.Extends s') (ht : t < s.size) : s'.interArgs t = s.interArgs t := by
  rw [interArgs, interArgs, h.expr_eq ht]

theorem hasComplements_eq (h : s.Extends s') (hargs : ∀ t ∈ args, t < s.size) :
    s'.hasComplements args = s.hasComplements args := by
  unfold hasComplements
  rw [Bool.eq_iff_iff, List.any_eq_true, List.any_eq_true]
  exact exists_congr fun t => and_congr_right fun ht => by rw [h.expr_eq (hargs t ht)]

theorem any_nullable_eq (h : s.Extends s') (hargs : ∀ t ∈ args, t < s.size) (p : TermId → Bool) :
    (args.any fun t => p t && s'.nullable t) = args.any fun t => p t && s.nullable t := by
  rw [Bool.eq_iff_iff, List.any_eq_true, List.any_eq_true]
  exact exists_congr fun t => and_congr_right fun ht => by rw [h.nullable_eq (hargs t ht)]

theorem all_nullable_eq (h : s.Extends s') (hargs : ∀ t ∈ args, t < s.size) :
    args.all s'.nullable = args.all s.nullable := by
  rw [Bool.eq_iff_iff, List.all_eq_true, List.all_eq_true]
  exact forall_congr' fun t => imp_congr_right fun ht => by rw [h.nullable_eq (hargs t ht)]

theorem dependencies_eq (h : s.Extends s') (ht : t < s.size) :
    s'.dependencies t = s.dependencies t := by
  unfold dependencies
  rw [h.expr_eq ht]
  cases he : s.expr t with
  | concat left right =>
    have hleft : left < s.size := lt_size_of_child ht he (by simp [Expr.children])
    simp only [h.nullable_eq hleft]
  | _ => rfl

end Extends

/--
Whether an operation only appends to `s` and, if it is done again on a store that has grown since,
has the same result and leaves that store as it is.
-/
structure Replays {α : Type} (s : Store) (f : Store → α × Store) : Prop where
  ext : s.Extends (f s).2
  again : ∀ s', (f s).2.Extends s' → f s' = ((f s).1, s')

section Combinators

variable {α β : Type}

theorem replays_pure (s : Store) (x : α) : s.Replays fun s => (x, s) :=
  ⟨.refl s, fun _ _ => rfl⟩

theorem Replays.congr {f g : Store → α × Store} (hf : s.Replays f)
    (h : ∀ s', s.Extends s' → g s' = f s') : s.Replays g := by
  have hs := h s (.refl s)
  constructor
  · rw [hs]
    exact hf.ext
  · intro s' hext
    rw [hs] at hext ⊢
    rw [h s' (hf.ext.trans hext)]
    exact hf.again s' hext

theorem Replays.bind {f : Store → α × Store} {g k : Store → β × Store} (hf : s.Replays f)
    (hg : (f s).2.Replays g)
    (h : ∀ s' s'', s.Extends s' → (f s).2.Extends s'' → f s' = ((f s).1, s'') → k s' = g s'') :
    s.Replays k := by
  have hs := h s (f s).2 (.refl s) (.refl _) rfl
  constructor
  · rw [hs]
    exact hf.ext.trans hg.ext
  · intro s' hext
    rw [hs] at hext ⊢
    have hext' := hg.ext.trans hext
    rw [h s' s' (hf.ext.trans hext') hext' (hf.again s' hext')]
    exact hg.again s' hext

theorem Replays.map {f : Store → α × Store} (hf : s.Replays f) (g : α → β) :
    s.Replays fun s => (g (f s).1, (f s).2) := by
  apply hf.bind (replays_pure _ (g (f s).1))
  intro s' s'' _ _ hs'
  rw [hs']

end Combinators

theorem replays_make {e : Expr} (hc : ∀ c ∈ e.children, c < s.size) :
    s.Replays fun s => s.make e := by
  have hgrows := grows_make hc
  refine ⟨hgrows.ext, fun s' hext => ?_⟩
  have hc' : ∀ c ∈ e.children, c < s'.size := fun c h => (hgrows.ext.trans hext).lt_size (hc c h)
  exact make_of_find? hc' (Numbering.find?_eq_some_iff.2 (hext _ e (get?_make hc)))

theorem replays_literal (s : Store) (set : SymbolSet) : s.Replays fun s => s.literal set := by
  cases hempty : set.isEmpty with
  | true => exact (s.replays_pure empty).congr fun s' _ => by rw [literal, if_pos hempty]
  | false =>
    have hmake : s.Replays fun s => s.make (.literal set) := replays_make (by simp [Expr.children])
    apply hmake.congr
    intro s' _
    rw [literal, hempty]
    rfl

section Concat

theorem replays_foldr_concat (hs : s.WellFormed) {l : List TermId} (hl : ∀ x ∈ l, x < s.size)
    {right : TermId} (hr : right < s.size) :
    s.Replays fun s => l.foldr (fun x r => r.2.make (.concat x r.1)) (right, s) := by
  induction l with
  | nil => exact s.replays_pure right
  | cons x l ih =>
    have hl' : ∀ y ∈ l, y < s.size := fun y hy => hl y (List.mem_cons_of_mem x hy)
    have hgrows := (builds_foldr_concat hs hl' hr).grows
    apply (ih hl').bind (replays_make (e := .concat x _) _)
    · intro s' s'' _ _ hs'
      rw [List.foldr_cons, hs']
    · simpa [Expr.children] using ⟨hgrows.ext.lt_size (hl x List.mem_cons_self), hgrows.lt_size⟩

theorem replays_concat (hs : s.WellFormed) {left right : TermId} (hl : left < s.size)
    (hr : right < s.size) : s.Replays fun s => s.concat left right := by
  by_cases hempty : left = empty ∨ right = empty
  · apply (s.replays_pure empty).congr
    intro s' _
    rw [concat, if_pos hempty]
  by_cases hleft : left = epsilon
  · apply (s.replays_pure right).congr
    intro s' _
    rw [concat, if_neg hempty, if_pos hleft]
  by_cases hright : right = epsilon
  · apply (s.replays_pure left).congr
    intro s' _
    rw [concat, if_neg hempty, if_neg hleft, if_pos hright]
  by_cases hfull : right = full ∧ s.nullable left = true
  · apply (s.replays_pure full).congr
    intro s' h
    rw [concat, if_neg hempty, if_neg hleft, if_neg hright, h.nullable_eq hl, if_pos hfull]
  · have hfactors : ∀ x ∈ s.factors left, x < s.size := by
      intro x hx
      exact Nat.lt_of_le_of_lt (le_of_mem_factors hx) hl
    apply (replays_foldr_concat hs hfactors hr).congr
    intro s' h
    rw [concat, if_neg hempty, if_neg hleft, if_neg hright, h.nullable_eq hl, if_neg hfull,
      h.factors_eq hl]

theorem replays_concatList (hs : s.WellFormed) {ts : List TermId} (h : ∀ t ∈ ts, t < s.size) :
    s.Replays fun s => s.concatList ts := by
  induction ts with
  | nil => exact s.replays_pure epsilon
  | cons t ts ih =>
    have hts : ∀ u ∈ ts, u < s.size := fun u hu => h u (List.mem_cons_of_mem t hu)
    have hlist := builds_concatList hs hts
    have ht := hlist.grows.ext.lt_size (h t List.mem_cons_self)
    apply (ih hts).bind (replays_concat hlist.wellFormed ht hlist.grows.lt_size)
    intro s' s'' _ _ hs'
    show (s'.concatList ts).2.concat t (s'.concatList ts).1 = _
    rw [hs']

theorem replays_word (hs : s.WellFormed) (w : List Char) : s.Replays fun s => s.word w := by
  induction w with
  | nil => exact s.replays_pure epsilon
  | cons c w ih =>
    have hword := builds_word hs w
    have hsymbol := builds_literal hword.wellFormed (.singleton c)
    have hconcat := replays_concat hsymbol.wellFormed hsymbol.grows.lt_size
      (hsymbol.grows.ext.lt_size hword.grows.lt_size)
    have hcons : (s.word w).2.Replays fun s' =>
        (s'.symbol c).2.concat (s'.symbol c).1 (s.word w).1 := by
      apply (replays_literal (s.word w).2 (.singleton c)).bind hconcat
      intro s' s'' _ _ hs'
      show (s'.literal _).2.concat (s'.literal _).1 _ = _
      rw [hs']
    apply ih.bind hcons
    intro s' s'' _ _ hs'
    show ((s'.word w).2.symbol c).2.concat ((s'.word w).2.symbol c).1 (s'.word w).1 = _
    rw [hs']

end Concat

section Boolean

variable {args ts : List TermId}

theorem replays_orderArgs (f : SymbolSet → SymbolSet → SymbolSet) (h : ∀ t ∈ args, t < s.size) :
    s.Replays fun s => s.orderArgs f args := by
  have hothers : ∀ s', s.Extends s' → (args.filter fun t => (s'.literalSet? t).isNone) =
      args.filter fun t => (s.literalSet? t).isNone := by
    intro s' hext
    apply List.filter_congr
    intro t ht
    rw [hext.literalSet?_eq (h t ht)]
  have hsets : ∀ s', s.Extends s' →
      args.filterMap s'.literalSet? = args.filterMap s.literalSet? := by
    intro s' hext
    apply List.filterMap_congr
    intro t ht
    exact hext.literalSet?_eq (h t ht)
  generalize (args.filter fun t => (s.literalSet? t).isNone) = others at hothers
  generalize args.filterMap s.literalSet? = sets at hsets
  cases sets with
  | nil =>
    apply (s.replays_pure (increasing others)).congr
    intro s' hext
    rw [orderArgs, hsets s' hext, hothers s' hext]
  | cons set sets =>
    apply (s.replays_literal (sets.foldl f set)).bind
      (replays_pure _ (increasing ((s.literal (sets.foldl f set)).1 :: others)))
    intro s' s'' hext _ hs'
    rw [orderArgs, hsets s' hext, hothers s' hext]
    simp only [hs']

def unionOrdered (s : Store) (args : List TermId) : TermId × Store :=
  let args := args.filter (· ≠ empty)
  if args.contains full || s.hasComplements args then (full, s)
  else
    let redundant := args.any fun t => t ≠ epsilon && s.nullable t
    let args := if redundant then args.filter (· ≠ epsilon) else args
    match args with
    | [] => (empty, s)
    | [t] => (t, s)
    | args => s.make (.union args)

theorem unionOf_eq (s : Store) (args : List TermId) : s.unionOf args =
    (s.orderArgs .union args).2.unionOrdered (s.orderArgs .union args).1 :=
  rfl

def interOrdered (s : Store) (args : List TermId) : TermId × Store :=
  let args := args.filter (· ≠ full)
  if args.contains empty || s.hasComplements args then (empty, s)
  else if args.contains epsilon then (if args.all s.nullable then epsilon else empty, s)
  else
    match args with
    | [] => (full, s)
    | [t] => (t, s)
    | args => s.make (.inter args)

theorem interOf_eq (s : Store) (args : List TermId) : s.interOf args =
    (s.orderArgs .inter args).2.interOrdered (s.orderArgs .inter args).1 :=
  rfl

theorem replays_node (neutral : TermId) (node : List TermId → Expr)
    (h : ∀ t ∈ (node args).children, t < s.size) :
    s.Replays fun s =>
      match args with
      | [] => (neutral, s)
      | [t] => (t, s)
      | args => s.make (node args) :=
  match args with
  | [] => s.replays_pure neutral
  | [t] => s.replays_pure t
  | _ :: _ :: _ => replays_make h

theorem replays_unionOrdered (h : ∀ t ∈ args, t < s.size) :
    s.Replays fun s => s.unionOrdered args := by
  unfold unionOrdered
  have hargs : ∀ t ∈ args.filter (· ≠ empty), t < s.size := fun t ht => h t (List.mem_filter.1 ht).1
  generalize args.filter (· ≠ empty) = args at hargs
  dsimp only
  by_cases hdecided : (args.contains full || s.hasComplements args) = true
  · apply (s.replays_pure full).congr
    intro s' hext
    rw [hext.hasComplements_eq hargs, if_pos hdecided]
  -- the operands that are left after `epsilon` has been dropped or kept
  generalize hkept : (if (args.any fun t => t ≠ epsilon && s.nullable t) then
    args.filter (· ≠ epsilon) else args) = kept
  have hlt : ∀ t ∈ kept, t < s.size := by
    intro t ht
    rw [← hkept] at ht
    split at ht
    · exact hargs t (List.mem_filter.1 ht).1
    · exact hargs t ht
  apply (replays_node empty .union hlt).congr
  intro s' hext
  rw [hext.hasComplements_eq hargs, if_neg hdecided, hext.any_nullable_eq hargs, hkept]

theorem replays_interOrdered (h : ∀ t ∈ args, t < s.size) :
    s.Replays fun s => s.interOrdered args := by
  unfold interOrdered
  have hargs : ∀ t ∈ args.filter (· ≠ full), t < s.size := fun t ht => h t (List.mem_filter.1 ht).1
  generalize args.filter (· ≠ full) = args at hargs
  dsimp only
  by_cases hdecided : (args.contains empty || s.hasComplements args) = true
  · apply (s.replays_pure empty).congr
    intro s' hext
    rw [hext.hasComplements_eq hargs, if_pos hdecided]
  by_cases hepsilon : args.contains epsilon = true
  · apply (s.replays_pure (if args.all s.nullable then epsilon else empty)).congr
    intro s' hext
    rw [hext.hasComplements_eq hargs, if_neg hdecided, if_pos hepsilon, hext.all_nullable_eq hargs]
  · apply (replays_node full .inter hargs).congr
    intro s' hext
    rw [hext.hasComplements_eq hargs, if_neg hdecided, if_neg hepsilon]

theorem replays_unionOf (h : ∀ t ∈ args, t < s.size) : s.Replays fun s => s.unionOf args := by
  have hordered := (orderArgs_spec (f := .union) h).2
  apply (replays_orderArgs .union h).bind (replays_unionOrdered hordered)
  intro s' s'' _ _ hs'
  rw [unionOf_eq, hs']

theorem replays_interOf (h : ∀ t ∈ args, t < s.size) : s.Replays fun s => s.interOf args := by
  have hordered := (orderArgs_spec (f := .inter) h).2
  apply (replays_orderArgs .inter h).bind (replays_interOrdered hordered)
  intro s' s'' _ _ hs'
  rw [interOf_eq, hs']

theorem replays_unionList (h : ∀ t ∈ ts, t < s.size) : s.Replays fun s => s.unionList ts := by
  have hargs : ∀ t ∈ ts.flatMap s.unionArgs, t < s.size := by
    intro t ht
    obtain ⟨u, hu, ht⟩ := List.mem_flatMap.1 ht
    exact unionArgs_lt_size (h u hu) ht
  apply (replays_unionOf hargs).congr
  intro s' hext
  rw [unionList, List.flatMap_congr fun t ht => hext.unionArgs_eq (h t ht)]

theorem replays_interList (h : ∀ t ∈ ts, t < s.size) : s.Replays fun s => s.interList ts := by
  have hargs : ∀ t ∈ ts.flatMap s.interArgs, t < s.size := by
    intro t ht
    obtain ⟨u, hu, ht⟩ := List.mem_flatMap.1 ht
    exact interArgs_lt_size (h u hu) ht
  apply (replays_interOf hargs).congr
  intro s' hext
  rw [interList, List.flatMap_congr fun t ht => hext.interArgs_eq (h t ht)]

theorem replays_union {t u : TermId} (ht : t < s.size) (hu : u < s.size) :
    s.Replays fun s => s.union t u :=
  replays_unionList (by simpa using ⟨ht, hu⟩)

theorem replays_inter {t u : TermId} (ht : t < s.size) (hu : u < s.size) :
    s.Replays fun s => s.inter t u :=
  replays_interList (by simpa using ⟨ht, hu⟩)

theorem replays_negation {t : TermId} (ht : t < s.size) : s.Replays fun s => s.negation t := by
  have hmake : s.Replays fun s => s.make (.negation t) :=
    replays_make (by simpa [Expr.children] using ht)
  cases he : s.expr t with
  | negation u =>
    apply (s.replays_pure u).congr
    intro s' hext
    rw [negation, hext.expr_eq ht, he]
  | _ =>
    apply hmake.congr
    intro s' hext
    rw [negation, hext.expr_eq ht, he]

theorem replays_difference (hs : s.WellFormed) {t u : TermId} (ht : t < s.size) (hu : u < s.size) :
    s.Replays fun s => s.difference t u := by
  have hnegation := (builds_negation hs hu).grows
  apply (replays_negation hu).bind
    (replays_inter (hnegation.ext.lt_size ht) hnegation.lt_size)
  intro s' s'' _ _ hs'
  rw [difference, hs']

end Boolean

section Repetition

variable {t : TermId} {min max low : Nat}

theorem replays_star (ht : t < s.size) : s.Replays fun s => s.star t := by
  have hmake : s.Replays fun s => s.make (.star t) :=
    replays_make (by simpa [Expr.children] using ht)
  cases he : s.expr t with
  | emptySet | emptyString =>
    apply (s.replays_pure epsilon).congr
    intro s' hext
    rw [star, hext.expr_eq ht, he]
  | star _ =>
    apply (s.replays_pure t).congr
    intro s' hext
    rw [star, hext.expr_eq ht, he]
  | _ =>
    apply hmake.congr
    intro s' hext
    rw [star, hext.expr_eq ht, he]

theorem replays_plus (hs : s.WellFormed) (ht : t < s.size) : s.Replays fun s => s.plus t := by
  have hstar := builds_star hs ht
  apply (replays_star ht).bind
    (replays_concat hstar.wellFormed (hstar.grows.ext.lt_size ht) hstar.grows.lt_size)
  intro s' s'' _ _ hs'
  rw [plus, hs']

def betweenProper (s : Store) (t : TermId) (min max : Nat) : TermId × Store :=
  match s.expr t with
  | .star _ => (t, s)
  | .emptySet => (if min = 0 then epsilon else empty, s)
  | .emptyString => (epsilon, s)
  | _ => s.make (.repeated t min max)

theorem between_eq_betweenProper (hmax : max ≠ 0) (hlow : (if s.nullable t then 0 else min) = low)
    (hone : ¬(max = 1 ∧ (low = 1 ∨ s.nullable t = true))) :
    s.between t min max = s.betweenProper t low max := by
  rw [between, if_neg hmax]
  simp only [hlow]
  exact if_neg hone

theorem replays_betweenProper (ht : t < s.size) (min max : Nat) :
    s.Replays fun s => s.betweenProper t min max := by
  have hmake : s.Replays fun s => s.make (.repeated t min max) :=
    replays_make (by simpa [Expr.children] using ht)
  unfold betweenProper
  cases he : s.expr t with
  | star _ =>
    apply (s.replays_pure t).congr
    intro s' hext
    rw [hext.expr_eq ht, he]
  | emptySet =>
    apply (s.replays_pure (if min = 0 then epsilon else empty)).congr
    intro s' hext
    rw [hext.expr_eq ht, he]
  | emptyString =>
    apply (s.replays_pure epsilon).congr
    intro s' hext
    rw [hext.expr_eq ht, he]
  | _ =>
    apply hmake.congr
    intro s' hext
    rw [hext.expr_eq ht, he]

theorem replays_between (ht : t < s.size) (min max : Nat) :
    s.Replays fun s => s.between t min max := by
  by_cases hmax : max = 0
  · apply (s.replays_pure epsilon).congr
    intro s' _
    rw [between, if_pos hmax]
  generalize hlow : (if s.nullable t then 0 else min) = low
  by_cases hone : max = 1 ∧ (low = 1 ∨ s.nullable t = true)
  · apply (s.replays_pure t).congr
    intro s' hext
    rw [between, if_neg hmax]
    simp only [hext.nullable_eq ht, hlow]
    exact if_pos hone
  · apply (replays_betweenProper ht low max).congr
    intro s' hext
    rw [← hext.nullable_eq ht] at hlow hone
    exact between_eq_betweenProper hmax hlow hone

theorem replays_repeated (ht : t < s.size) (min max : Nat) :
    s.Replays fun s => s.repeated t min max := by
  by_cases h : max < min
  · apply (s.replays_pure (.error (.invalidBounds min max))).congr
    intro s' _
    rw [repeated, if_pos h]
  · apply ((replays_between ht min max).map .ok).congr
    intro s' _
    rw [repeated, if_neg h]

theorem replays_atLeast (hs : s.WellFormed) (ht : t < s.size) (min : Nat) :
    s.Replays fun s => s.atLeast t min := by
  have hbetween := builds_between hs ht (Nat.le_refl min)
  have ht' := hbetween.grows.ext.lt_size ht
  have hstar := builds_star hbetween.wellFormed ht'
  have hconcat := replays_concat hstar.wellFormed
    (hstar.grows.ext.lt_size hbetween.grows.lt_size) hstar.grows.lt_size
  have hrest : (s.between t min min).2.Replays fun s' =>
      (s'.star t).2.concat (s.between t min min).1 (s'.star t).1 := by
    apply (replays_star ht').bind hconcat
    intro s' s'' _ _ hs'
    rw [hs']
  apply (replays_between ht min min).bind hrest
  intro s' s'' _ _ hs'
  rw [atLeast, hs']

end Repetition

section Derivative

theorem replays_derive (hs : s.WellFormed) {c : Char} {t : TermId} {sub : TermId → TermId}
    (ht : t < s.size) (hsub : ∀ u ∈ s.dependencies t, sub u < s.size) :
    s.Replays fun s => s.derive c t sub := by
  unfold dependencies at hsub
  cases he : s.expr t with
  | emptySet | emptyString =>
    apply (s.replays_pure empty).congr
    intro s' hext
    rw [derive, hext.expr_eq ht, he]
  | literal set =>
    apply (s.replays_pure (if set.contains c then epsilon else empty)).congr
    intro s' hext
    rw [derive, hext.expr_eq ht, he]
  | concat left right =>
    have hleft : left < s.size := lt_size_of_child ht he (by simp [Expr.children])
    have hright : right < s.size := lt_size_of_child ht he (by simp [Expr.children])
    simp only [he] at hsub
    cases hnull : s.nullable left with
    | false =>
      rw [hnull] at hsub
      apply (replays_concat hs (hsub left (List.mem_singleton_self left)) hright).congr
      intro s' hext
      rw [derive, hext.expr_eq ht, he]
      simp only [hext.nullable_eq hleft, hnull]
      rfl
    | true =>
      rw [hnull] at hsub
      have hl : sub left < s.size := hsub left (by simp)
      have hr : sub right < s.size := hsub right (by simp)
      have hcat := (builds_concat hs hl hright).grows
      apply (replays_concat hs hl hright).bind
        (replays_union hcat.lt_size (hcat.ext.lt_size hr))
      intro s' s'' hext _ hs'
      rw [derive, hext.expr_eq ht, he]
      simp only [hext.nullable_eq hleft, hnull, hs']
      rfl
  | union args =>
    simp only [he, Expr.children] at hsub
    have hargs : ∀ u ∈ args.map sub, u < s.size := by simpa using hsub
    apply (replays_unionList hargs).congr
    intro s' hext
    rw [derive, hext.expr_eq ht, he]
  | inter args =>
    simp only [he, Expr.children] at hsub
    have hargs : ∀ u ∈ args.map sub, u < s.size := by simpa using hsub
    apply (replays_interList hargs).congr
    intro s' hext
    rw [derive, hext.expr_eq ht, he]
  | negation arg =>
    simp only [he, Expr.children] at hsub
    apply (replays_negation (hsub arg (List.mem_singleton_self arg))).congr
    intro s' hext
    rw [derive, hext.expr_eq ht, he]
  | star arg =>
    simp only [he, Expr.children] at hsub
    apply (replays_concat hs (hsub arg (List.mem_singleton_self arg)) ht).congr
    intro s' hext
    rw [derive, hext.expr_eq ht, he]
  | repeated arg min max =>
    have harg : arg < s.size := lt_size_of_child ht he (by simp [Expr.children])
    have hle : min ≤ max := by
      have h := hs t
      rw [he] at h
      exact h.1
    simp only [he, Expr.children] at hsub
    have hrest := builds_between hs harg (Nat.sub_le_sub_right hle 1)
    have hsubarg := hrest.grows.ext.lt_size (hsub arg (List.mem_singleton_self arg))
    apply (replays_between harg (min - 1) (max - 1)).bind
      (replays_concat hrest.wellFormed hsubarg hrest.grows.lt_size)
    intro s' s'' hext _ hs'
    rw [derive, hext.expr_eq ht, he]
    simp only [hs']

theorem derive_congr {c : Char} {t : TermId} {sub sub' : TermId → TermId}
    (h : ∀ u ∈ s.dependencies t, sub u = sub' u) : s.derive c t sub = s.derive c t sub' := by
  unfold dependencies at h
  unfold derive
  cases he : s.expr t with
  | concat left right =>
    simp only [he] at h
    cases hnull : s.nullable left with
    | false => simp_all
    | true => simp_all
  | union args | inter args =>
    simp only [he, Expr.children] at h
    simp only [List.map_congr_left h]
  | _ => simp_all [Expr.children]

/--
Whether a store holds all that the computation of a derivative builds, given the derivatives of the
dependencies, and all that the computations of these derivatives build.
-/
inductive Explained (s : Store) (c : Char) : TermId → Prop where
  | intro {t : TermId} (sub : TermId → TermId) (lt_size : t < s.size)
    (sub_lt : ∀ u ∈ s.dependencies t, sub u < s.size)
    (sub_eq : ∀ u ∈ s.dependencies t, s.tree (sub u) = (s.tree u).derivative c)
    (derive_eq : (s.derive c t sub).2 = s)
    (dependencies : ∀ u ∈ s.dependencies t, s.Explained c u) : s.Explained c t

theorem Explained.of_derive (hs : s.WellFormed) {c : Char} {t : TermId} {sub : TermId → TermId}
    (ht : t < s.size) (hlt : ∀ u ∈ s.dependencies t, sub u < s.size)
    (heq : ∀ u ∈ s.dependencies t, s.tree (sub u) = (s.tree u).derivative c)
    (hext : (s.derive c t sub).2.Extends s')
    (hdeps : ∀ u ∈ s.dependencies t, s'.Explained c u) : s'.Explained c t := by
  have hreplays := replays_derive hs (c := c) ht hlt
  have hext' := hreplays.ext.trans hext
  have hsub : ∀ u ∈ s.dependencies t, u < s.size :=
    fun u hu => Nat.lt_trans (lt_of_mem_dependencies hu) ht
  rw [← hext'.dependencies_eq ht] at hlt heq hsub hdeps
  apply Explained.intro sub (hext'.lt_size ht) _ _ _ hdeps
  · intro u hu
    exact hext'.lt_size (hlt u hu)
  · intro u hu
    rw [hext'.tree_eq (hlt u hu), hext'.tree_eq (hsub u hu), heq u hu]
  · rw [hreplays.again s' hext]

theorem Explained.mono (hs : s.WellFormed) {c : Char} {t : TermId} (h : s.Explained c t)
    (hext : s.Extends s') : s'.Explained c t := by
  induction h with
  | intro sub lt_size sub_lt sub_eq derive_eq _ ih =>
    exact .of_derive hs lt_size sub_lt sub_eq (derive_eq.symm ▸ hext) ih

end Derivative

end Store

end Residual
