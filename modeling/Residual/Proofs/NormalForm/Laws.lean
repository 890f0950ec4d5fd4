import Residual.Proofs.Grouping
import Residual.Proofs.Transparency

/-!
This module contains the laws of the operations on terms. The operands of a union and of an
intersection count as a set, and the operations have the units and the absorbing terms that are to
be expected. All of this holds for ids, as a term that is given again survives its simplification.
-/

namespace Residual

open Std

section Increasing

variable {α : Type} [Ord α] [TransOrd α] [LawfulEqOrd α] [DecidableEq α] {l m : List α}

theorem increasing_congr (h : ∀ x, x ∈ l ↔ x ∈ m) : increasing l = increasing m := by
  apply (increasing_increasing l).ext (increasing_increasing m)
  intro x
  rw [mem_increasing, mem_increasing, h x]

theorem filter_increasing_cons {p : α → Bool} {x : α} (hx : p x = false) (hl : Increasing l) :
    (increasing (x :: l)).filter p = l.filter p := by
  have hfilter : Increasing ((increasing (x :: l)).filter p) :=
    (increasing_increasing _).sublist List.filter_sublist
  apply hfilter.ext (hl.sublist List.filter_sublist)
  intro y
  rw [List.mem_filter, List.mem_filter, mem_increasing, List.mem_cons]
  constructor
  · rintro ⟨rfl | hy, hp⟩
    · rw [hx] at hp
      contradiction
    · exact ⟨hy, hp⟩
  · rintro ⟨hy, hp⟩
    exact ⟨.inr hy, hp⟩

end Increasing

namespace Store

variable {s s' : Store} {t u x y : TermId} {args us : List TermId}

section Operands

theorem orderArgs_congr {f : SymbolSet → SymbolSet → SymbolSet} (hf : SymbolSet.Combines f)
    (h : ∀ t, t ∈ args ↔ t ∈ us) : s.orderArgs f args = s.orderArgs f us := by
  have hsets : ∀ set, set ∈ args.filterMap s.literalSet? ↔ set ∈ us.filterMap s.literalSet? := by
    intro set
    simp only [List.mem_filterMap, h]
  have hothers : ∀ t, t ∈ args.filter (fun t => (s.literalSet? t).isNone) ↔
      t ∈ us.filter fun t => (s.literalSet? t).isNone := by
    intro t
    rw [List.mem_filter, List.mem_filter, h t]
  unfold orderArgs
  generalize args.filterMap s.literalSet? = sets at hsets
  generalize us.filterMap s.literalSet? = sets' at hsets
  generalize args.filter (fun t => (s.literalSet? t).isNone) = others at hothers
  generalize us.filter (fun t => (s.literalSet? t).isNone) = others' at hothers
  match sets, sets' with
  | [], [] => exact congrArg (·, s) (increasing_congr hothers)
  | [], set :: sets' => exact absurd ((hsets set).2 List.mem_cons_self) List.not_mem_nil
  | set :: sets, [] => exact absurd ((hsets set).1 List.mem_cons_self) List.not_mem_nil
  | set :: sets, set' :: sets' =>
    dsimp only
    rw [hf hsets]
    refine congrArg (·, _) (increasing_congr fun t => ?_)
    rw [List.mem_cons, List.mem_cons, hothers t]

theorem unionOf_congr (h : ∀ t, t ∈ args ↔ t ∈ us) : s.unionOf args = s.unionOf us := by
  rw [unionOf_eq, unionOf_eq, orderArgs_congr SymbolSet.combines_union h]

theorem interOf_congr (h : ∀ t, t ∈ args ↔ t ∈ us) : s.interOf args = s.interOf us := by
  rw [interOf_eq, interOf_eq, orderArgs_congr SymbolSet.combines_inter h]

theorem mem_flatMap_congr {f : TermId → List TermId} (h : ∀ t, t ∈ args ↔ t ∈ us) (u : TermId) :
    u ∈ args.flatMap f ↔ u ∈ us.flatMap f := by
  simp only [List.mem_flatMap, h]

theorem unionList_congr (h : ∀ t, t ∈ args ↔ t ∈ us) : s.unionList args = s.unionList us :=
  unionOf_congr (mem_flatMap_congr h)

theorem interList_congr (h : ∀ t, t ∈ args ↔ t ∈ us) : s.interList args = s.interList us :=
  interOf_congr (mem_flatMap_congr h)

theorem mem_pair_comm (t u v : TermId) : v ∈ [t, u] ↔ v ∈ [u, t] := by
  rw [List.mem_pair, List.mem_pair, or_comm]

theorem union_comm (s : Store) (t u : TermId) : s.union t u = s.union u t :=
  unionList_congr (mem_pair_comm t u)

theorem inter_comm (s : Store) (t u : TermId) : s.inter t u = s.inter u t :=
  interList_congr (mem_pair_comm t u)

theorem orderArgs_cons {f : SymbolSet → SymbolSet → SymbolSet}
    (ht : ∀ set, s.expr t ≠ .literal set) : s.orderArgs f (t :: args) =
      (increasing (t :: (s.orderArgs f args).1), (s.orderArgs f args).2) := by
  have hnone : s.literalSet? t = none := by
    rw [Option.eq_none_iff_forall_ne_some]
    intro set hset
    exact ht set (literalSet?_eq_some_iff.1 hset)
  have hkept : (s.literalSet? t).isNone = true := by rw [hnone, Option.isNone_none]
  unfold orderArgs
  rw [List.filterMap_cons_none hnone,
    List.filter_cons_of_pos (p := fun u => (s.literalSet? u).isNone) hkept]
  generalize args.filterMap s.literalSet? = sets
  generalize args.filter (fun t => (s.literalSet? t).isNone) = others
  cases sets with
  | nil =>
    refine congrArg (·, _) (increasing_congr fun u => ?_)
    simp only [List.mem_cons, mem_increasing]
  | cons set sets =>
    refine congrArg (·, _) (increasing_congr fun u => ?_)
    simp only [List.mem_cons, mem_increasing]
    exact or_left_comm

theorem orderArgs_singleton (hs : s.Normal) (ht : t < s.size)
    (f : SymbolSet → SymbolSet → SymbolSet) : s.orderArgs f [t] = ([t], s) := by
  have hsingle : increasing [t] = [t] := by
    apply (increasing_increasing [t]).ext (List.pairwise_singleton _ t)
    exact fun _ => mem_increasing
  unfold orderArgs
  cases hset : s.literalSet? t with
  | none =>
    have hkept : (s.literalSet? t).isNone = true := by rw [hset, Option.isNone_none]
    rw [List.filterMap_cons_none hset,
      List.filter_cons_of_pos (p := fun u => (s.literalSet? u).isNone) hkept]
    exact congrArg (·, s) hsingle
  | some set =>
    have hleft : ¬(s.literalSet? t).isNone = true := by
      rw [hset, Option.isNone_some]
      exact Bool.false_ne_true
    have hliteral := literal_of_expr hs ht (literalSet?_eq_some_iff.1 hset)
    rw [List.filterMap_cons_some hset,
      List.filter_cons_of_neg (p := fun u => (s.literalSet? u).isNone) hleft]
    dsimp only [List.filterMap_nil, List.foldl_nil, List.filter_nil]
    rw [hliteral, hsingle]

theorem orderArgs_unionArgs (hs : s.Normal) (ht : t < s.size)
    (f : SymbolSet → SymbolSet → SymbolSet) :
    s.orderArgs f (s.unionArgs t) = (s.unionArgs t, s) := by
  unfold unionArgs
  split
  next args he =>
    have hnormal := hs t
    rw [he] at hnormal
    exact orderArgs_of_simplified hs (fun u => lt_size_of_child ht he) hnormal.1 f
  · exact orderArgs_singleton hs ht f

theorem orderArgs_interArgs (hs : s.Normal) (ht : t < s.size)
    (f : SymbolSet → SymbolSet → SymbolSet) :
    s.orderArgs f (s.interArgs t) = (s.interArgs t, s) := by
  unfold interArgs
  split
  next args he =>
    have hnormal := hs t
    rw [he] at hnormal
    exact orderArgs_of_simplified hs (fun u => lt_size_of_child ht he) hnormal.1 f
  · exact orderArgs_singleton hs ht f

theorem increasing_unionArgs (hs : s.Normal) (t : TermId) : Increasing (s.unionArgs t) := by
  unfold unionArgs
  split
  next args he =>
    have hnormal := hs t
    rw [he] at hnormal
    exact hnormal.1.increasing.imp Nat.compare_eq_lt.2
  · exact List.pairwise_singleton _ t

theorem increasing_interArgs (hs : s.Normal) (t : TermId) : Increasing (s.interArgs t) := by
  unfold interArgs
  split
  next args he =>
    have hnormal := hs t
    rw [he] at hnormal
    exact hnormal.1.increasing.imp Nat.compare_eq_lt.2
  · exact List.pairwise_singleton _ t

end Operands

section Units

theorem not_hasComplements_singleton (s : Store) (t : TermId) : ¬s.hasComplements [t] = true := by
  intro h
  obtain ⟨u, hu, hmem⟩ := List.any_eq_true.1 h
  split at hmem
  next v he =>
    rw [List.mem_singleton.1 hu] at he
    rw [List.contains_iff_mem, List.mem_singleton] at hmem
    have hlt : v < t := child_lt he (by simp [Expr.children])
    exact Nat.ne_of_lt hlt hmem
  · contradiction

theorem unionOrdered_singleton (s : Store) (t : TermId) : s.unionOrdered [t] = (t, s) := by
  unfold unionOrdered
  by_cases hempty : t = empty
  · rw [List.filter_cons_of_neg (by simpa using hempty), hempty]
    rfl
  · rw [List.filter_cons_of_pos (by simpa using hempty), List.filter_nil]
    by_cases hfull : t = full
    · rw [hfull]
      rfl
    have hdecided : ([t].contains full || s.hasComplements [t]) = false := by
      rw [Bool.or_eq_false_iff, Bool.eq_false_iff, Bool.eq_false_iff, Ne, List.contains_iff_mem,
        List.mem_singleton]
      exact ⟨Ne.symm hfull, s.not_hasComplements_singleton t⟩
    dsimp only
    rw [hdecided, if_neg Bool.false_ne_true]
    by_cases hepsilon : t = epsilon
    · rw [hepsilon]
      rfl
    · rw [List.filter_cons_of_pos (by simpa using hepsilon), List.filter_nil, ite_self]

theorem nullable_epsilon (s : Store) : s.nullable epsilon = true := by
  have h : s.nullables[epsilon]? = some true := s.nullables_eq epsilon .emptyString s.get?_epsilon
  rw [nullable, Array.getD_eq_getD_getElem?, h, Option.getD_some]

theorem interOrdered_singleton (s : Store) (t : TermId) : s.interOrdered [t] = (t, s) := by
  unfold interOrdered
  by_cases hfull : t = full
  · rw [List.filter_cons_of_neg (by simpa using hfull), hfull]
    rfl
  · rw [List.filter_cons_of_pos (by simpa using hfull), List.filter_nil]
    by_cases hempty : t = empty
    · rw [hempty]
      rfl
    have hdecided : ([t].contains empty || s.hasComplements [t]) = false := by
      rw [Bool.or_eq_false_iff, Bool.eq_false_iff, Bool.eq_false_iff, Ne, List.contains_iff_mem,
        List.mem_singleton]
      exact ⟨Ne.symm hempty, s.not_hasComplements_singleton t⟩
    dsimp only
    rw [hdecided, if_neg Bool.false_ne_true]
    by_cases hepsilon : t = epsilon
    · have hall : [epsilon].all s.nullable = true := by
        rw [List.all_cons, List.all_nil, Bool.and_true, s.nullable_epsilon]
      rw [hepsilon, if_pos (by rfl), if_pos hall]
    · have hproper : ¬[t].contains epsilon = true := by
        rw [List.contains_iff_mem, List.mem_singleton]
        exact Ne.symm hepsilon
      rw [if_neg hproper]

theorem unionOrdered_unionArgs (hs : s.Normal) (ht : t < s.size) :
    s.unionOrdered (s.unionArgs t) = (t, s) := by
  by_cases hunion : ∃ us, s.expr t = .union us
  · obtain ⟨us, he⟩ := hunion
    have hnormal := hs t
    rw [he] at hnormal
    have hflat : us.flatMap s.unionArgs = us :=
      flatMap_of_singleton fun u hu => unionArgs_of_ne (hnormal.2.1 u hu)
    have hargs : s.unionArgs t = us := by rw [unionArgs, he]
    have hlist := unionList_of_expr hs ht he
    rw [unionList, hflat, unionOf_eq, ← hargs, orderArgs_unionArgs hs ht] at hlist
    exact hlist
  · rw [unionArgs_of_ne (not_exists.1 hunion), unionOrdered_singleton]

theorem interOrdered_interArgs (hs : s.Normal) (ht : t < s.size) :
    s.interOrdered (s.interArgs t) = (t, s) := by
  by_cases hinter : ∃ us, s.expr t = .inter us
  · obtain ⟨us, he⟩ := hinter
    have hnormal := hs t
    rw [he] at hnormal
    have hflat : us.flatMap s.interArgs = us :=
      flatMap_of_singleton fun u hu => interArgs_of_ne (hnormal.2.1 u hu)
    have hargs : s.interArgs t = us := by rw [interArgs, he]
    have hlist := interList_of_expr hs ht he
    rw [interList, hflat, interOf_eq, ← hargs, orderArgs_interArgs hs ht] at hlist
    exact hlist
  · rw [interArgs_of_ne (not_exists.1 hinter), interOrdered_singleton]

theorem unionOrdered_of_mem (h : full ∈ args) : s.unionOrdered args = (full, s) := by
  have hmem : full ∈ args.filter (· ≠ empty) := List.mem_filter.2 ⟨h, rfl⟩
  unfold unionOrdered
  dsimp only
  rw [List.contains_iff_mem.2 hmem, Bool.true_or, if_pos rfl]

theorem interOrdered_of_mem (h : empty ∈ args) : s.interOrdered args = (empty, s) := by
  have hmem : empty ∈ args.filter (· ≠ full) := List.mem_filter.2 ⟨h, rfl⟩
  unfold interOrdered
  dsimp only
  rw [List.contains_iff_mem.2 hmem, Bool.true_or, if_pos rfl]

theorem unionOrdered_cons_empty (h : Increasing args) :
    s.unionOrdered (increasing (empty :: args)) = s.unionOrdered args := by
  unfold unionOrdered
  rw [filter_increasing_cons rfl h]

theorem interOrdered_cons_full (h : Increasing args) :
    s.interOrdered (increasing (full :: args)) = s.interOrdered args := by
  unfold interOrdered
  rw [filter_increasing_cons rfl h]

theorem union_of_expr (hs : s.Normal) (hu : u < s.size) (hliteral : ∀ set, s.expr t ≠ .literal set)
    (hunion : ∀ us, s.expr t ≠ .union us) :
    s.union t u = s.unionOrdered (increasing (t :: s.unionArgs u)) := by
  have hargs : [t, u].flatMap s.unionArgs = t :: s.unionArgs u := by
    rw [List.flatMap_cons, List.flatMap_singleton, unionArgs_of_ne hunion, List.singleton_append]
  rw [union, unionList, hargs, unionOf_eq, orderArgs_cons hliteral, orderArgs_unionArgs hs hu]

theorem inter_of_expr (hs : s.Normal) (hu : u < s.size) (hliteral : ∀ set, s.expr t ≠ .literal set)
    (hinter : ∀ us, s.expr t ≠ .inter us) :
    s.inter t u = s.interOrdered (increasing (t :: s.interArgs u)) := by
  have hargs : [t, u].flatMap s.interArgs = t :: s.interArgs u := by
    rw [List.flatMap_cons, List.flatMap_singleton, interArgs_of_ne hinter, List.singleton_append]
  rw [inter, interList, hargs, interOf_eq, orderArgs_cons hliteral, orderArgs_interArgs hs hu]

section Laws

variable (hs : s.Normal) (ht : t < s.size)

include hs ht

theorem union_self : s.union t t = (t, s) := by
  have hargs : ∀ u, u ∈ [t, t].flatMap s.unionArgs ↔ u ∈ s.unionArgs t := by simp
  rw [union, unionList, unionOf_congr hargs, unionOf_eq, orderArgs_unionArgs hs ht,
    unionOrdered_unionArgs hs ht]

theorem inter_self : s.inter t t = (t, s) := by
  have hargs : ∀ u, u ∈ [t, t].flatMap s.interArgs ↔ u ∈ s.interArgs t := by simp
  rw [inter, interList, interOf_congr hargs, interOf_eq, orderArgs_interArgs hs ht,
    interOrdered_interArgs hs ht]

theorem empty_union : s.union empty t = (t, s) := by
  rw [union_of_expr hs ht (by simp [expr_empty]) (by simp [expr_empty]),
    unionOrdered_cons_empty (increasing_unionArgs hs t), unionOrdered_unionArgs hs ht]

theorem full_inter : s.inter full t = (t, s) := by
  rw [inter_of_expr hs ht (by simp [expr_full]) (by simp [expr_full]),
    interOrdered_cons_full (increasing_interArgs hs t), interOrdered_interArgs hs ht]

theorem full_union : s.union full t = (full, s) := by
  rw [union_of_expr hs ht (by simp [expr_full]) (by simp [expr_full])]
  exact unionOrdered_of_mem (mem_increasing.2 List.mem_cons_self)

theorem empty_inter : s.inter empty t = (empty, s) := by
  rw [inter_of_expr hs ht (by simp [expr_empty]) (by simp [expr_empty])]
  exact interOrdered_of_mem (mem_increasing.2 List.mem_cons_self)

theorem negation_negation {r : TermId × Store} (hr : s.negation t = r) :
    r.2.negation r.1 = (t, r.2) := by
  subst hr
  cases he : s.expr t with
  | negation u =>
    have hfound : s.negation t = (u, s) := by rw [negation, he]
    rw [hfound]
    exact negation_of_expr hs ht he
  | _ =>
    have hmake : s.negation t = s.make (.negation t) := by rw [negation, he]
    have hexpr : (s.make (.negation t)).2.expr (s.make (.negation t)).1 = .negation t :=
      expr_make (by simpa [Expr.children] using ht)
    rw [hmake, negation, hexpr]

end Laws

theorem star_star (ht : t < s.size) {r : TermId × Store} (hr : s.star t = r) :
    r.2.star r.1 = r := by
  subst hr
  cases he : s.expr t with
  | emptySet | emptyString =>
    have hepsilon : s.star t = (epsilon, s) := by rw [star, he]
    rw [hepsilon, star, expr_epsilon]
  | star u =>
    have hfound : s.star t = (t, s) := by rw [star, he]
    rw [hfound, hfound]
  | _ =>
    have hmake : s.star t = s.make (.star t) := by rw [star, he]
    have hexpr : (s.make (.star t)).2.expr (s.make (.star t)).1 = .star t :=
      expr_make (by simpa [Expr.children] using ht)
    rw [hmake, star, hexpr]

theorem empty_concat (s : Store) (t : TermId) : s.concat empty t = (empty, s) := by
  rw [concat, if_pos (.inl rfl)]

theorem concat_empty (s : Store) (t : TermId) : s.concat t empty = (empty, s) := by
  rw [concat, if_pos (.inr rfl)]

theorem epsilon_concat (s : Store) (t : TermId) : s.concat epsilon t = (t, s) := by
  by_cases ht : t = empty
  · rw [ht, concat_empty]
  · rw [concat, if_neg (by simpa using ht), if_pos rfl]

theorem concat_epsilon (s : Store) (t : TermId) : s.concat t epsilon = (t, s) := by
  by_cases hempty : t = empty
  · rw [hempty, empty_concat]
  by_cases hepsilon : t = epsilon
  · rw [hepsilon, epsilon_concat]
  · rw [concat, if_neg (by simpa using hempty), if_neg hepsilon, if_pos rfl]

end Units

end Store

namespace Workspace

variable {w v : Workspace} {x y : TermId}

structure Agree (w : Workspace) (f g : Store → TermId × Store) : Prop where
  build_eq : w.build g = w.build f
  repeats : ∀ (later : Session (w.build f).2) (i : Nat),
    (later.state i).Repeats ((later.state i).build g) (w.build f).1

/-- The laws of the operations for a term of `w`. Nothing is built beyond the operands. -/
structure Lawful (w : Workspace) (x : TermId) : Prop where
  union_self : w.build (Store.union · x x) = (x, w)
  inter_self : w.build (Store.inter · x x) = (x, w)
  union_empty : w.build (Store.union · x Store.empty) = (x, w)
  empty_union : w.build (Store.union · Store.empty x) = (x, w)
  union_full : w.build (Store.union · x Store.full) = (Store.full, w)
  full_union : w.build (Store.union · Store.full x) = (Store.full, w)
  inter_full : w.build (Store.inter · x Store.full) = (x, w)
  full_inter : w.build (Store.inter · Store.full x) = (x, w)
  inter_empty : w.build (Store.inter · x Store.empty) = (Store.empty, w)
  empty_inter : w.build (Store.inter · Store.empty x) = (Store.empty, w)
  concat_empty : w.build (Store.concat · x Store.empty) = (Store.empty, w)
  empty_concat : w.build (Store.concat · Store.empty x) = (Store.empty, w)
  concat_epsilon : w.build (Store.concat · x Store.epsilon) = (x, w)
  epsilon_concat : w.build (Store.concat · Store.epsilon x) = (x, w)
  negation_negation : ∀ y v, w.build (Store.negation · x) = (y, v) →
    v.build (Store.negation · y) = (x, v)
  star_star : ∀ y v, w.build (Store.star · x) = (y, v) → v.build (Store.star · y) = (y, v)

theorem build_of_store {f : Store → TermId × Store} (h : f w.store = (x, w.store)) :
    w.build f = (x, w) := by
  rw [build_eq, h]

theorem lawful_of_normal (hw : w.store.Normal) (hx : x < w.numTerms) : w.Lawful x where
  union_self := build_of_store (Store.union_self hw hx)
  inter_self := build_of_store (Store.inter_self hw hx)
  union_empty := build_of_store ((Store.union_comm ..).trans (Store.empty_union hw hx))
  empty_union := build_of_store (Store.empty_union hw hx)
  union_full := build_of_store ((Store.union_comm ..).trans (Store.full_union hw hx))
  full_union := build_of_store (Store.full_union hw hx)
  inter_full := build_of_store ((Store.inter_comm ..).trans (Store.full_inter hw hx))
  full_inter := build_of_store (Store.full_inter hw hx)
  inter_empty := build_of_store ((Store.inter_comm ..).trans (Store.empty_inter hw hx))
  empty_inter := build_of_store (Store.empty_inter hw hx)
  concat_empty := build_of_store (Store.concat_empty ..)
  empty_concat := build_of_store (Store.empty_concat ..)
  concat_epsilon := build_of_store (Store.concat_epsilon ..)
  epsilon_concat := build_of_store (Store.epsilon_concat ..)
  negation_negation := by
    intro y v hy
    exact build_of_store (Store.negation_negation hw hx (store_of_build hy))
  star_star := by
    intro y v hy
    exact build_of_store (Store.star_star hx (store_of_build hy))

theorem agree_of_replays {f g : Store → TermId × Store} (h : ∀ s, g s = f s)
    (hsound : (w.build f).2.Sound) (hf : w.store.Replays f) : w.Agree f g where
  build_eq := by rw [build_eq, build_eq, h]
  repeats later i := by
    have hagain := hf.again (later.state i).store (later.grows_state hsound i).ext
    rw [Workspace.build_eq (later.state i), h, hagain]
    exact ⟨rfl, rfl⟩

/--
Neither the order nor the repetition of operands matters: two lists with the same terms have the
same union and the same intersection, also when the second is built at any later time. The
operations have their units and absorbing terms, unions and intersections are idempotent, and so
are stars, while negations cancel.
-/
theorem Reachable.operand_laws (hw : w.Reachable) :
    (∀ ts us : List TermId, (∀ t ∈ ts, t < w.numTerms) → (∀ t, t ∈ ts ↔ t ∈ us) →
      w.Agree (Store.unionList · ts) (Store.unionList · us) ∧
        w.Agree (Store.interList · ts) (Store.interList · us)) ∧
    ∀ x < w.numTerms, w.Lawful x := by
  constructor
  · intro ts us hts hmem
    have hmem' : ∀ t, t ∈ us ↔ t ∈ ts := fun t => (hmem t).symm
    have hunion : w.Grows (w.build (Operation.unionList ts).apply).2 := grows_build hw.sound hts
    have hinter : w.Grows (w.build (Operation.interList ts).apply).2 := grows_build hw.sound hts
    constructor
    · exact agree_of_replays (fun _ => Store.unionList_congr hmem') hunion.sound
        (Store.replays_unionList hts)
    · exact agree_of_replays (fun _ => Store.interList_congr hmem') hinter.sound
        (Store.replays_interList hts)
  · intro x hx
    exact lawful_of_normal (invariant_normal.holds hw).store hx

theorem operand_laws_complements :
    complements.Reachable ∧ (∀ t ∈ [4, 7, 0], t < complements.numTerms) ∧
      complements.Agree (Store.unionList · [4, 7, 0]) (Store.unionList · [0, 7, 4, 7]) ∧
      complements.Agree (Store.interList · [4, 7, 0]) (Store.interList · [0, 7, 4, 7]) ∧
      complements.Lawful 4 := by
  have hts : ∀ t ∈ [4, 7, 0], t < complements.numTerms := by decide +kernel
  have hmem : ∀ t, t ∈ [4, 7, 0] ↔ t ∈ [0, 7, 4, 7] := by
    intro t
    simp only [List.mem_cons, List.not_mem_nil, or_false]
    omega
  have hsets := reachable_complements.operand_laws.1 _ _ hts hmem
  have hlawful := reachable_complements.operand_laws.2 4 (by decide +kernel)
  exact ⟨reachable_complements, hts, hsets.1, hsets.2, hlawful⟩

end Workspace

end Residual
