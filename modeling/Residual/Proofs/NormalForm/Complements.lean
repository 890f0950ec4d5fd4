import Residual.Proofs.NormalForm.Laws

/-!
This module contains the union and the intersection of a term with its complement. They are all
words and the empty language, unless one of the two is split into its operands before.
-/

namespace Residual

namespace Store

variable {s : Store} {t u v : TermId} {args : List TermId}

def IsUnion (s : Store) (t : TermId) : Prop := ∃ args, s.expr t = .union args

def IsInter (s : Store) (t : TermId) : Prop := ∃ args, s.expr t = .inter args

section Ordered

theorem hasComplements_of_mem (ht : t ∈ args) (hu : u ∈ args) (he : s.expr u = .negation t) :
    s.hasComplements args = true := by
  rw [hasComplements, List.any_eq_true]
  refine ⟨u, hu, ?_⟩
  rw [he]
  exact List.contains_iff_mem.2 ht

theorem hasComplements_eq_false (h : ∀ t ∈ args, ∀ u ∈ args, s.expr t ≠ .negation u) :
    s.hasComplements args = false := by
  rw [Bool.eq_false_iff]
  intro hcomplements
  obtain ⟨t, ht, hmem⟩ := List.any_eq_true.1 hcomplements
  split at hmem
  next u he => exact h t ht u (List.contains_iff_mem.1 hmem) he
  · contradiction

theorem lt_size_of_negation (he : s.expr u = .negation t) : u < s.size := by
  apply lt_size_of_expr_ne
  rw [he]
  exact Expr.noConfusion

theorem eq_full_of_negation (he : s.expr u = .negation empty) : u = full := by
  rw [← expr_inj (lt_size_of_negation he) s.full_lt_size, he, expr_full]

theorem ne_of_negation {v : TermId} (he : s.expr u = .negation t)
    (hv : ∀ x, s.expr v ≠ .negation x) : u ≠ v := by
  rintro rfl
  exact hv t he

theorem unionOrdered_of_complements (ht : t ∈ args) (hu : u ∈ args) (he : s.expr u = .negation t) :
    s.unionOrdered args = (full, s) := by
  by_cases hempty : t = empty
  · subst hempty
    exact unionOrdered_of_mem (eq_full_of_negation he ▸ hu)
  · have hproper : u ≠ empty := ne_of_negation he (by simp [expr_empty])
    have hcomplements : s.hasComplements (args.filter (· ≠ empty)) = true := by
      apply hasComplements_of_mem _ _ he
      · exact List.mem_filter.2 ⟨ht, by simpa using hempty⟩
      · exact List.mem_filter.2 ⟨hu, by simpa using hproper⟩
    unfold unionOrdered
    dsimp only
    rw [hcomplements, Bool.or_true, if_pos rfl]

theorem interOrdered_of_complements (hs : s.Normal) (ht : t ∈ args) (hu : u ∈ args)
    (he : s.expr u = .negation t) : s.interOrdered args = (empty, s) := by
  by_cases hempty : t = empty
  · exact interOrdered_of_mem (hempty ▸ ht)
  · have hnormal := hs u
    rw [he] at hnormal
    have hproper : t ≠ full := by
      rintro rfl
      exact hnormal empty s.expr_full
    have hproper' : u ≠ full := by
      rintro rfl
      cases he.symm.trans s.expr_full
      exact hempty rfl
    have hcomplements : s.hasComplements (args.filter (· ≠ full)) = true := by
      apply hasComplements_of_mem _ _ he
      · exact List.mem_filter.2 ⟨ht, by simpa using hproper⟩
      · exact List.mem_filter.2 ⟨hu, by simpa using hproper'⟩
    unfold interOrdered
    dsimp only
    rw [hcomplements, Bool.or_true, if_pos rfl]

theorem node_ne (node : List TermId → Expr) {neutral : TermId} (hneutral : neutral ≠ v)
    (hargs : v ∉ args) (hlt : ∀ t ∈ (node args).children, t < s.size)
    (hnode : ∀ s' : Store, s'.expr v ≠ node args) :
    (match args with
      | [] => (neutral, s)
      | [t] => (t, s)
      | args => s.make (node args)).1 ≠ v :=
  match args with
  | [] => hneutral
  | [t] => fun h => hargs (List.mem_singleton.2 h.symm)
  | _ :: _ :: _ => by
    intro h
    apply hnode (s.make _).2
    rw [← h]
    exact expr_make hlt

theorem unionOrdered_ne_full (hlt : ∀ t ∈ args, t < s.size) (hfull : full ∉ args)
    (hcomplements : ∀ t ∈ args, ∀ u ∈ args, s.expr t ≠ .negation u) :
    (s.unionOrdered args).1 ≠ full := by
  have hsub : ∀ t ∈ args.filter (· ≠ empty), t ∈ args := fun t ht => (List.mem_filter.1 ht).1
  unfold unionOrdered
  generalize args.filter (· ≠ empty) = rest at hsub
  have hdecided : (rest.contains full || s.hasComplements rest) = false := by
    rw [contains_of_not_mem (mt (hsub full) hfull), Bool.false_or]
    apply hasComplements_eq_false
    intro t ht u hu
    exact hcomplements t (hsub t ht) u (hsub u hu)
  dsimp only
  rw [hdecided, if_neg Bool.false_ne_true]
  generalize hkept : (if (rest.any fun t => t ≠ epsilon && s.nullable t) then
    rest.filter (· ≠ epsilon) else rest) = kept
  have hkept' : ∀ t ∈ kept, t ∈ args := by
    intro t ht
    rw [← hkept] at ht
    split at ht
    · exact hsub t (List.mem_filter.1 ht).1
    · exact hsub t ht
  apply node_ne .union (by decide) (mt (hkept' full) hfull)
  · intro t ht
    exact hlt t (hkept' t ht)
  · intro s'
    rw [expr_full]
    exact Expr.noConfusion

theorem interOrdered_ne_empty (hlt : ∀ t ∈ args, t < s.size) (hempty : empty ∉ args)
    (hepsilon : epsilon ∉ args) (hcomplements : ∀ t ∈ args, ∀ u ∈ args, s.expr t ≠ .negation u) :
    (s.interOrdered args).1 ≠ empty := by
  have hsub : ∀ t ∈ args.filter (· ≠ full), t ∈ args := fun t ht => (List.mem_filter.1 ht).1
  unfold interOrdered
  generalize args.filter (· ≠ full) = rest at hsub
  have hdecided : (rest.contains empty || s.hasComplements rest) = false := by
    rw [contains_of_not_mem (mt (hsub empty) hempty), Bool.false_or]
    apply hasComplements_eq_false
    intro t ht u hu
    exact hcomplements t (hsub t ht) u (hsub u hu)
  dsimp only
  rw [hdecided, if_neg Bool.false_ne_true, contains_of_not_mem (mt (hsub epsilon) hepsilon),
    if_neg Bool.false_ne_true]
  apply node_ne .inter (by decide) (mt (hsub empty) hempty)
  · intro t ht
    exact hlt t (hsub t ht)
  · intro s'
    rw [expr_empty]
    exact Expr.noConfusion

end Ordered

section Pair

variable (hs : s.Normal) (he : s.expr u = .negation t)

theorem mem_increasing_self (t : TermId) (args : List TermId) : t ∈ increasing (t :: args) :=
  mem_increasing.2 List.mem_cons_self

theorem mem_increasing_of_mem (t : TermId) (h : u ∈ args) : u ∈ increasing (t :: args) :=
  mem_increasing.2 (List.mem_cons_of_mem t h)

include hs he

theorem no_complements_cons (hargs : ∀ v ∈ args, v < t)
    (hcomplements : ∀ x ∈ args, ∀ y ∈ args, s.expr x ≠ .negation y) :
    ∀ x ∈ u :: args, ∀ y ∈ u :: args, s.expr x ≠ .negation y := by
  have htu : t < u := child_lt he (by simp [Expr.children])
  intro x hx y hy hxy
  rcases List.mem_cons.1 hx with rfl | hx
  · cases he.symm.trans hxy
    rcases List.mem_cons.1 hy with rfl | hy
    · exact Nat.lt_irrefl _ htu
    · exact Nat.lt_irrefl t (hargs t hy)
  · rcases List.mem_cons.1 hy with rfl | hy
    -- no operand is the complement of a complement
    · have hnormal := hs x
      rw [hxy] at hnormal
      exact hnormal t he
    · exact hcomplements x hx y hy hxy

theorem union_negation_of_not (hunion : ¬s.IsUnion t) : s.union u t = (full, s) := by
  have ht : t < s.size := lt_size_of_child (lt_size_of_negation he) he (by simp [Expr.children])
  rw [union_of_expr hs ht (by simp [he]) (by simp [he]), unionArgs_of_ne (not_exists.1 hunion)]
  exact unionOrdered_of_complements (mem_increasing_of_mem u (List.mem_singleton_self t))
    (mem_increasing_self u [t]) he

theorem inter_negation_of_not (hinter : ¬s.IsInter t) : s.inter u t = (empty, s) := by
  have ht : t < s.size := lt_size_of_child (lt_size_of_negation he) he (by simp [Expr.children])
  rw [inter_of_expr hs ht (by simp [he]) (by simp [he]), interArgs_of_ne (not_exists.1 hinter)]
  exact interOrdered_of_complements hs (mem_increasing_of_mem u (List.mem_singleton_self t))
    (mem_increasing_self u [t]) he

theorem joined_operands (hsimplified : s.Simplified args) (hargs : ∀ v ∈ args, v < t) :
    (∀ v ∈ increasing (u :: args), v < s.size) ∧
      ∀ x ∈ increasing (u :: args), ∀ y ∈ increasing (u :: args), s.expr x ≠ .negation y := by
  have hu := lt_size_of_negation he
  have htu : t < u := child_lt he (by simp [Expr.children])
  have hcomplements := no_complements_cons hs he hargs hsimplified.no_complements
  constructor
  · intro v hv
    rcases List.mem_cons.1 (mem_increasing.1 hv) with rfl | hv
    · exact hu
    · exact Nat.lt_trans (Nat.lt_trans (hargs v hv) htu) hu
  · intro x hx y hy
    exact hcomplements x (mem_increasing.1 hx) y (mem_increasing.1 hy)

theorem union_negation_ne_full (hunion : s.IsUnion t) : (s.union u t).1 ≠ full := by
  obtain ⟨args, het⟩ := hunion
  have ht : t < s.size := lt_size_of_child (lt_size_of_negation he) he (by simp [Expr.children])
  have hnormal := hs t
  rw [het] at hnormal
  have hargs : s.unionArgs t = args := by rw [unionArgs, het]
  obtain ⟨hlt, hcomplements⟩ := joined_operands hs he hnormal.1 fun v hv => child_lt het hv
  rw [union_of_expr hs ht (by simp [he]) (by simp [he]), hargs]
  apply unionOrdered_ne_full hlt _ hcomplements
  intro hmem
  rcases List.mem_cons.1 (mem_increasing.1 hmem) with hfull | hmem
  · rw [← hfull, expr_full] at he
    cases he
    rw [expr_empty] at het
    contradiction
  · exact hnormal.1.full_not_mem hmem

theorem inter_negation_ne_empty (hinter : s.IsInter t) : (s.inter u t).1 ≠ empty := by
  obtain ⟨args, het⟩ := hinter
  have ht : t < s.size := lt_size_of_child (lt_size_of_negation he) he (by simp [Expr.children])
  have hnormal := hs t
  rw [het] at hnormal
  have hargs : s.interArgs t = args := by rw [interArgs, het]
  obtain ⟨hlt, hcomplements⟩ := joined_operands hs he hnormal.1 fun v hv => child_lt het hv
  have hempty : u ≠ empty := ne_of_negation he (by simp [expr_empty])
  have hepsilon : u ≠ epsilon := ne_of_negation he (by simp [expr_epsilon])
  rw [inter_of_expr hs ht (by simp [he]) (by simp [he]), hargs]
  apply interOrdered_ne_empty hlt _ _ hcomplements
  · rw [mem_increasing, List.mem_cons, not_or]
    exact ⟨hempty.symm, hnormal.1.empty_not_mem⟩
  · rw [mem_increasing, List.mem_cons, not_or]
    exact ⟨hepsilon.symm, fun hmem => hnormal.2.2 _ hmem s.expr_epsilon⟩

end Pair

theorem expr_of_negation (ht : t < s.size) {r : TermId × Store}
    (hr : s.negation t = r) :
    r.2.expr r.1 = .negation t ∨ r.2.expr t = .negation r.1 := by
  subst hr
  cases he : s.expr t with
  | negation u =>
    right
    rw [negation, he]
    exact he
  | _ =>
    left
    rw [negation, he]
    exact expr_make (by simpa [Expr.children] using ht)

end Store

namespace Workspace

variable {w v : Workspace} {x y d : TermId}
  {op : Store → TermId → TermId → TermId × Store}

structure Collapses (v : Workspace) (op : Store → TermId → TermId → TermId × Store)
    (x y d : TermId) : Prop where
  left : v.build (op · x y) = (d, v)
  right : v.build (op · y x) = (d, v)

structure Misses (v : Workspace) (op : Store → TermId → TermId → TermId × Store)
    (x y d : TermId) : Prop where
  ne : (v.build (op · x y)).1 ≠ d
  comm : v.build (op · y x) = v.build (op · x y)

structure Complements (v : Workspace) (op : Store → TermId → TermId → TermId × Store)
    (kind : TermId → Prop) (x y d : TermId) : Prop where
  collapses : ¬(kind x ∨ kind y) → v.Collapses op x y d
  misses : kind x ∨ kind y → v.Misses op x y d

theorem Complements.symm {kind : TermId → Prop} (h : v.Complements op kind x y d) :
    v.Complements op kind y x d where
  collapses hkind := by
    rw [or_comm] at hkind
    exact ⟨(h.collapses hkind).right, (h.collapses hkind).left⟩
  misses hkind := by
    have hmisses := h.misses hkind.symm
    exact ⟨hmisses.comm ▸ hmisses.ne, hmisses.comm.symm⟩

theorem complements_of_comm {kind : TermId → Prop} (hcomm : ∀ s t u, op s t u = op s u t)
    (hy : ¬kind y) (hcollapse : ¬kind x → op v.store y x = (d, v.store))
    (hne : kind x → (op v.store y x).1 ≠ d) : v.Complements op kind x y d where
  collapses h := by
    have hleft := hcollapse (not_or.1 h).1
    exact ⟨build_of_store ((hcomm ..).trans hleft), build_of_store hleft⟩
  misses h := by
    have hswap : v.build (op · y x) = v.build (op · x y) := by rw [build_eq, build_eq, hcomm]
    refine ⟨?_, hswap⟩
    rw [← hswap]
    exact hne (h.resolve_right hy)

theorem complements_union (hv : v.store.Normal) (he : v.store.expr y = .negation x) :
    v.Complements Store.union v.store.IsUnion x y Store.full :=
  complements_of_comm Store.union_comm (by simp [Store.IsUnion, he])
    (Store.union_negation_of_not hv he) (Store.union_negation_ne_full hv he)

theorem complements_inter (hv : v.store.Normal) (he : v.store.expr y = .negation x) :
    v.Complements Store.inter v.store.IsInter x y Store.empty :=
  complements_of_comm Store.inter_comm (by simp [Store.IsInter, he])
    (Store.inter_negation_of_not hv he) (Store.inter_negation_ne_empty hv he)

/--
The union of a term and its complement is all words exactly if neither of them is a union, and their
intersection is the empty language exactly if neither of them is an intersection. The operands of
such a term are compared with the other one instead of the term itself, so that the complement goes
unnoticed.
-/
theorem Reachable.complement_laws (hw : w.Reachable) (hx : x < w.numTerms)
    (hy : w.build (Store.negation · x) = (y, v)) :
    v.Complements Store.union v.store.IsUnion x y Store.full ∧
      v.Complements Store.inter v.store.IsInter x y Store.empty := by
  have hnormal := (invariant_normal.holds hw).store
  have hr := store_of_build hy
  have hv : v.store.Normal := by
    have hkeeps := Store.keeps_negation hnormal hx
    rw [hr] at hkeeps
    exact hkeeps.normal
  obtain he | he := Store.expr_of_negation hx hr
  · exact ⟨complements_union hv he, complements_inter hv he⟩
  · exact ⟨(complements_union hv he).symm, (complements_inter hv he).symm⟩

def optionalSymbol : Workspace :=
  ((initial 5).perform (.build (.symbol 'a'))).perform (.build (.union Store.epsilon 3))

theorem reachable_optionalSymbol : optionalSymbol.Reachable :=
  (reachable_symbol 5 'a').perform (.build (.union Store.epsilon 3)) (by decide +kernel)

theorem complement_laws_optionalSymbol :
    let r := optionalSymbol.build (Store.negation · 4)
    optionalSymbol.Reachable ∧ 4 < optionalSymbol.numTerms ∧ r.1 = 5 ∧
      r.2.Collapses Store.inter 4 5 Store.empty ∧ r.2.Misses Store.union 4 5 Store.full := by
  intro r
  have hx : 4 < optionalSymbol.numTerms := by decide +kernel
  have hy : r.1 = 5 := by decide +kernel
  have hexpr : r.2.store.expr 4 = .union [1, 3] := by decide +kernel
  have hexpr' : r.2.store.expr 5 = .negation 4 := by decide +kernel
  have hkind : ¬(r.2.store.IsInter 4 ∨ r.2.store.IsInter 5) := by
    simp [Store.IsInter, hexpr, hexpr']
  obtain ⟨hunion, hinter⟩ := reachable_optionalSymbol.complement_laws hx (Prod.ext hy rfl)
  exact ⟨reachable_optionalSymbol, hx, hy, hinter.collapses hkind, hunion.misses (.inl ⟨_, hexpr⟩)⟩

theorem not_complement_laws_optionalSymbol :
    ¬∀ w : Workspace, w.Reachable → ∀ x < w.numTerms, ∀ y v,
      w.build (Store.negation · x) = (y, v) → (v.build (Store.union · x y)).1 = Store.full := by
  intro h
  have hx : 4 < optionalSymbol.numTerms := by decide +kernel
  have hy : (optionalSymbol.build (Store.negation · 4)).1 = 5 := by decide +kernel
  have hunion : ((optionalSymbol.build (Store.negation · 4)).2.build (Store.union · 4 5)).1 = 6 := by
    decide +kernel
  have hfull := h _ reachable_optionalSymbol 4 hx 5 _ (Prod.ext hy rfl)
  rw [hunion] at hfull
  contradiction

end Workspace

end Residual
