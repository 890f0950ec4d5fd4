import Residual.Proofs.NormalForm.Session
import Residual.Proofs.Sharing

/-!
This module contains the operations that build a stored term from its direct sub-terms. They find
the term again, as it is in normal form. The exception is a concatenation that is absorbed: such a
term is stored where concatenations are put in order, but it is never the result of one.
-/

namespace Residual

def Expr.operation : Expr → Operation
  | emptySet => .empty
  | emptyString => .epsilon
  | literal set => .literal set
  | concat left right => .concat left right
  | union args => .unionList args
  | inter args => .interList args
  | negation arg => .negation arg
  | star arg => .star arg
  | repeated arg min max => .repeated arg min max

namespace Store

variable {s : Store} {t u left right : TermId} {args : List TermId}

/-- Whether a term is a concatenation with all words after a part that can be skipped. -/
def IsAbsorbed (s : Store) (t : TermId) : Prop :=
  ∃ left, s.expr t = .concat left full ∧ s.nullable left = true

section Make

theorem make_expr {e : Expr} (ht : t < s.size) (he : s.expr t = e) : s.make e = (t, s) := by
  subst he
  exact make_of_find? (fun _ => lt_size_of_mem_children) (find?_expr ht)

theorem IsProper.ne_empty (h : s.IsProper t) : t ≠ empty := by
  rintro rfl
  exact h.1 s.expr_empty

theorem IsProper.ne_epsilon (h : s.IsProper t) : t ≠ epsilon := by
  rintro rfl
  exact h.2 s.expr_epsilon

theorem literal_of_expr (hs : s.Normal) (ht : t < s.size) {set : SymbolSet}
    (he : s.expr t = .literal set) : s.literal set = (t, s) := by
  have hnormal := hs t
  rw [he] at hnormal
  obtain ⟨c, hc⟩ := hnormal
  have hne : ¬set.isEmpty = true := fun h => SymbolSet.isEmpty_iff.1 h c hc
  rw [literal, if_neg hne]
  exact make_expr ht he

end Make

section Concat

theorem concat_of_expr (hs : s.Normal) (ht : t < s.size) (he : s.expr t = .concat left right) :
    s.concat left right = (if right = full ∧ s.nullable left = true then full else t, s) := by
  have hnormal := hs t
  rw [he] at hnormal
  obtain ⟨⟨hleft, hfactor⟩, hright⟩ := hnormal
  rw [concat, if_neg (not_or.2 ⟨hleft.ne_empty, hright.ne_empty⟩), if_neg hleft.ne_epsilon,
    if_neg hright.ne_epsilon]
  split
  · rfl
  · rw [factors_of_ne hfactor]
    exact make_expr ht he

end Concat

section Boolean

theorem literalSet?_eq_some_iff {set : SymbolSet} :
    s.literalSet? t = some set ↔ s.expr t = .literal set := by
  unfold literalSet?
  split
  next he => rw [he, Option.some.injEq, Expr.literal.injEq]
  next hne => exact iff_of_false nofun (hne set)

theorem filterMap_literalSet? (hincreasing : args.Pairwise (· < ·))
    (hunique : ∀ t ∈ args, ∀ u ∈ args, s.IsLiteral t → s.IsLiteral u → t = u) :
    args.filterMap s.literalSet? = [] ∨
      ∃ t ∈ args, ∃ set, s.expr t = .literal set ∧ args.filterMap s.literalSet? = [set] := by
  induction args with
  | nil => exact .inl rfl
  | cons t args ih =>
    obtain ⟨hlt, hincreasing⟩ := List.pairwise_cons.1 hincreasing
    cases hset : s.literalSet? t with
    | none =>
      rw [List.filterMap_cons_none hset]
      have hrest := ih hincreasing fun u hu v hv =>
        hunique u (List.mem_cons_of_mem t hu) v (List.mem_cons_of_mem t hv)
      obtain h | ⟨u, hu, set, he, h⟩ := hrest
      · exact .inl h
      · exact .inr ⟨u, List.mem_cons_of_mem t hu, set, he, h⟩
    | some set =>
      have hnone : args.filterMap s.literalSet? = [] := by
        rw [List.filterMap_eq_nil_iff]
        intro u hu
        rw [← Option.isNone_iff_eq_none, ← Bool.not_eq_false, ← isLiteral_iff]
        intro hlit
        have htu : t = u := hunique t List.mem_cons_self u (List.mem_cons_of_mem t hu)
          ⟨set, literalSet?_eq_some_iff.1 hset⟩ hlit
        exact Nat.ne_of_lt (hlt u hu) htu
      rw [List.filterMap_cons_some hset, hnone]
      exact .inr ⟨t, List.mem_cons_self, set, literalSet?_eq_some_iff.1 hset, rfl⟩

theorem orderArgs_of_simplified (hs : s.Normal) (hargs : ∀ t ∈ args, t < s.size)
    (h : s.Simplified args) (f : SymbolSet → SymbolSet → SymbolSet) :
    s.orderArgs f args = (args, s) := by
  have hincreasing : Increasing args := h.increasing.imp Nat.compare_eq_lt.2
  unfold orderArgs
  obtain hnone | ⟨t, ht, set, he, hone⟩ := filterMap_literalSet? h.increasing h.literal_unique
  · have hothers : (args.filter fun t => (s.literalSet? t).isNone) = args := by
      rw [List.filter_eq_self]
      intro u hu
      rw [Option.isNone_iff_eq_none]
      exact List.filterMap_eq_nil_iff.1 hnone u hu
    rw [hnone, hothers]
    exact congrArg (·, s) ((increasing_increasing args).ext hincreasing fun _ => mem_increasing)
  · rw [hone]
    dsimp only
    rw [List.foldl_nil, literal_of_expr hs (hargs t ht) he]
    apply congrArg (·, s)
    apply (increasing_increasing _).ext hincreasing
    intro u
    rw [mem_increasing, List.mem_cons, List.mem_filter]
    constructor
    · rintro (rfl | hu)
      · exact ht
      · exact hu.1
    · intro hu
      by_cases hlit : s.IsLiteral u
      · exact .inl (h.literal_unique u hu t ht hlit ⟨set, he⟩)
      · rw [isLiteral_iff, Bool.not_eq_false] at hlit
        exact .inr ⟨hu, hlit⟩

theorem unionArgs_of_ne (h : ∀ us, s.expr t ≠ .union us) : s.unionArgs t = [t] := by
  unfold unionArgs
  split
  next us he => exact absurd he (h us)
  · rfl

theorem interArgs_of_ne (h : ∀ us, s.expr t ≠ .inter us) : s.interArgs t = [t] := by
  unfold interArgs
  split
  next us he => exact absurd he (h us)
  · rfl

theorem flatMap_of_singleton {f : TermId → List TermId} (h : ∀ t ∈ args, f t = [t]) :
    args.flatMap f = args := by
  rw [List.flatMap_congr h, List.flatMap_singleton']

theorem filter_ne_of_not_mem (h : t ∉ args) : args.filter (· ≠ t) = args := by
  rw [List.filter_eq_self]
  intro u hu
  rw [decide_eq_true_eq]
  rintro rfl
  exact h hu

theorem contains_of_not_mem (h : t ∉ args) : args.contains t = false := by
  rw [Bool.eq_false_iff, Ne, List.contains_iff_mem]
  exact h

section Simplified

variable (h : s.Simplified args)

include h

theorem Simplified.empty_not_mem : empty ∉ args := fun hmem => h.ne_emptySet _ hmem s.expr_empty

theorem Simplified.full_not_mem : full ∉ args := fun hmem => h.ne_full _ hmem s.expr_full

theorem Simplified.hasComplements_eq : s.hasComplements args = false := by
  rw [Bool.eq_false_iff]
  intro hcomplements
  obtain ⟨t, ht, hmem⟩ := List.any_eq_true.1 hcomplements
  split at hmem
  next u he => exact h.no_complements t ht u (List.contains_iff_mem.1 hmem) he
  · contradiction

theorem Simplified.eq_cons_cons : ∃ t u ts, args = t :: u :: ts :=
  match args, h.two_le_length with
  | t :: u :: ts, _ => ⟨t, u, ts, rfl⟩

end Simplified

theorem unionList_of_expr (hs : s.Normal) (ht : t < s.size) (he : s.expr t = .union args) :
    s.unionList args = (t, s) := by
  have hnormal := hs t
  rw [he] at hnormal
  obtain ⟨hsimplified, hkind, hepsilon⟩ := hnormal
  have hargs : ∀ u ∈ args, u < s.size := fun u => lt_size_of_child ht he
  have hflat : args.flatMap s.unionArgs = args := by
    apply flatMap_of_singleton
    intro u hu
    exact unionArgs_of_ne (hkind u hu)
  -- if another operand has the empty word, `epsilon` is not among the operands
  have hkept : (if (args.any fun u => u ≠ epsilon && s.nullable u) then
      args.filter (· ≠ epsilon) else args) = args := by
    split
    next hredundant =>
      apply filter_ne_of_not_mem
      intro hmem
      obtain ⟨u, hu, hskip⟩ := List.any_eq_true.1 hredundant
      rw [Bool.and_eq_true, decide_eq_true_eq] at hskip
      rw [hepsilon _ hmem s.expr_epsilon u hu hskip.1] at hskip
      exact Bool.false_ne_true hskip.2
    · rfl
  rw [unionList, hflat, unionOf_eq, orderArgs_of_simplified hs hargs hsimplified, unionOrdered,
    filter_ne_of_not_mem hsimplified.empty_not_mem, contains_of_not_mem hsimplified.full_not_mem,
    hsimplified.hasComplements_eq]
  dsimp only
  rw [hkept, Bool.or_self, if_neg Bool.false_ne_true]
  obtain ⟨u, v, us, rfl⟩ := hsimplified.eq_cons_cons
  exact make_expr ht he

theorem interList_of_expr (hs : s.Normal) (ht : t < s.size) (he : s.expr t = .inter args) :
    s.interList args = (t, s) := by
  have hnormal := hs t
  rw [he] at hnormal
  obtain ⟨hsimplified, hkind, hepsilon⟩ := hnormal
  have hargs : ∀ u ∈ args, u < s.size := fun u => lt_size_of_child ht he
  have hflat : args.flatMap s.interArgs = args := by
    apply flatMap_of_singleton
    intro u hu
    exact interArgs_of_ne (hkind u hu)
  have hproper : epsilon ∉ args := fun hmem => hepsilon _ hmem s.expr_epsilon
  rw [interList, hflat, interOf_eq, orderArgs_of_simplified hs hargs hsimplified, interOrdered,
    filter_ne_of_not_mem hsimplified.full_not_mem, contains_of_not_mem hsimplified.empty_not_mem,
    contains_of_not_mem hproper, hsimplified.hasComplements_eq]
  dsimp only
  rw [Bool.or_self, if_neg Bool.false_ne_true, if_neg Bool.false_ne_true]
  obtain ⟨u, v, us, rfl⟩ := hsimplified.eq_cons_cons
  exact make_expr ht he

theorem negation_of_expr (hs : s.Normal) (ht : t < s.size) (he : s.expr t = .negation u) :
    s.negation u = (t, s) := by
  have hnormal := hs t
  rw [he] at hnormal
  unfold negation
  split
  next v hv => exact absurd hv (hnormal v)
  · exact make_expr ht he

end Boolean

section Repetition

theorem star_of_expr (hs : s.Normal) (ht : t < s.size) (he : s.expr t = .star u) :
    s.star u = (t, s) := by
  have hnormal := hs t
  rw [he] at hnormal
  obtain ⟨hproper, hstar⟩ := hnormal
  unfold star
  split
  next hempty => exact absurd hempty hproper.1
  next hepsilon => exact absurd hepsilon hproper.2
  next v hv => exact absurd hv (hstar v)
  · exact make_expr ht he

theorem repeated_of_expr (hs : s.Normal) (ht : t < s.size) {min max : Nat}
    (he : s.expr t = .repeated u min max) : s.repeated u min max = (.ok t, s) := by
  have hnormal := hs t
  rw [he] at hnormal
  obtain ⟨⟨hproper, hstar⟩, hle, hpos, hne, hnullable⟩ := hnormal
  have hlow : (if s.nullable u then 0 else min) = min := by
    split
    next h => exact (hnullable h).1.symm
    · rfl
  have hone : ¬(max = 1 ∧ (min = 1 ∨ s.nullable u = true)) := by
    rintro ⟨rfl, rfl | h⟩
    · exact hne rfl
    · have := (hnullable h).2
      omega
  have hbetween : s.between u min max = (t, s) := by
    rw [between, if_neg (Nat.ne_of_gt hpos)]
    dsimp only
    rw [hlow, if_neg hone]
    split
    next v hv => exact absurd hv (hstar v)
    next hempty => exact absurd hempty hproper.1
    next hepsilon => exact absurd hepsilon hproper.2
    · exact make_expr ht he
  rw [repeated, if_neg (Nat.not_lt_of_le hle), hbetween]

end Repetition

theorem apply_operation (hs : s.Normal) (ht : t < s.size) :
    (¬s.IsAbsorbed t → (s.expr t).operation.apply s = (.ok t, s)) ∧
      (s.IsAbsorbed t → (s.expr t).operation.apply s = (.ok full, s)) := by
  constructor
  · intro habsorbed
    -- the basic terms and those of their kind are the same
    cases he : s.expr t with
    | emptySet =>
      rw [← s.expr_empty, expr_inj ht s.empty_lt_size] at he
      rw [he]
      rfl
    | emptyString =>
      rw [← s.expr_epsilon, expr_inj ht s.epsilon_lt_size] at he
      rw [he]
      rfl
    | literal set => rw [Expr.operation, Operation.apply, literal_of_expr hs ht he]
    | concat left right =>
      have hright : ¬(right = full ∧ s.nullable left = true) := by
        rintro ⟨rfl, hleft⟩
        exact habsorbed ⟨left, he, hleft⟩
      rw [Expr.operation, Operation.apply, concat_of_expr hs ht he, if_neg hright]
    | union args => rw [Expr.operation, Operation.apply, unionList_of_expr hs ht he]
    | inter args => rw [Expr.operation, Operation.apply, interList_of_expr hs ht he]
    | negation arg => rw [Expr.operation, Operation.apply, negation_of_expr hs ht he]
    | star arg => rw [Expr.operation, Operation.apply, star_of_expr hs ht he]
    | repeated arg min max =>
      rw [Expr.operation, Operation.apply, repeated_of_expr hs ht he]
  · rintro ⟨left, he, hleft⟩
    rw [he, Expr.operation, Operation.apply, concat_of_expr hs ht he, if_pos ⟨rfl, hleft⟩]

end Store

namespace Workspace

variable {w : Workspace}

/--
A stored term that is built again from its direct sub-terms is found, unless it is absorbed: then all
words are found in its place. Either way nothing is added to the workspace.
-/
theorem Reachable.rebuilds (hw : w.Reachable) : ∀ t < w.numTerms,
    (¬w.store.IsAbsorbed t → w.build (w.store.expr t).operation.apply = (.ok t, w)) ∧
      (w.store.IsAbsorbed t →
        w.build (w.store.expr t).operation.apply = (.ok Store.full, w)) := by
  intro t ht
  obtain ⟨hfound, habsorbed⟩ := Store.apply_operation (invariant_normal.holds hw).store ht
  constructor
  · intro h
    rw [build_eq, hfound h]
  · intro h
    rw [build_eq, habsorbed h]

def absorbing : Workspace :=
  (((((initial 5).perform (.build (.symbol 'b'))).perform (.build (.symbol 'a'))).perform
    (.build (.star 4))).perform (.build (.concat 3 5))).perform (.build (.concat 6 Store.full))

theorem reachable_absorbing : absorbing.Reachable := by
  have hstar := ((reachable_symbol 5 'b').perform (.build (.symbol 'a')) (by decide +kernel)).perform
    (.build (.star 4)) (by decide +kernel)
  have hconcat := hstar.perform (.build (.concat 3 5)) (by decide +kernel)
  exact hconcat.perform (.build (.concat 6 Store.full)) (by decide +kernel)

theorem isAbsorbed_absorbing : absorbing.store.IsAbsorbed 7 :=
  ⟨5, by decide +kernel, by decide +kernel⟩

theorem rebuilds_absorbing :
    absorbing.Reachable ∧ 5 < absorbing.numTerms ∧ 7 < absorbing.numTerms ∧
      absorbing.build (absorbing.store.expr 5).operation.apply = (.ok 5, absorbing) ∧
      absorbing.build (absorbing.store.expr 7).operation.apply = (.ok Store.full, absorbing) := by
  have hstar : 5 < absorbing.numTerms := by decide +kernel
  have hconcat : 7 < absorbing.numTerms := by decide +kernel
  have hexpr : absorbing.store.expr 5 = .star 4 := by decide +kernel
  have hfound : ¬absorbing.store.IsAbsorbed 5 := by
    rintro ⟨left, he, _⟩
    rw [hexpr] at he
    contradiction
  refine ⟨reachable_absorbing, hstar, hconcat, ?_, ?_⟩
  · exact (reachable_absorbing.rebuilds 5 hstar).1 hfound
  · exact (reachable_absorbing.rebuilds 7 hconcat).2 isAbsorbed_absorbing

theorem not_rebuilds_absorbing :
    ¬∀ w : Workspace, w.Reachable → ∀ t < w.numTerms,
      w.build (w.store.expr t).operation.apply = (.ok t, w) := by
  intro h
  have hconcat : 7 < absorbing.numTerms := by decide +kernel
  have hnormal := (invariant_normal.holds reachable_absorbing).store
  have hfull := (Store.apply_operation hnormal hconcat).2 isAbsorbed_absorbing
  have hfound := h absorbing reachable_absorbing 7 hconcat
  rw [build_eq, hfull] at hfound
  cases congrArg Prod.fst hfound

end Workspace

end Residual
