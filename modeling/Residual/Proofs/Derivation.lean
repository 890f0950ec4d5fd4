import Residual.Derivation
import Residual.Proofs.Dependencies
import Residual.Proofs.NormalForm.Session

/-!
This module contains the main result on derivations: they come to an end without a fault, with the
derivative that the recursion finds. A term may be on the stack several times; the frames above an
expanded one make known what it needs, and what is known meanwhile is only dropped.
-/

namespace Residual

open Std

namespace Store

variable {s : Store} {c : Char} {t : TermId} {sub : TermId → TermId}
  {look : TermId → Except Fault TermId}

theorem mapM_look {ts : List TermId} (h : ∀ t ∈ ts, look t = .ok (sub t)) :
    ts.mapM look = .ok (ts.map sub) := by
  induction ts with
  | nil => rfl
  | cons t ts ih =>
    obtain ⟨ht, hts⟩ := List.forall_mem_cons.1 h
    rw [List.mapM_cons, ht, ih hts]
    rfl

theorem deriveChecked_eq_ok (hs : s.Normal) (hlt : ∀ u ∈ s.dependencies t, sub u < s.size)
    (hlook : ∀ u ∈ s.dependencies t, look u = .ok (sub u)) :
    s.deriveChecked c t look = .ok (s.derive c t sub) := by
  have hnormal := hs t
  have hchild : ∀ u ∈ (s.expr t).children, u < s.size := fun u => lt_size_of_mem_children
  unfold dependencies at hlt hlook
  unfold deriveChecked derive
  cases he : s.expr t with
  | emptySet | emptyString | literal set => rfl
  | concat left right =>
    rw [he] at hlt hlook hchild
    dsimp only at hlt hlook ⊢
    have hleft : left ∈ if s.nullable left then [left, right] else [left] := by
      split <;> simp
    -- whether the left part can be skipped is looked up after the concatenation has been built
    have hkeeps := keeps_concat hs (hlt left hleft) (hchild right (by simp [Expr.children]))
    have hnullable := hkeeps.grows.ext.nullable_eq (hchild left (by simp [Expr.children]))
    rw [hlook left hleft]
    simp only [bind, Except.bind, hnullable]
    by_cases hskip : s.nullable left = true
    · rw [if_pos hskip, if_pos hskip, hlook right (by simp [hskip])]
      rfl
    · rw [if_neg hskip, if_neg hskip]
      rfl
  | union args =>
    rw [he] at hlook
    replace hlook : ∀ u ∈ args, look u = .ok (sub u) := hlook
    dsimp only
    rw [mapM_look hlook]
    rfl
  | inter args =>
    rw [he] at hlook
    replace hlook : ∀ u ∈ args, look u = .ok (sub u) := hlook
    dsimp only
    rw [mapM_look hlook]
    rfl
  | negation arg | star arg =>
    rw [he] at hlook
    dsimp only at hlook ⊢
    rw [hlook arg (List.mem_singleton_self arg)]
    rfl
  | repeated arg min max =>
    rw [he] at hlook hnormal
    -- a repetition in normal form admits at least one word more than the empty one
    obtain ⟨_, hle, hpos, _⟩ := hnormal
    dsimp only at hlook ⊢
    have hlowered : lowered max = .ok (max - 1) := if_neg (Nat.ne_of_gt hpos)
    have hbetween : s.betweenChecked arg (min - 1) (max - 1) =
        .ok (s.between arg (min - 1) (max - 1)) := if_pos (Nat.sub_le_sub_right hle 1)
    rw [hlook arg (List.mem_singleton_self arg), hlowered]
    simp only [bind, Except.bind, hbetween]
    rfl

end Store

namespace Workspace

variable {w : Workspace} {c : Char} {t : TermId}

section Drain

structure Ready (w : Workspace) : Prop where
  sound : w.Sound
  normal : w.Normal
  closed : w.Closed

theorem Reachable.ready (hw : w.Reachable) : w.Ready :=
  ⟨hw.sound, invariant_normal.holds hw, hw.closed⟩

theorem Ready.learn (hw : w.Ready) (ht : t < w.numTerms) (c : Char) : (w.learn c t).Ready :=
  ⟨(learns_learn hw.sound ht).1.sound, hw.normal.learn c t, hw.closed.learn hw.sound ht c⟩

theorem lookup_of_known {d : TermId} (h : w.derivatives[(⟨t, c⟩ : DerivativeKey)]? = some d) :
    w.lookup c t = .ok d := by
  rw [lookup, h]

theorem combineChecked_eq_ok (hw : w.Ready)
    (hdeps : ∀ u ∈ w.store.dependencies t, ∃ d, w.derivatives[(⟨u, c⟩ : DerivativeKey)]? = some d) :
    w.combineChecked c t = .ok (w.combine c t) := by
  have hderive : w.store.deriveChecked c t (w.lookup c) =
      .ok (w.store.derive c t (w.known c)) := by
    apply Store.deriveChecked_eq_ok hw.normal.store fun u _ => hw.normal.known_lt c u
    intro u hu
    obtain ⟨d, hd⟩ := hdeps u hu
    rw [lookup_of_known hd, known, TreeMap.getD_eq_getD_getElem?, hd]
    rfl
  unfold combineChecked
  rw [hderive]
  rfl

theorem drain_cons_of_ok {w' : Workspace} {f : Frame} {rest stack : List Frame}
    (h : w.turn c f rest = .ok (w', stack)) : w.drain c (f :: rest) = w'.drain c stack := by
  rw [drain]
  split
  next h' =>
    rw [h] at h'
    contradiction
  next h' =>
    rw [h] at h'
    cases h'
    rfl

theorem learn_of_contains (h : w.derivatives.contains ⟨t, c⟩ = true) : w.learn c t = w := by
  rw [learn_eq, if_pos h]

theorem Ready.foldr_learn (hw : w.Ready) {ts : List TermId} (hts : ∀ t ∈ ts, t < w.numTerms)
    (c : Char) : (ts.foldr (fun t w => w.learn c t) w).Ready := by
  induction ts with
  | nil => exact hw
  | cons t ts ih =>
    obtain ⟨ht, hts⟩ := List.forall_mem_cons.1 hts
    have hlearns := (learns_foldr_learn hw.sound (c := c) hts).1
    exact (ih hts).learn (hlearns.ext.lt_size ht) c

theorem foldr_learn_filter (hw : w.Sound) {ts : List TermId} (hts : ∀ t ∈ ts, t < w.numTerms) :
    (ts.filter fun t => !w.derivatives.contains ⟨t, c⟩).foldr (fun t w => w.learn c t) w =
      ts.foldr (fun t w => w.learn c t) w := by
  induction ts with
  | nil => rfl
  | cons t ts ih =>
    obtain ⟨_, hts⟩ := List.forall_mem_cons.1 hts
    cases hknown : w.derivatives.contains ⟨t, c⟩ with
    | false => rw [List.filter_cons_of_pos (by simp [hknown]), List.foldr_cons, ih hts, List.foldr_cons]
    | true =>
      have hlearns := (learns_foldr_learn hw (c := c) hts).1
      obtain ⟨d, hd⟩ := Option.isSome_iff_exists.1 (TreeMap.mem_iff_isSome_getElem?.1 hknown)
      rw [List.filter_cons_of_neg (by simp [hknown]), ih hts, List.foldr_cons, learn_of_contains]
      exact TreeMap.mem_iff_isSome_getElem?.2 (hlearns.known _ d hd ▸ rfl)

theorem drain_pending (hw : w.Ready) {ts : List TermId} (hts : ∀ t ∈ ts, t < w.numTerms)
    (hdrain : ∀ t ∈ ts, ∀ (w : Workspace) (rest : List Frame), w.Ready → t < w.numTerms →
      w.drain c (⟨t, false⟩ :: rest) = (w.learn c t).drain c rest) (rest : List Frame) :
    w.drain c (ts.map (⟨·, false⟩) ++ rest) =
      (ts.foldl (fun w t => w.learn c t) w).drain c rest := by
  induction ts generalizing w with
  | nil => rfl
  | cons t ts ih =>
    obtain ⟨ht, hts⟩ := List.forall_mem_cons.1 hts
    obtain ⟨ht', hdrain⟩ := List.forall_mem_cons.1 hdrain
    have hext := (learns_learn hw.sound (c := c) ht).1.ext
    rw [List.map_cons, List.cons_append, ht' w _ hw ht, List.foldl_cons]
    exact ih (hw.learn ht c) (fun u hu => hext.lt_size (hts u hu)) hdrain

theorem drain_cons (hw : w.Ready) (ht : t < w.numTerms) (rest : List Frame) :
    w.drain c (⟨t, false⟩ :: rest) = (w.learn c t).drain c rest := by
  induction t using Nat.strongRecOn generalizing w rest with
  | ind t ih =>
    by_cases hknown : w.derivatives.contains ⟨t, c⟩ = true
    · rw [learn_of_contains hknown]
      exact drain_cons_of_ok (if_pos hknown)
    have hturn : w.turn c ⟨t, false⟩ rest =
        .ok (w, w.request c (w.store.dependencies t) (⟨t, true⟩ :: rest)) := by
      rw [turn, if_neg hknown]
      rfl
    have hdeps : ∀ u ∈ w.store.dependencies t, u < t := fun _ => Store.lt_of_mem_dependencies
    have hlt : ∀ u ∈ w.store.dependencies t, u < w.numTerms :=
      fun u hu => Nat.lt_trans (hdeps u hu) ht
    have hmem : ∀ u ∈ ((w.store.dependencies t).filter fun u =>
        !w.derivatives.contains ⟨u, c⟩).reverse, u ∈ w.store.dependencies t :=
      fun u hu => List.mem_of_mem_filter (List.mem_reverse.1 hu)
    rw [drain_cons_of_ok hturn, request_eq, drain_pending hw (fun u hu => hlt u (hmem u hu))
      fun u hu w rest hw hu' => ih u (hdeps u (hmem u hu)) hw hu' rest]
    rw [List.foldl_reverse, foldr_learn_filter hw.sound hlt, learn_eq, if_neg hknown]
    obtain ⟨hlearns, hdeps'⟩ := learns_foldr_learn hw.sound (c := c) hlt
    have hready := hw.foldr_learn hlt c
    have hadds := adds_foldr_learn hw.sound hw.closed hlt (c := c) ⟨t, c⟩
    generalize (w.store.dependencies t).foldr (fun u w => w.learn c u) w = w'
      at hlearns hdeps' hready hadds
    -- smaller terms do not need `t`, so it is its own expanded frame that makes it known
    have hunknown : ¬w'.derivatives.contains ⟨t, c⟩ = true := by
      intro h
      rcases hadds.1 h with h | ⟨_, u, hu, hneeds⟩
      · exact hknown h
      · exact Nat.not_lt_of_le hneeds.le (hdeps u hu)
    have hcombine := combineChecked_eq_ok hready (c := c) (t := t)
      (hlearns.ext.dependencies_eq ht ▸ hdeps')
    apply drain_cons_of_ok
    rw [turn, if_neg hunknown, if_pos rfl, hcombine]
    rfl

end Drain

theorem wellFounded_turns (c : Char) : WellFounded fun y x => Turns c x y := by
  -- a frame makes room for frames of lower rank, however many they are
  have hranks := InvImage.wf (fun x : Workspace × List Frame => Frame.ranks x.2)
    Multiset.wellFounded_isDershowitzMannaLT
  apply Subrelation.wf _ hranks
  rintro ⟨w', stack⟩ ⟨w, _⟩ ⟨f, rest, rfl, h⟩
  exact ranks_turn h

theorem derivativeChecked_eq_ok (hw : w.Ready) (ht : t < w.numTerms) (c : Char) :
    w.derivativeChecked t c = .ok (w.derivative t c) := by
  have hknown := known_derivative hw.sound ht c
  unfold derivativeChecked
  split
  next d hd => rw [derivative_of_known hd]
  · rw [drain_cons hw ht, drain]
    rw [derivative_eq_known] at hknown ⊢
    simp only [bind, Except.bind, lookup_of_known hknown]
    rfl

/--
Derivations come to an end without a fault: the derivatives that are looked up are known, and the
bounds of repetitions can be lowered and stay in order. What becomes known is just what is needed, so
that a workspace always knows what the derivatives that it knows need.
-/
theorem Reachable.derivation_exact (hw : w.Reachable) :
    (∀ c, WellFounded fun y x => Turns c x y) ∧
    (∀ t < w.numTerms, ∀ c,
      w.derivativeChecked t c = .ok (w.derivative t c) ∧
      ∀ k, k ∈ (w.derivative t c).2.derivatives ↔
        k ∈ w.derivatives ∨ (k.symbol = c ∧ w.store.Needs t k.term)) ∧
    w.Closed := by
  have hready := hw.ready
  refine ⟨wellFounded_turns, ?_, hready.closed⟩
  intro t ht c
  refine ⟨derivativeChecked_eq_ok hready ht c, fun k => ?_⟩
  have hadds := adds_learn hready.sound hready.closed ht (c := c) k
  simp only [List.mem_singleton, exists_eq_left] at hadds
  exact hadds

theorem derivation_exact_star :
    let w := ((initial 5).perform (.build (.symbol 'a'))).perform (.build (.star 3))
    w.Reachable ∧ w.derivativeChecked 4 'a' = .ok (4, (w.derivative 4 'a').2) ∧
      ⟨3, 'a'⟩ ∈ (w.derivative 4 'a').2.derivatives := by
  intro w
  have hw : w.Reachable := (reachable_symbol 5 'a').perform (.build (.star 3)) (by decide +kernel)
  have ht : 4 < w.numTerms := by decide +kernel
  have hderivative : (w.derivative 4 'a').1 = 4 := by decide +kernel
  obtain ⟨_, hderivation, _⟩ := hw.derivation_exact
  obtain ⟨hok, hknown⟩ := hderivation 4 ht 'a'
  refine ⟨hw, ?_, (hknown ⟨3, 'a'⟩).2 (.inr ⟨rfl, .single ?_⟩)⟩
  · exact hok.trans (congrArg Except.ok (Prod.ext hderivative rfl))
  · decide +kernel

end Workspace

end Residual
