import Residual.Proofs.Automaton.Product
import Residual.Proofs.Compilation
import Residual.Proofs.Matching
import Residual.Proofs.Subterms

/-!
This module contains the comparison of two workspaces with different histories. Their ids differ, but
terms with the same tree lead to the same automaton: two constructions that start from such terms
meet corresponding residuals in the same order.
-/

namespace Residual

open Std

namespace Workspace

variable {v v' w w' : Workspace} {t u : TermId}

structure SameTree (v w : Workspace) (t u : TermId) : Prop where
  left : t < v.numTerms
  right : u < w.numTerms
  tree_eq : v.store.tree t = w.store.tree u

theorem biUnique_sameTree (hv : v.Sound) (hw : w.Sound) : Relator.BiUnique (SameTree v w) := by
  constructor
  · intro t t' u h h'
    exact hv.wellFormed.tree_inj h.left h'.left (h.tree_eq.trans h'.tree_eq.symm)
  · intro t u u' h h'
    exact hw.wellFormed.tree_inj h.right h'.right (h.tree_eq.symm.trans h'.tree_eq)

theorem SameTree.mono (h : SameTree v w t u) (hv : v.store.Extends v'.store)
    (hw : w.store.Extends w'.store) : SameTree v' w' t u where
  left := hv.lt_size h.left
  right := hw.lt_size h.right
  tree_eq := by rw [hv.tree_eq h.left, hw.tree_eq h.right, h.tree_eq]

theorem SameTree.nullable_eq (h : SameTree v w t u) (hv : v.Sound) (hw : w.Sound) :
    v.store.nullable t = w.store.nullable u := by
  rw [Bool.eq_iff_iff, ← hv.wellFormed.nullable_tree h.left, ← hw.wellFormed.nullable_tree h.right,
    h.tree_eq]

theorem SameTree.symbolsOf_eq (h : SameTree v w t u) :
    v.store.symbolsOf t = w.store.symbolsOf u := by
  apply SymbolSet.ext
  intro c
  rw [Store.mem_symbolsOf_iff, Store.mem_symbolsOf_iff, ← Store.mentions_tree,
    ← Store.mentions_tree, h.tree_eq]

theorem SameTree.derivative (h : SameTree v w t u) (hv : v.Sound) (hw : w.Sound) (c : Char) :
    SameTree (v.derivative t c).2 (w.derivative u c).2 (v.derivative t c).1 (w.derivative u c).1 := by
  have hl := derives_derivative hv h.left c
  have hr := derives_derivative hw h.right c
  exact ⟨hl.lt_numTerms, hr.lt_numTerms, by rw [hl.tree_eq, hr.tree_eq, h.tree_eq]⟩

end Workspace

namespace Construction

open Workspace

variable {room : Nat} {x y : Construction room} {t u d e : TermId}

/-- Two constructions that have met the same residuals in the same order, under different ids. -/
structure Twins (x y : Construction room) : Prop where
  left : x.workspace.Sound
  right : y.workspace.Sound
  residuals : x.residuals.Matches (SameTree x.workspace y.workspace) y.residuals
  builder : x.builder.Matches (SameTree x.workspace y.workspace) y.builder

theorem twins_start {v w : Workspace} (hv : v.Sound) (hw : w.Sound) (h : SameTree v w t u)
    (a : Alphabet) (hroom : 0 < room) : Twins (start v t a hroom) (start w u a hroom) := by
  have hkeys : (Numbering.empty.push t rfl).Matches (SameTree v w) (Numbering.empty.push u rfl) := by
    apply Numbering.Matches.push _ h
    exact ⟨rfl, nofun⟩
  exact ⟨hv, hw, ⟨hkeys, rfl⟩, ⟨rfl, hkeys, rfl⟩⟩

theorem Twins.enter (h : x.Twins y) (hd : SameTree x.workspace y.workspace d e) :
    Together (fun x' y' => x'.Twins y' ∧ x'.workspace = x.workspace ∧ y'.workspace = y.workspace)
      (x.enter d) (y.enter e) := by
  have hfind := h.residuals.seen.find?_eq (biUnique_sameTree h.left h.right) hd
  cases hx : x.residuals.seen.find? d with
  | some i =>
    have hy := hfind.symm.trans hx
    rw [enter_of_seen hx, enter_of_seen hy]
    exact ⟨h, rfl, rfl⟩
  | none =>
    have hy := hfind.symm.trans hx
    have hsize : x.residuals.numSeen = y.residuals.numSeen := h.residuals.seen.size_eq
    by_cases hroom : x.residuals.numSeen < room
    · obtain ⟨_, hx'⟩ := enter_of_room hx hroom
      obtain ⟨_, hy'⟩ := enter_of_room hy (hsize ▸ hroom)
      have hseen := h.residuals.seen.push hd hx hy
      rw [hx', hy']
      exact ⟨⟨h.left, h.right, ⟨hseen, h.residuals.cursor_eq⟩, h.builder⟩, rfl, rfl⟩
    · have hx' := enter_of_full hx hroom
      have hy' := enter_of_full hy (hsize ▸ hroom)
      rw [hx', hy']
      exact True.intro

theorem Twins.connect (h : x.Twins y) (ht : SameTree x.workspace y.workspace t u) (k : Nat)
    (hd : SameTree x.workspace y.workspace d e) : (x.connect t k d).Twins (y.connect u k e) where
  left := h.left
  right := h.right
  residuals := h.residuals
  builder := h.builder.connect (biUnique_sameTree h.left h.right) ht k hd

theorem Twins.learn (h : x.Twins y) {v w : Workspace} (hv : x.workspace.Learns v)
    (hw : y.workspace.Learns w) :
    Twins ⟨v, x.residuals, x.builder, x.log, x.numSeen_le⟩
      ⟨w, y.residuals, y.builder, y.log, y.numSeen_le⟩ := by
  have hmono : ∀ t u, SameTree x.workspace y.workspace t u → SameTree v w t u :=
    fun t u htu => htu.mono hv.ext hw.ext
  exact ⟨hv.sound, hw.sound, ⟨h.residuals.seen.mono hmono, h.residuals.cursor_eq⟩,
    h.builder.mono hmono⟩

theorem Twins.follow (h : x.Twins y) (ht : SameTree x.workspace y.workspace t u)
    (k : Nat) (symbols : List Char) : Together Twins (x.follow t k symbols) (y.follow u k symbols) := by
  induction symbols generalizing x y k with
  | nil => exact h
  | cons c symbols ih =>
    have hleft := (derives_derivative h.left ht.left c).learns
    have hright := (derives_derivative h.right ht.right c).learns
    have hd := ht.derivative h.left h.right c
    have henter := (h.learn hleft hright).enter hd
    simp only [Construction.follow]
    generalize Construction.enter _ (x.workspace.derivative t c).1 = r at henter ⊢
    generalize Construction.enter _ (y.workspace.derivative u c).1 = r' at henter ⊢
    cases r with
    | error _ =>
      cases r' with
      | error _ => exact True.intro
      | ok _ => exact henter.elim
    | ok x' =>
      cases r' with
      | error _ => exact henter.elim
      | ok y' =>
        obtain ⟨htwins, hx, hy⟩ := henter
        dsimp only at hx hy
        rw [← hx, ← hy] at hd
        have ht' : SameTree x'.workspace y'.workspace t u := by
          rw [hx, hy]
          exact ht.mono hleft.ext hright.ext
        exact ih (htwins.connect ht' k hd) ht' (k + 1)

theorem Twins.finish (h : x.Twins y) (ht : SameTree x.workspace y.workspace t u)
    {p q : Worklist TermId} (hpq : p.Matches (SameTree x.workspace y.workspace) q)
    (hp : p.numSeen ≤ room) (hq : q.numSeen ≤ room) (symbols : List Char) :
    Together Twins (x.finish t p hp symbols) (y.finish u q hq symbols) := by
  have hnullable := ht.nullable_eq h.left h.right
  simp only [Construction.finish, hnullable]
  have hbuilder : Builder.Matches (SameTree x.workspace y.workspace)
      (if y.workspace.store.nullable u then x.builder.markFinal t else x.builder)
      (if y.workspace.store.nullable u then y.builder.markFinal u else y.builder) := by
    split
    · exact h.builder.markFinal (biUnique_sameTree h.left h.right) ht
    · exact h.builder
  have htwins : Twins ⟨x.workspace, p, _, x.log, hp⟩ ⟨y.workspace, q, _, y.log, hq⟩ :=
    ⟨h.left, h.right, hpq, hbuilder⟩
  exact htwins.follow ht 0 symbols

theorem Twins.run (h : x.Twins y) (symbols : List Char) :
    Together Twins (x.run symbols) (y.run symbols) := by
  apply together_run _ _ h
  · intro x y h hx
    exact h.residuals.pop_none hx
  · intro x y h t q hx
    obtain ⟨u, q', hy, ht, hmatches⟩ := h.residuals.pop hx
    exact ⟨u, q', hy, h.finish ht hmatches _ _ symbols⟩

end Construction

theorem Automaton.agreesWith_attachTerms (a : Automaton) (ts us : Array TermId) :
    (a.attachTerms ts).AgreesWith (a.attachTerms us) where
  alphabet_eq := rfl
  numStates_eq := by rw [numStates_attachTerms, numStates_attachTerms]
  finals_eq := by
    rw [finals, finals, numStates_attachTerms, numStates_attachTerms]
    apply List.filter_congr
    intro s _
    rw [accepting_attachTerms, accepting_attachTerms]
  successors_eq := by
    intro s
    rw [successors_attachTerms, successors_attachTerms]

section Compile

open Workspace

variable {v w : Workspace} {t u : TermId}

inductive Agree : Except Error Automaton → Except Error Automaton → Prop where
  | error (e : Error) : Agree (.error e) (.error e)
  | ok {a b : Automaton} (h : a.AgreesWith b) : Agree (.ok a) (.ok b)

theorem agree_compile (hv : v.Sound) (hw : w.Sound) (h : SameTree v w t u)
    (hlimit : v.maxStates = w.maxStates) (a : Alphabet) :
    Agree (v.compile t a).value.1 (w.compile u a).value.1 := by
  obtain ⟨store, derivatives, limit⟩ := v
  obtain ⟨store', derivatives', _⟩ := w
  subst hlimit
  have hsymbols : store.symbolsOf t = store'.symbolsOf u := h.symbolsOf_eq
  simp only [Workspace.compile, hsymbols]
  cases a.checkCovers (store'.symbolsOf u) with
  | error e => exact .error e
  | ok _ =>
    have hroom : 0 < max 1 limit := by omega
    have hrun := (Construction.twins_start hv hw h a hroom).run a.symbols
    dsimp only
    generalize Construction.run _ a.symbols = r at hrun ⊢
    generalize Construction.run _ a.symbols = r' at hrun ⊢
    match r, r', hrun with
    | .error _, .error _, _ => exact .error _
    | .ok x, .ok y, hrun =>
      have hbuild := hrun.builder.build_eq
      dsimp only
      rw [hbuild]
      cases y.builder.build with
      | error e => exact .error e
      | ok auto => exact .ok (auto.agreesWith_attachTerms _ _)

end Compile

end Residual
