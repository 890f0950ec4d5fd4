import Residual.Proofs.Distance
import Residual.Proofs.Query

/-!
This module contains what the traversal of a term meets: each sub-term once, nearer ones first, and
all symbols of its literals, so that they make an alphabet over which the term can be compiled.
-/

namespace Residual

namespace Store

variable {s : Store} {t u : TermId} {c : Char}

noncomputable def depth (s : Store) (t u : TermId) : Nat :=
  distance (fun t u => u ∈ (s.expr t).children) t u

structure Traverses (s : Store) (t : TermId) (l : List TermId) : Prop where
  mem_iff : ∀ u, u ∈ l ↔ s.IsSubterm t u
  nodup : l.Nodup
  head_eq : l.head? = some t
  ordered : l.Pairwise fun u v => s.depth t u ≤ s.depth t v
  le : ∀ u ∈ l, u ≤ t

theorem IsSubterm.le (h : s.IsSubterm t u) : u ≤ t := by
  induction h with
  | refl => exact Nat.le_refl t
  | tail _ hchild ih => exact (Nat.le_of_lt (child_lt rfl hchild)).trans ih

theorem head_eq_of_ordered {l : List TermId} (hmem : ∀ u, u ∈ l ↔ s.IsSubterm t u)
    (hordered : l.Pairwise fun u v => s.depth t u ≤ s.depth t v) : l.head? = some t := by
  have ht : t ∈ l := (hmem t).2 .refl
  cases l with
  | nil => contradiction
  | cons u l =>
    rcases List.mem_cons.1 ht with rfl | ht
    · rfl
    · have hle := (List.pairwise_cons.1 hordered).1 t ht
      rw [depth, depth, distance_self] at hle
      have hu : s.IsSubterm t u := (hmem u).1 List.mem_cons_self
      rw [eq_of_distance_eq_zero hu (Nat.le_zero.1 hle), List.head?_cons]

theorem traverses_subterms (s : Store) (t : TermId) : s.Traverses t (s.subterms t) := by
  have hordered : (s.subterms t).Pairwise fun u v => s.depth t u ≤ s.depth t v :=
    Region.Graph.pairwise_closure (g := s.subtermGraph t)
  refine ⟨fun _ => mem_subterms_iff, Numbering.nodup_toList _, ?_, hordered, ?_⟩
  · exact head_eq_of_ordered (fun _ => mem_subterms_iff) hordered
  · intro u hu
    exact (mem_subterms_iff.1 hu).le

theorem mem_symbolsOf_iff_of_subterms : c ∈ s.symbolsOf t ↔
    ∃ u ∈ s.subterms t, ∃ set, s.expr u = .literal set ∧ c ∈ set := by
  rw [mem_symbolsOf_iff, Mentions]
  simp only [mem_subterms_iff, exists_and_left]

end Store

namespace Workspace

variable {w : Workspace} {t : TermId}

theorem compileInferred_ne_symbolOutside (hw : w.Sound) (ht : t < w.numTerms) (c : Char) :
    (w.compileInferred t).value.1 ≠ .error (.symbolOutside c) := by
  have hcovers : ∀ c, w.store.Mentions t c → c ∈ w.store.alphabetOf t := by
    intro c hc
    exact Store.mem_symbolsOf_iff.2 hc
  obtain ⟨r, w', hcompile, _, hr⟩ := compile_of_covers hw ht hcovers
  rw [compileInferred, hcompile]
  rcases hr with rfl | ⟨auto, rfl, _⟩
  · simp
  · simp

/--
The sub-terms of a term are listed once each, the term itself first and the others in the order of
their depths below it. Its symbols are those of the literals in the list, an alphabet does not cover
them if and only if one of them is missing, the least of which is reported, and their own alphabet is
never too small for the term.
-/
theorem Reachable.traversal_exact (hw : w.Reachable) (ht : t < w.numTerms) :
    w.store.Traverses t (w.store.subterms t) ∧
    (∀ c, c ∈ w.store.symbolsOf t ↔
      ∃ u ∈ w.store.subterms t, ∃ set, w.store.expr u = .literal set ∧ c ∈ set) ∧
    (∀ a : Alphabet,
      (a.checkCovers (w.store.symbolsOf t) = .ok () ↔ ∀ c ∈ w.store.symbolsOf t, c ∈ a) ∧
      ∀ c, a.checkCovers (w.store.symbolsOf t) = .error (.symbolOutside c) ↔
        IsLeast {c | c ∈ w.store.symbolsOf t ∧ c ∉ a} c) ∧
    ∀ c, (w.compileInferred t).value.1 ≠ .error (.symbolOutside c) := by
  refine ⟨w.store.traverses_subterms t, fun _ => Store.mem_symbolsOf_iff_of_subterms, ?_, ?_⟩
  · intro a
    exact ⟨checkCovers_eq_ok_iff, fun _ => checkCovers_eq_error_iff⟩
  · exact compileInferred_ne_symbolOutside hw.sound ht

def sharing : Workspace :=
  ((((initial 10).perform (.build (.symbol 'a'))).perform (.build (.symbol 'b'))).perform
    (.build (.concat 3 4))).perform (.build (.concat 3 5))

theorem reachable_sharing : sharing.Reachable := by
  have hsymbols := (reachable_symbol 10 'a').perform (.build (.symbol 'b')) (by decide +kernel)
  have hconcat := hsymbols.perform (.build (.concat 3 4)) (by decide +kernel)
  exact hconcat.perform (.build (.concat 3 5)) (by decide +kernel)

theorem traversal_exact_sharing :
    sharing.Reachable ∧ 6 < sharing.numTerms ∧ sharing.store.Traverses 6 [6, 3, 5, 4] ∧
      IsLeast {c | c ∈ sharing.store.symbolsOf 6 ∧ c ∉ Alphabet.ofList ['a']} 'b' ∧
      ∀ c, (sharing.compileInferred 6).value.1 ≠ .error (.symbolOutside c) := by
  have ht : 6 < sharing.numTerms := by decide +kernel
  have hsubterms : sharing.store.subterms 6 = [6, 3, 5, 4] := by decide +kernel
  have hcovers : (Alphabet.ofList ['a']).checkCovers (sharing.store.symbolsOf 6) =
      .error (.symbolOutside 'b') := by decide +kernel
  obtain ⟨htraverses, _, hmissing, hinferred⟩ := reachable_sharing.traversal_exact ht
  rw [hsubterms] at htraverses
  exact ⟨reachable_sharing, ht, htraverses, ((hmissing _).2 _).1 hcovers, hinferred⟩

end Workspace

end Residual
