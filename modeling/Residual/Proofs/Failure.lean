import Residual.Proofs.Lockstep
import Residual.Proofs.Query

/-!
This module contains the consequences of failures. An operation that rejects its input leaves the
workspace as it is, and a compilation that was given up can be taken up again under a larger limit
as if it had had that limit from the beginning.
-/

namespace Residual

namespace Workspace

variable {w : Workspace} {t e : TermId} {c : Char} {a : Alphabet}

section Reject

theorem build_repeated_of_lt {min max : Nat} (h : max < min) (w : Workspace) (t : TermId) :
    w.build (Operation.repeated t min max).apply = (.error (.invalidBounds min max), w) := by
  rw [build_eq, Operation.apply, Store.repeated, if_pos h]

theorem compile_of_symbolOutside (hw : w.Sound) (he : e < w.numTerms)
    (h : (w.compile e a).value.1 = .error (.symbolOutside c)) : (w.compile e a).value.2 = w := by
  have hcompiles := compiles_compile hw he a
  generalize (w.compile e a).value = r at h hcompiles
  cases hcompiles with
  | outside _ _ => rfl
  | overflow _ => cases h
  | done _ _ => cases h

theorem error_of_map {α β : Type} {f : α → β} {r : Except Error α} {error : Error}
    (h : r.map f = .error error) : r = .error error := by
  cases r with
  | error e => exact congrArg _ (Except.error.inj h)
  | ok x => contradiction

end Reject

section Limit

theorem store_setMaxStates (w : Workspace) (limit : Nat) :
    (w.setMaxStates limit).store = w.store :=
  rfl

theorem derivatives_setMaxStates (w : Workspace) (limit : Nat) :
    (w.setMaxStates limit).derivatives = w.derivatives :=
  rfl

theorem combine_setMaxStates (w : Workspace) (limit : Nat) (c : Char) (t : TermId) :
    (w.setMaxStates limit).combine c t = (w.combine c t).setMaxStates limit :=
  rfl

theorem learn_setMaxStates (w : Workspace) (limit : Nat) (c : Char) (t : TermId) :
    (w.setMaxStates limit).learn c t = (w.learn c t).setMaxStates limit := by
  induction t using Nat.strongRecOn generalizing w with
  | ind t ih =>
    have hfold : ∀ l : List TermId, (∀ u ∈ l, u < t) →
        l.foldr (fun u w => w.learn c u) (w.setMaxStates limit) =
          (l.foldr (fun u w => w.learn c u) w).setMaxStates limit := by
      intro l hl
      induction l with
      | nil => rfl
      | cons u l ihl =>
        rw [List.foldr_cons, ihl fun v hv => hl v (List.mem_cons_of_mem u hv)]
        exact ih u (hl u List.mem_cons_self) _
    rw [learn_eq, learn_eq w, derivatives_setMaxStates, store_setMaxStates,
      hfold _ fun _ => Store.lt_of_mem_dependencies, combine_setMaxStates]
    split
    · rfl
    · rfl

theorem derivative_setMaxStates (w : Workspace) (limit : Nat) (t : TermId) (c : Char) :
    (w.setMaxStates limit).derivative t c =
      ((w.derivative t c).1, (w.derivative t c).2.setMaxStates limit) := by
  rw [derivative_eq_known, learn_setMaxStates]
  rfl

theorem carries_setMaxStates (limit : Nat) (w : Workspace) :
    Construction.Carries (fun u v => v = u.setMaxStates limit) w where
  ext := by
    rintro u _ rfl
    exact .refl u.store
  derivative := by
    rintro u _ t c rfl _ _ _
    exact ⟨_, derivative_setMaxStates u limit t c, rfl⟩

theorem carries_known (limit : Nat) (w : Workspace) :
    Construction.Carries (fun u v => v = w.setMaxStates limit ∧ u.store.Extends w.store) w where
  ext := by
    rintro u _ ⟨rfl, h⟩
    exact h
  derivative := by
    rintro u _ t c ⟨rfl, _⟩ hu ht hlearns
    have hknown := hlearns.known _ _ (known_derivative hu ht c)
    exact ⟨w.setMaxStates limit, derivative_of_known hknown, rfl, hlearns.ext⟩

theorem compile_resumes (hw : w.Sound) (he : e < w.numTerms) {limit limit' : Nat}
    (hle : limit ≤ limit')
    (h : ((w.setMaxStates limit).compile e a).value.1 = .error (.tooManyStates limit)) :
    (((w.setMaxStates limit).compile e a).value.2.setMaxStates limit').compile e a =
      (w.setMaxStates limit').compile e a := by
  have hsound := hw.setMaxStates limit
  have hroom : 0 < max 1 (w.setMaxStates limit).maxStates := by omega
  obtain ⟨hcovers, x, hx, hlast⟩ := run_of_compile_error hsound he h hroom
  have hissued := Construction.issued_start hsound he a hroom
  have hlearns := (hissued.advances_run a.symbols).learns
  rw [hx] at hlearns
  rw [hlast]
  have hsymbols : (x.workspace.setMaxStates limit').store.symbolsOf e = w.store.symbolsOf e :=
    hlearns.ext.symbolsOf_eq he
  have hdirect : 0 < max 1 (w.setMaxStates limit').maxStates := by omega
  have hagain : 0 < max 1 (x.workspace.setMaxStates limit').maxStates := by omega
  -- the construction that was given up guides both the direct one and the one that is tried again
  have hrun : (Construction.start (w.setMaxStates limit') e a hdirect).run a.symbols =
      (Construction.start (x.workspace.setMaxStates limit') e a hagain).run a.symbols := by
    apply Construction.run_eq_of_error (carries_setMaxStates limit' x.workspace)
      (carries_known limit' x.workspace) _ _ _ _ hissued hx rfl
    · rintro v _ rfl ⟨rfl, _⟩
      rfl
    · show max 1 limit ≤ max 1 limit'
      omega
    · exact ⟨rfl, rfl, rfl, rfl⟩
    · exact ⟨⟨rfl, hlearns.ext⟩, rfl, rfl, rfl⟩
  have hcovers : a.checkCovers (w.store.symbolsOf e) = .ok () := hcovers
  have hcompile := compile_of_covered (w := w.setMaxStates limit') hcovers hdirect
  rw [← hsymbols] at hcovers
  rw [hcompile, compile_of_covered hcovers hagain, hrun]
  rfl

/--
Bounds that are out of order and a symbol outside the alphabet leave the workspace as it is. After a
compilation that met too many states, one with a larger limit has the same result, leads to the same
terms and derivatives and reports the same as if the first had never been tried.
-/
theorem Reachable.failures_harmless (hw : w.Reachable) (ht : t < w.numTerms) :
    (∀ min max, max < min →
      w.build (Operation.repeated t min max).apply = (.error (.invalidBounds min max), w)) ∧
    (∀ a c, (w.compile t a).value.1 = .error (.symbolOutside c) → (w.compile t a).value.2 = w) ∧
    (∀ a c, (w.isEmpty t a).value.1 = .error (.symbolOutside c) → (w.isEmpty t a).value.2 = w) ∧
    (∀ a c, (w.isFinite t a).value.1 = .error (.symbolOutside c) → (w.isFinite t a).value.2 = w) ∧
    ∀ a limit limit', limit ≤ limit' →
      let failed := (w.setMaxStates limit).compile t a
      failed.value.1 = .error (.tooManyStates limit) →
        (failed.value.2.setMaxStates limit').compile t a = (w.setMaxStates limit').compile t a := by
  have hsound := hw.sound
  refine ⟨?_, ?_, ?_, ?_, ?_⟩
  · intro min max h
    exact build_repeated_of_lt h w t
  · intro a c h
    exact compile_of_symbolOutside hsound ht h
  · intro a c h
    exact compile_of_symbolOutside hsound ht (error_of_map h)
  · intro a c h
    exact compile_of_symbolOutside hsound ht (error_of_map h)
  · intro a limit limit' hle failed h
    exact compile_resumes hsound ht hle h

theorem failures_harmless_symbol :
    let w := (initial 5).perform (.build (.symbol 'a'))
    let a := Alphabet.ofList ['a']
    let failed := (w.setMaxStates 2).compile 3 a
    w.Reachable ∧ 3 < w.numTerms ∧
      w.build (Operation.repeated 3 2 1).apply = (.error (.invalidBounds 2 1), w) ∧
      (w.isEmpty 3 .empty).value = (.error (.symbolOutside 'a'), w) ∧
      failed.value.1 = .error (.tooManyStates 2) ∧
      (failed.value.2.setMaxStates 10).compile 3 a = (w.setMaxStates 10).compile 3 a := by
  intro w a failed
  have hw : w.Reachable := reachable_symbol 5 'a'
  have ht : 3 < w.numTerms := by decide
  have houtside : (w.isEmpty 3 .empty).value.1 = .error (.symbolOutside 'a') := by decide +kernel
  have hcompile : failed.value.1.map (fun _ => ()) = .error (.tooManyStates 2) := by decide +kernel
  have hfailed := error_of_map hcompile
  obtain ⟨hbounds, _, hempty, _, hlimit⟩ := hw.failures_harmless ht
  refine ⟨hw, ht, hbounds 2 1 (by decide), ?_, hfailed, hlimit a 2 10 (by decide) hfailed⟩
  exact Prod.ext houtside (hempty .empty 'a' houtside)

end Limit

end Workspace

end Residual
