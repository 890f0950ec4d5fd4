import Residual.Proofs.Words.Counts

/-!
This module contains the extent of a table of counts: how far each call may extend the table. A
query never extends it beyond the longest accepted word.
-/

namespace Residual

open Automaton (initial)

theorem le_addLengths {k n : Nat} (h : n < UInt64.size) : n ≤ addLengths k n := by
  unfold addLengths
  omega

namespace Counts

variable {a : Automaton} {g g' g'' : Counts} {p q : Nat → Prop}

inductive Extended (p : Nat → Prop) (g : Counts) : Counts → Prop where
  | refl : Extended p g g
  | extendTo {g' : Counts} (h : Extended p g g') {n : Nat} (hn : p n) :
      Extended p g (g'.extendTo n).value

namespace Extended

theorem single {n : Nat} (g : Counts) (hn : p n) : Extended p g (g.extendTo n).value :=
  .extendTo .refl hn

theorem trans (h : Extended p g g') (h' : Extended p g' g'') : Extended p g g'' := by
  induction h' with
  | refl => exact h
  | extendTo _ hn ih => exact ih.extendTo hn

theorem imp (h : Extended p g g') (hpq : ∀ n, p n → q n) : Extended q g g' := by
  induction h with
  | refl => exact .refl
  | extendTo _ hn ih => exact ih.extendTo (hpq _ hn)

theorem maxLength_le (h : Extended p g g') : g.maxLength ≤ g'.maxLength := by
  induction h with
  | refl => exact Nat.le_refl _
  | extendTo _ _ ih =>
    rw [maxLength_extendTo]
    omega

theorem maxLength_eq_or (h : Extended p g g') : g'.maxLength = g.maxLength ∨ p g'.maxLength := by
  induction h with
  | refl => exact Or.inl rfl
  | @extendTo g' _ n hn ih =>
    rw [maxLength_extendTo]
    rcases Nat.le_total n g'.maxLength with hle | hle
    · rw [Nat.max_eq_right hle]
      exact ih
    · rw [Nat.max_eq_left hle]
      exact Or.inr hn

end Extended

section Calls

def Within (a : Automaton) (n : Nat) : Prop := a.lengthBound.excludes n = false

def Call.length : Call → Nat
  | .extendTo n | .count _ n | .countAccepted n | .countUpTo n | .validLengths n => n
  | .countCompletions _ n | .sample _ n _ | .sampleWith _ _ n _ | .listing n => n

def Call.Asks (a : Automaton) : Call → Nat → Prop
  | .extendTo n, k => k = n
  | .count s n, k => k = n ∧ ((∃ u, a.run initial u = .ok s) → Within a n)
  | .countCompletions stem n, k | .sampleWith _ stem n _, k =>
    k = n ∧ a.lengthBound.excludes (addLengths stem.length n) = false
  | _, k => Within a k

/-- Whether a call neither demands a larger table nor is about a state that no word leads to. -/
def Call.IsQuery (a : Automaton) : Call → Prop
  | .extendTo _ => False
  | .count s _ => ∃ u, a.run initial u = .ok s
  | _ => True

theorem getD_reachable_iff (hg : g.automaton = a) {s : StateId} :
    g.reachable.getD s false = true ↔ ∃ u, a.run initial u = .ok s := by
  subst hg
  rw [g.reachable_eq]
  by_cases hs : s < g.automaton.numStates
  · exact Automaton.reachableStates_iff hs
  · apply iff_of_false
    · have hsize : g.automaton.reachableStates.size ≤ s := by
        rw [Automaton.reachableStates, Numbering.size_table]
        exact Nat.le_of_not_lt hs
      simp [Array.getD_eq_getD_getElem?, Array.getElem?_eq_none hsize]
    · rintro ⟨u, hu⟩
      exact hs (Automaton.lt_of_run g.automaton.size_pos hu)

theorem extended_count (hg : g.automaton = a) (s : StateId) (n : Nat) :
    Extended ((Call.count s n).Asks a) g (g.count s n).value.2 := by
  unfold count
  split
  · exact .refl
  next h =>
    apply Extended.single
    refine ⟨rfl, ?_⟩
    intro hs
    rw [(getD_reachable_iff hg).2 hs, Bool.true_and, Bool.not_eq_true, g.bound_eq, hg] at h
    exact h

theorem extended_countAccepted (hg : g.automaton = a) (n : Nat) :
    Extended (Within a) g (g.countAccepted n).value.2 := by
  unfold countAccepted
  split
  · exact .refl
  · apply (extended_count hg initial n).imp
    rintro k ⟨rfl, hk⟩
    exact hk ⟨[], rfl⟩

theorem extended_foldlM {β : Type} {step : β × Counts → Nat → Logged (β × Counts)}
    (hstep : ∀ x g k, (step (x, g) k).value.2 = (g.countAccepted k).value.2)
    (hg : g.automaton = a) (ks : List Nat) (x : β) :
    Extended (Within a) g (ks.foldlM step (x, g)).value.2 := by
  induction ks generalizing x g with
  | nil => exact .refl
  | cons k ks ih =>
    have hcount := extended_countAccepted hg k
    have hautomaton : (step (x, g) k).value.2.automaton = a := by
      rw [hstep, ← hg]
      exact g.automaton_countAccepted k
    rw [← hstep x] at hcount
    rw [List.foldlM_cons, Logged.value_bind]
    exact hcount.trans (ih hautomaton _)

theorem extended_countCompletions (hg : g.automaton = a) (stem : List Char) (n : Nat) :
    Extended ((Call.countCompletions stem n).Asks a) g (g.countCompletions stem n).value.2 := by
  unfold countCompletions
  split
  · exact .refl
  next s hs =>
    split
    · exact .refl
    next h =>
      rw [g.bound_eq, hg, Bool.not_eq_true] at h
      apply (extended_count hg s n).imp
      rintro k ⟨rfl, _⟩
      exact ⟨rfl, h⟩

theorem extended_listing (hg : g.automaton = a) (n : Nat) :
    Extended (Within a) g (g.listing n).value.2 := by
  show Extended (Within a) g (g.extendTo (g.bound.cap n)).value
  rw [g.bound_eq, hg]
  cases hbound : a.lengthBound with
  | empty =>
    have hzero : g.extendTo 0 = pure g := if_pos (Nat.zero_le _)
    rw [LengthBound.cap, hzero]
    exact .refl
  | bounded m =>
    apply Extended.single
    rw [Within, hbound]
    simp [LengthBound.cap, LengthBound.excludes]
  | unbounded =>
    apply Extended.single
    rw [Within, hbound]
    rfl

theorem extended_perform (hg : g.automaton = a) (call : Call) :
    Extended (call.Asks a) g (g.perform call) := by
  cases call with
  | extendTo n => exact .single g rfl
  | count s n => exact extended_count hg s n
  | countAccepted n => exact extended_countAccepted hg n
  | countUpTo n => exact extended_foldlM (fun _ _ _ => rfl) hg _ 0
  | validLengths n => exact extended_foldlM (fun _ _ _ => rfl) hg _ #[]
  | countCompletions stem n => exact extended_countCompletions hg stem n
  | sample draw n source =>
    simp only [perform, sample]
    split
    · exact .refl
    next h =>
      rw [g.bound_eq, hg, Bool.not_eq_true] at h
      exact .single g h
  | sampleWith draw stem n source =>
    simp only [perform, sampleWith]
    split
    · exact .refl
    · split
      · exact .refl
      next h =>
        rw [g.bound_eq, hg, Bool.not_eq_true] at h
        exact .single g ⟨rfl, h⟩
  | listing n => exact extended_listing hg n

end Calls

section Extent

theorem Call.IsQuery.within {call : Call} (h : call.IsQuery a) (hlength : call.length < UInt64.size)
    {k : Nat} (hk : call.Asks a k) : Within a k := by
  cases call with
  | extendTo n => exact h.elim
  | count s n =>
    obtain ⟨rfl, hwithin⟩ := hk
    exact hwithin h
  | countCompletions stem n | sampleWith draw stem n source =>
    obtain ⟨rfl, hk⟩ := hk
    rw [Within, ← Bool.not_eq_true]
    intro hexcludes
    rw [LengthBound.excludes_mono hexcludes (le_addLengths hlength)] at hk
    contradiction
  | countAccepted n | countUpTo n | validLengths n | sample draw n source | listing n => exact hk

theorem within_of_bounded {m n : Nat} (hm : a.lengthBound = .bounded m) (h : Within a n) :
    n ≤ m := by
  rw [Within, hm] at h
  exact Nat.le_of_not_lt (of_decide_eq_false h)

theorem not_within_of_isEmpty (h : ∀ w, w ∉ a.language) (n : Nat) : ¬Within a n := by
  rw [Within, a.bounds_lengthBound.eq_empty_iff.2 h]
  exact Bool.noConfusion

def after (a : Automaton) (calls : List Call) : Counts := calls.foldl perform (ofAutomaton a)

theorem Reachable.foldl (hg : Reachable a g) (calls : List Call) :
    Reachable a (calls.foldl Counts.perform g) := by
  induction calls generalizing g with
  | nil => exact hg
  | cons call calls ih => exact ih (hg.perform call)

theorem extended_foldl (hg : g.automaton = a) {calls : List Call}
    (hcalls : ∀ call ∈ calls, ∀ k, call.Asks a k → p k) :
    Extended p g (calls.foldl perform g) := by
  induction calls generalizing g with
  | nil => exact .refl
  | cons call calls ih =>
    obtain ⟨hcall, hcalls⟩ := List.forall_mem_cons.1 hcalls
    have hautomaton := (g.automaton_perform call).trans hg
    exact ((extended_perform hg call).imp hcall).trans (ih hautomaton hcalls)

theorem maxLength_after {calls : List Call}
    (hcalls : ∀ call ∈ calls, call.IsQuery a ∧ call.length < UInt64.size) :
    (after a calls).maxLength = 0 ∨ Within a (after a calls).maxLength := by
  have hextended : Extended (Within a) (ofAutomaton a) (after a calls) := by
    apply extended_foldl rfl
    intro call hmem k
    obtain ⟨hquery, hlength⟩ := hcalls call hmem
    exact hquery.within hlength
  exact hextended.maxLength_eq_or

theorem maxLength_count_of_not_reachable (hg : g.automaton = a) {s : StateId}
    (hs : ∀ u, a.run initial u ≠ .ok s) (n : Nat) :
    (g.count s n).value.2.maxLength = max n g.maxLength := by
  have hreachable : g.reachable.getD s false = false := by
    rw [← Bool.not_eq_true, getD_reachable_iff hg]
    rintro ⟨u, hu⟩
    exact hs u hu
  rw [count, hreachable, Bool.false_and, if_neg Bool.false_ne_true]
  exact maxLength_extendTo g n

/--
The table never shrinks, and a query never extends it beyond the longest accepted word, whatever
length it is about: from a new table, queries leave it at length zero if no word is accepted, and
within the bound if there is one. A demand for a larger table and the count from a state that no word
leads to extend it to their length. A stem with a symbol outside of the alphabet changes nothing.
-/
theorem extent_exact (a : Automaton) :
    ((ofAutomaton a).maxLength = 0 ∧ ∀ n, (ofAutomatonUpTo a n).value.maxLength = n) ∧
    (∀ calls : List Call, (∀ call ∈ calls, call.IsQuery a ∧ call.length < UInt64.size) →
      ((∀ w, w ∉ a.language) → (after a calls).maxLength = 0) ∧
      ∀ m, a.lengthBound = .bounded m → (after a calls).maxLength ≤ m) ∧
    ∀ g, Reachable a g →
      (∀ calls : List Call, g.maxLength ≤ (calls.foldl perform g).maxLength) ∧
      (∀ call : Call, call.IsQuery a → call.length < UInt64.size →
        ((∀ w, w ∉ a.language) → (g.perform call).maxLength = g.maxLength) ∧
        ∀ m, a.lengthBound = .bounded m → (g.perform call).maxLength ≤ max g.maxLength m) ∧
      (∀ n, (g.perform (.extendTo n)).maxLength = max n g.maxLength) ∧
      (∀ s n, (∀ u, a.run initial u ≠ .ok s) →
        (g.perform (.count s n)).maxLength = max n g.maxLength) ∧
      ∀ front c rest n, (∀ d ∈ front, d ∈ a.alphabet) → c ∉ a.alphabet →
        g.countCompletions (front ++ c :: rest) n = pure (.error (.symbolOutside c), g) ∧
        ∀ {ρ : Type} (draw : Draw ρ) (source : ρ), g.sampleWith draw (front ++ c :: rest) n source =
          pure ((.error (.symbolOutside c), source), g) := by
  refine ⟨⟨rfl, ?_⟩, ?_, ?_⟩
  · intro n
    rw [ofAutomatonUpTo, maxLength_extendTo]
    exact Nat.max_eq_left (Nat.zero_le n)
  · intro calls hcalls
    have hafter := maxLength_after hcalls
    constructor
    · intro hempty
      exact hafter.resolve_right (not_within_of_isEmpty hempty _)
    · intro m hm
      rcases hafter with hzero | hwithin
      · omega
      · exact within_of_bounded hm hwithin
  · intro g hg
    have hautomaton := hg.automaton_eq
    refine ⟨?_, ?_, maxLength_extendTo g, ?_, ?_⟩
    · intro calls
      exact (extended_foldl (p := fun _ => True) rfl fun _ _ _ _ => trivial).maxLength_le
    · intro call hquery hlength
      have hperform := ((extended_perform hautomaton call).imp
        fun k hk => hquery.within hlength hk).maxLength_eq_or
      constructor
      · intro hempty
        exact hperform.resolve_right (not_within_of_isEmpty hempty _)
      · intro m hm
        rcases hperform with heq | hwithin
        · omega
        · have hle := within_of_bounded hm hwithin
          omega
    · intro s n hs
      exact maxLength_count_of_not_reachable hautomaton hs n
    · intro front c rest n hfront hc
      have hrun : g.automaton.run initial (front ++ c :: rest) = .error (.symbolOutside c) := by
        rw [hautomaton]
        exact Automaton.run_of_not_mem hfront hc rest initial
      constructor
      · rw [countCompletions, hrun]
      · intro ρ draw source
        rw [sampleWith, hrun]

theorem extent_exact_symbol :
    let b := Builder.start 0 (.ofList ['a']) |>.connect 0 0 1 |>.markFinal 1 |>.connect 1 0 2
      |>.connect 2 0 2 |>.connect 3 0 3
    let calls := [.countAccepted 100, .countCompletions ['a'] (UInt64.size - 1), .count 1 7]
    ∃ a, b.build = .ok a ∧ a.lengthBound = .bounded 1 ∧ (after a calls).maxLength ≤ 1 ∧
      ((after a calls).perform (.count 3 7)).maxLength = max 7 (after a calls).maxLength ∧
      (after a calls).countCompletions ['a', 'b'] 5 =
        pure (.error (.symbolOutside 'b'), after a calls) := by
  intro b calls
  have hfacts : (b.build.map fun a => (a.lengthBound, a.run initial ['a'], a.numStates,
      a.reachableStates.getD 3 false, a.alphabet.contains 'a', a.alphabet.contains 'b')) =
      .ok (.bounded 1, .ok 1, 4, false, true, false) := by decide +kernel
  cases h : b.build with
  | error e =>
    rw [h] at hfacts
    contradiction
  | ok a =>
    rw [h] at hfacts
    simp only [Except.map, Except.ok.injEq, Prod.mk.injEq] at hfacts
    obtain ⟨hbound, hrun, hsize, hreachable, ha, hb⟩ := hfacts
    obtain ⟨_, hqueries, hany⟩ := extent_exact a
    have hcalls : ∀ call ∈ calls, call.IsQuery a ∧ call.length < UInt64.size := by
      simp only [calls, List.forall_mem_cons]
      exact ⟨⟨trivial, by decide⟩, ⟨trivial, by decide⟩, ⟨⟨_, hrun⟩, by decide⟩, by simp⟩
    have hg : Reachable a (after a calls) := Reachable.start.foldl calls
    clear_value calls
    obtain ⟨_, _, _, hcount, hfails⟩ := hany _ hg
    have hunreachable : ∀ u, a.run initial u ≠ .ok 3 := by
      intro u hu
      have hthree : 3 < a.numStates := by
        rw [hsize]
        decide
      rw [(Automaton.reachableStates_iff hthree).2 ⟨u, hu⟩] at hreachable
      contradiction
    refine ⟨a, rfl, hbound, (hqueries _ hcalls).2 1 hbound, hcount 3 7 hunreachable, ?_⟩
    apply (hfails ['a'] 'b' [] 5 _ _).1
    · simpa using ha
    · rw [← Alphabet.contains_iff, hb]
      exact Bool.false_ne_true

end Extent

end Counts

end Residual
