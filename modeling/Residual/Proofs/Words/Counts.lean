import Residual.Automaton.Builder
import Residual.Proofs.Automaton.LengthBound
import Residual.Proofs.Automaton.Words
import Residual.Words.Listing

/-!
This module contains the correctness of the word counts. Whatever was asked before, every answer is
the number of words that it is meant to be, and no answer depends on how far the table has grown.
-/

namespace Residual

namespace LengthBound

variable {b : LengthBound} {k n : Nat}

theorem excludes_mono (h : b.excludes k = true) (hle : k ≤ n) : b.excludes n = true := by
  cases b with
  | empty => rfl
  | bounded m => exact decide_eq_true (Nat.lt_of_lt_of_le (of_decide_eq_true h) hle)
  | unbounded => contradiction

theorem excludes_add_of_addLengths (h : b.excludes (addLengths k n) = true) :
    b.excludes (k + n) = true :=
  excludes_mono h (Nat.min_le_left _ _)

end LengthBound

namespace Automaton

variable {a : Automaton} {s : StateId}

theorem length_words (a : Automaton) (k : Nat) (s : StateId) :
    (a.words k s).length = (a.countRow k).getD s 0 := by
  induction k generalizing s with
  | zero =>
    rw [words, countRow, accepting, state?, Array.getD_eq_getD_getElem?, Array.getElem?_map]
    cases a.states[s]? with
    | none => rfl
    | some state => cases h : state.accepting <;> simp [h]
  | succ k ih =>
    rw [words, countRow, getD_nextRow, List.length_flatMap, List.sum_eq_foldl, List.foldl_map]
    simp only [List.length_map, ih]

theorem length_words_eq_zero_iff (hs : s < a.numStates) {k : Nat} :
    (a.words k s).length = 0 ↔ ∀ w ∈ a.languageFrom s, w.length ≠ k := by
  rw [List.length_eq_zero_iff, List.eq_nil_iff_forall_not_mem]
  simp only [mem_words_iff hs, not_and]
  exact forall_congr' fun w => imp_not_comm

end Automaton

namespace Counts

variable {g : Counts} {s : StateId}

theorem automaton_extendTo (g : Counts) (n : Nat) :
    (g.extendTo n).value.automaton = g.automaton := by
  unfold extendTo
  split
  · rfl
  · exact automaton_grow g _

section Count

theorem lookup_eq_length {k : Nat} (hk : k ≤ g.maxLength) (s : StateId) :
    g.lookup k s = (g.automaton.words k s).length := by
  rw [lookup_eq hk, Automaton.length_words]

theorem bounds_bound (g : Counts) : g.bound.Bounds g.automaton.language := by
  rw [g.bound_eq]
  exact g.automaton.bounds_lengthBound

theorem length_words_of_excludes {k : Nat} {u : List Char}
    (hu : g.automaton.run Automaton.initial u = .ok s)
    (hk : g.bound.excludes (u.length + k) = true) : (g.automaton.words k s).length = 0 := by
  rw [Automaton.length_words_eq_zero_iff (Automaton.lt_of_run g.automaton.size_pos hu)]
  -- what is left of a word, put behind `u`, is too long for the bound
  rintro w hw rfl
  have hmem : u ++ w ∈ g.automaton.language := Automaton.append_mem_languageFrom_iff.2 ⟨s, hu, hw⟩
  exact g.bounds_bound.length_ne hk (u ++ w) hmem List.length_append

theorem count_eq_length (g : Counts) (hs : s < g.automaton.numStates) (k : Nat) :
    (g.count s k).value.1 = (g.automaton.words k s).length := by
  unfold count
  split
  next h =>
    rw [Bool.and_eq_true, g.reachable_eq, Automaton.reachableStates_iff hs] at h
    obtain ⟨⟨u, hu⟩, hk⟩ := h
    exact (length_words_of_excludes hu (LengthBound.excludes_mono hk (Nat.le_add_left ..))).symm
  · have hlookup := lookup_eq_length (g.le_maxLength_extendTo k) s
    rw [automaton_extendTo] at hlookup
    exact hlookup

theorem automaton_count (g : Counts) (s : StateId) (k : Nat) :
    (g.count s k).value.2.automaton = g.automaton := by
  unfold count
  split
  · rfl
  · exact g.automaton_extendTo k

theorem countAccepted_eq_length (g : Counts) (n : Nat) :
    (g.countAccepted n).value.1 = (g.automaton.words n Automaton.initial).length := by
  unfold countAccepted
  split
  next h =>
    have hstart : g.automaton.run Automaton.initial [] = .ok Automaton.initial := rfl
    rw [length_words_of_excludes hstart (LengthBound.excludes_mono h (Nat.le_add_left ..))]
    rfl
  · exact g.count_eq_length g.automaton.size_pos n

theorem automaton_countAccepted (g : Counts) (n : Nat) :
    (g.countAccepted n).value.2.automaton = g.automaton := by
  unfold countAccepted
  split
  · rfl
  · exact g.automaton_count _ n

end Count

section Lengths

variable {β : Type} {f : β → Nat → Nat → β} {step : β × Counts → Nat → Logged (β × Counts)}

theorem foldlM_countAccepted (hstep : ∀ x g k, (step (x, g) k).value =
      (f x k (g.countAccepted k).value.1, (g.countAccepted k).value.2))
    (ks : List Nat) (x : β) (g : Counts) :
    (ks.foldlM step (x, g)).value.1 =
        ks.foldl (fun x k => f x k (g.automaton.words k Automaton.initial).length) x ∧
      (ks.foldlM step (x, g)).value.2.automaton = g.automaton := by
  induction ks generalizing x g with
  | nil => exact ⟨rfl, rfl⟩
  | cons k ks ih =>
    rw [List.foldlM_cons, Logged.value_bind, hstep, countAccepted_eq_length, List.foldl_cons]
    have h := ih (f x k (g.automaton.words k Automaton.initial).length) (g.countAccepted k).value.2
    rw [automaton_countAccepted] at h
    exact h

theorem foldl_push_eq_filter (N : Nat → Nat) (ks : List Nat) (lengths : Array Nat) :
    (ks.foldl (fun lengths k => if N k = 0 then lengths else lengths.push k) lengths).toList =
      lengths.toList ++ ks.filter (N · ≠ 0) := by
  induction ks generalizing lengths with
  | nil => simp
  | cons k ks ih =>
    rw [List.foldl_cons, ih]
    by_cases h : N k = 0 <;> simp [h]

theorem countUpTo_eq (g : Counts) (n : Nat) :
    (g.countUpTo n).value.1 =
        (g.automaton.wordsBelow (n + 1) Automaton.initial).length ∧
      (g.countUpTo n).value.2.automaton = g.automaton := by
  rw [Automaton.wordsBelow, List.length_flatMap, List.sum_eq_foldl, List.foldl_map]
  apply foldlM_countAccepted (f := fun sum _ m => sum + m)
  intro sum g k
  rfl

theorem validLengths_eq (g : Counts) (n : Nat) :
    (g.validLengths n).value.1 = (List.range (n + 1)).filter
        (fun k => (g.automaton.words k Automaton.initial).length ≠ 0) ∧
      (g.validLengths n).value.2.automaton = g.automaton := by
  have hfilter := foldl_push_eq_filter
    (fun k => (g.automaton.words k Automaton.initial).length) (List.range (n + 1)) #[]
  rw [List.nil_append] at hfilter
  simp only [← hfilter, validLengths, Logged.value_bind, Logged.value_pure]
  apply And.imp_left (congrArg Array.toList)
  apply foldlM_countAccepted
    (f := fun (lengths : Array Nat) k m => if m = 0 then lengths else lengths.push k)
  intro lengths g k
  rfl

end Lengths

section Completions

variable {stem : List Char} {k : Nat}

theorem countCompletions_of_run (hstem : g.automaton.run Automaton.initial stem = .ok s) :
    (g.countCompletions stem k).value.1 = .ok (g.automaton.words k s).length := by
  rw [countCompletions, hstem]
  dsimp only
  split
  next h =>
    rw [length_words_of_excludes hstem (LengthBound.excludes_add_of_addLengths h)]
    rfl
  · have hs := Automaton.lt_of_run g.automaton.size_pos hstem
    rw [Logged.value_bind, count_eq_length g hs]
    rfl

theorem automaton_countCompletions (g : Counts) (stem : List Char) (k : Nat) :
    (g.countCompletions stem k).value.2.automaton = g.automaton := by
  unfold countCompletions
  split
  · rfl
  · split
    · rfl
    · apply automaton_count

theorem encard_completions {a : Automaton} (hstem : a.run Automaton.initial stem = .ok s) (k : Nat) :
    {v | v ∈ a.language ∧ ∃ w, w.length = k ∧ v = stem ++ w}.encard = (a.words k s).length := by
  have himage := (List.append_right_injective stem).encard_image
    {w | w.length = k ∧ w ∈ a.languageFrom s}
  rw [← Automaton.encard_words (Automaton.lt_of_run a.size_pos hstem), ← himage]
  apply congrArg Set.encard
  ext v
  constructor
  · rintro ⟨hv, w, hw, rfl⟩
    obtain ⟨d, hd, hmem⟩ := Automaton.append_mem_languageFrom_iff.1 hv
    cases hstem.symm.trans hd
    exact ⟨w, ⟨hw, hmem⟩, rfl⟩
  · rintro ⟨w, ⟨hw, hmem⟩, rfl⟩
    exact ⟨Automaton.append_mem_languageFrom_iff.2 ⟨s, hstem, hmem⟩, w, hw, rfl⟩

end Completions

section History

inductive Call where
  | extendTo (n : Nat)
  | count (s : StateId) (k : Nat)
  | countAccepted (n : Nat)
  | countUpTo (n : Nat)
  | validLengths (n : Nat)
  | countCompletions (stem : List Char) (k : Nat)
  | sample {ρ : Type} (draw : Draw ρ) (n : Nat) (source : ρ)
  | sampleWith {ρ : Type} (draw : Draw ρ) (stem : List Char) (n : Nat) (source : ρ)
  | listing (max : Nat)

def perform (g : Counts) : Call → Counts
  | .extendTo n => (g.extendTo n).value
  | .count s k => (g.count s k).value.2
  | .countAccepted n => (g.countAccepted n).value.2
  | .countUpTo n => (g.countUpTo n).value.2
  | .validLengths n => (g.validLengths n).value.2
  | .countCompletions stem k => (g.countCompletions stem k).value.2
  | .sample draw n source => (g.sample draw n source).value.2
  | .sampleWith draw stem n source => (g.sampleWith draw stem n source).value.2
  | .listing max => (g.listing max).value.2

inductive Reachable (a : Automaton) : Counts → Prop where
  | start : Reachable a (ofAutomaton a)
  | startUpTo (n : Nat) : Reachable a (ofAutomatonUpTo a n).value
  | perform {g : Counts} (hg : Reachable a g) (call : Call) : Reachable a (g.perform call)

theorem automaton_perform (g : Counts) (call : Call) : (g.perform call).automaton = g.automaton := by
  cases call with
  | extendTo n => exact g.automaton_extendTo n
  | count s k => exact g.automaton_count s k
  | countAccepted n => exact g.automaton_countAccepted n
  | countUpTo n => exact (g.countUpTo_eq n).2
  | validLengths n => exact (g.validLengths_eq n).2
  | countCompletions stem k => exact g.automaton_countCompletions stem k
  | sample draw n source =>
    simp only [perform, sample]
    split
    · rfl
    · exact g.automaton_extendTo n
  | sampleWith draw stem n source =>
    simp only [perform, sampleWith]
    split
    · rfl
    · split
      · rfl
      · exact g.automaton_extendTo n
  | listing max => exact g.automaton_extendTo _

theorem Reachable.automaton_eq {a : Automaton} (h : Reachable a g) : g.automaton = a := by
  induction h with
  | start => rfl
  | startUpTo n => exact automaton_extendTo _ n
  | perform _ call ih => rw [automaton_perform, ih]

/--
The table and all answers of a table of counts are exact, whatever it was asked before: the numbers
of words by length and state, of accepted words of one length and up to a length, the lengths of
accepted words, and the number of accepted words that begin with a stem. A stem with a symbol
outside of the alphabet is reported.
-/
theorem Reachable.counts_exact {a : Automaton} (h : Reachable a g) :
    (∀ k ≤ g.maxLength, ∀ s < a.numStates,
      {w | w.length = k ∧ w ∈ a.languageFrom s}.encard = g.lookup k s) ∧
    (∀ s < a.numStates, ∀ k,
      {w | w.length = k ∧ w ∈ a.languageFrom s}.encard = (g.count s k).value.1) ∧
    (∀ n, {w | w.length = n ∧ w ∈ a.language}.encard = (g.countAccepted n).value.1) ∧
    (∀ n, {w | w.length ≤ n ∧ w ∈ a.language}.encard = (g.countUpTo n).value.1) ∧
    (∀ n, (g.validLengths n).value.1.Pairwise (· < ·) ∧
      ∀ k, k ∈ (g.validLengths n).value.1 ↔ k ≤ n ∧ ∃ w ∈ a.language, w.length = k) ∧
    (∀ stem k, (∀ c ∈ stem, c ∈ a.alphabet) →
      ∃ n : Nat, (g.countCompletions stem k).value.1 = .ok n ∧
        {v | v ∈ a.language ∧ ∃ w, w.length = k ∧ v = stem ++ w}.encard = n) ∧
    (∀ front c rest k, (∀ d ∈ front, d ∈ a.alphabet) → c ∉ a.alphabet →
      (g.countCompletions (front ++ c :: rest) k).value.1 = .error (.symbolOutside c)) := by
  obtain rfl := h.automaton_eq
  refine ⟨?_, ?_, ?_, ?_, ?_, ?_, ?_⟩
  · intro k hk s hs
    rw [lookup_eq_length hk, Automaton.encard_words hs]
  · intro s hs k
    rw [count_eq_length g hs, Automaton.encard_words hs]
  · intro n
    rw [countAccepted_eq_length]
    exact Automaton.encard_words g.automaton.size_pos n
  · intro n
    rw [(g.countUpTo_eq n).1, ← Automaton.encard_wordsBelow g.automaton.size_pos]
    apply congrArg Set.encard
    ext w
    exact and_congr_left fun _ => Nat.lt_succ_iff.symm
  · intro n
    rw [(g.validLengths_eq n).1]
    refine ⟨List.pairwise_lt_range.filter _, ?_⟩
    intro k
    have hk : (g.automaton.words k Automaton.initial).length ≠ 0 ↔
        ∃ w ∈ g.automaton.language, w.length = k := by
      rw [Ne, Automaton.length_words_eq_zero_iff g.automaton.size_pos]
      simp only [not_forall, not_not, exists_prop]
      rfl
    rw [List.mem_filter, List.mem_range, decide_eq_true_eq, hk, Nat.lt_succ_iff]
  · intro stem k hstem
    obtain ⟨s, hs⟩ := Automaton.exists_run_iff.2 hstem
    exact ⟨_, countCompletions_of_run hs, encard_completions hs k⟩
  · intro front c rest k hfront hc
    rw [countCompletions, Automaton.run_of_not_mem hfront hc]
    rfl

theorem counts_exact_plus :
    let b := (((Builder.start 0 (.ofList ['a'])).connect 0 0 1).markFinal 1).connect 1 0 1
    ∃ a, b.build = .ok a ∧ Reachable a ((ofAutomaton a).perform (.extendTo 2)) ∧
      {w | w.length ≤ 3 ∧ w ∈ a.language}.encard = 3 := by
  have hcount : ((((Builder.start 0 (.ofList ['a'])).connect 0 0 1).markFinal 1).connect 1 0 1
      |>.build.map fun a => (((ofAutomaton a).perform (.extendTo 2)).countUpTo 3).value.1) =
      .ok 3 := by decide +kernel
  cases h : ((((Builder.start 0 (.ofList ['a'])).connect 0 0 1).markFinal 1).connect 1 0 1).build with
  | error e =>
    rw [h] at hcount
    contradiction
  | ok a =>
    rw [h] at hcount
    have hthree : (((ofAutomaton a).perform (.extendTo 2)).countUpTo 3).value.1 = 3 :=
      Except.ok.inj hcount
    have hg : Reachable a ((ofAutomaton a).perform (.extendTo 2)) := .perform .start _
    refine ⟨a, h, hg, ?_⟩
    rw [hg.counts_exact.2.2.2.1 3, hthree]
    rfl

end History

end Counts

end Residual
