import Residual.Automaton.Reachability
import Residual.Proofs.Automaton.Language
import Residual.Proofs.Search

/-!
This module contains what the tables of reachable and of live states say about words.
-/

namespace Residual

theorem Numbering.getD_table_iff {found : Numbering Nat} {n i : Nat} (hi : i < n) :
    (found.table n).getD i false = true ↔ i ∈ found := by
  have h : (found.table n).getD i false = (found.find? i).isSome := by
    rw [table, Array.getD_eq_getD_getElem?, Array.getElem?_map, Array.getElem?_range]
    simp [hi]
  rw [h, Option.isSome_iff_exists, mem_iff_exists_get?]
  simp only [find?_eq_some_iff]

theorem getD_setIfInBounds {α : Type} (t : Array α) (i j : Nat) (x y : α) :
    (t.setIfInBounds i x).getD j y = if i = j ∧ i < t.size then x else t.getD j y := by
  rw [Array.getD_eq_getD_getElem?, Array.getElem?_setIfInBounds, Array.getD_eq_getD_getElem?]
  by_cases hi : i = j
  · subst hi
    by_cases hlt : i < t.size
    · simp [hlt]
    · simp [hlt]
  · simp [hi]

theorem getElem?_eq_some_iff_getD {t : Array Bool} {i : Nat} {b : Bool} :
    t[i]? = some b ↔ i < t.size ∧ t.getD i false = b := by
  rw [Array.getElem?_eq_some_iff, Array.getD]
  constructor
  · rintro ⟨hi, rfl⟩
    exact ⟨hi, dif_pos hi⟩
  · rintro ⟨hi, rfl⟩
    exact ⟨hi, (dif_pos hi).symm⟩

theorem getElem?_eq_some_iff_of_getD {t : Array Bool} {i : Nat} {b : Bool} {p : Prop}
    (h : i < t.size → (t.getD i false = true ↔ p)) :
    t[i]? = some b ↔ i < t.size ∧ (b = true ↔ p) := by
  rw [getElem?_eq_some_iff_getD]
  apply and_congr_right
  intro hi
  rw [← h hi, Bool.eq_iff_iff]
  exact iff_comm

@[simp]
theorem Numbering.size_table (found : Numbering Nat) (n : Nat) : (found.table n).size = n := by
  rw [table, Array.size_map, Array.size_range]

namespace Automaton

variable {a : Automaton} {s d : StateId}

theorem lt_numStates_of_accepting (h : a.accepting s = true) : s < a.numStates := by
  unfold accepting at h
  split at h
  next state hstate => exact (Array.getElem?_eq_some_iff.1 hstate).1
  · contradiction

theorem mem_finals_iff : s ∈ a.finals ↔ a.accepting s = true := by
  rw [finals, List.mem_filter, List.mem_range]
  constructor
  · exact And.right
  · intro h
    exact ⟨lt_numStates_of_accepting h, h⟩

theorem reachableStates_iff (hs : s < a.numStates) :
    a.reachableStates.getD s false = true ↔ ∃ w, a.run initial w = .ok s := by
  rw [reachableStates, Numbering.getD_table_iff hs, Region.Graph.mem_closure_iff]
  simp only [List.mem_singleton, exists_eq_left]
  exact (exists_run_eq_iff a.size_pos).symm

theorem mem_backward_next_iff (hd : d < a.numStates) :
    s ∈ a.backward.next d ↔ s < a.numStates ∧ d ∈ a.successors s :=
  mem_predecessors hd

theorem backward_reaches_iff (hd : d < a.numStates) :
    Relation.ReflTransGen (fun d s => s ∈ a.backward.next d) d s ↔
      s < a.numStates ∧ Relation.ReflTransGen (fun s d => d ∈ a.successors s) s d := by
  constructor
  · intro h
    induction h with
    | refl => exact ⟨hd, .refl⟩
    | tail _ hnext ih =>
      obtain ⟨hlt, hpath⟩ := ih
      obtain ⟨hs, hmem⟩ := (mem_backward_next_iff hlt).1 hnext
      exact ⟨hs, hpath.head hmem⟩
  · rintro ⟨hs, h⟩
    induction h using Relation.ReflTransGen.head_induction_on with
    | refl => exact .refl
    | head hmem _ ih =>
      have hlt := successors_lt hmem
      exact (ih hlt).tail ((mem_backward_next_iff hlt).2 ⟨hs, hmem⟩)

theorem liveStates_iff (hs : s < a.numStates) :
    a.liveStates.getD s false = true ↔ ∃ w, w ∈ a.languageFrom s := by
  rw [liveStates, Numbering.getD_table_iff hs]
  apply Region.Graph.mem_closure_iff.trans
  constructor
  · rintro ⟨d, hd, hpath⟩
    obtain ⟨_, hpath⟩ := (backward_reaches_iff (lt_of_mem_finals hd)).1 hpath
    obtain ⟨w, hw⟩ := (exists_run_eq_iff hs).2 hpath
    exact ⟨w, d, hw, mem_finals_iff.1 hd⟩
  · rintro ⟨w, d, hw, hd⟩
    refine ⟨d, mem_finals_iff.2 hd, ?_⟩
    apply (backward_reaches_iff (lt_numStates_of_accepting hd)).2
    exact ⟨hs, (exists_run_eq_iff hs).1 ⟨w, hw⟩⟩

theorem isEmpty_iff : a.isEmpty = true ↔ ∀ w, w ∉ a.language := by
  rw [isEmpty, isDead, Bool.not_eq_true', ← Bool.not_eq_true, liveStates_iff a.size_pos, not_exists]
  rfl

theorem size_liveStates (a : Automaton) : a.liveStates.size = a.numStates := Numbering.size_table ..

theorem size_reachableStates (a : Automaton) : a.reachableStates.size = a.numStates :=
  Numbering.size_table ..

theorem getElem?_liveStates_iff {b : Bool} : a.liveStates[s]? = some b ↔
    s < a.numStates ∧ (b = true ↔ ∃ w, w ∈ a.languageFrom s) := by
  rw [← size_liveStates]
  exact getElem?_eq_some_iff_of_getD fun hs => liveStates_iff (a.size_liveStates ▸ hs)

theorem getElem?_reachableStates_iff {b : Bool} : a.reachableStates[s]? = some b ↔
    s < a.numStates ∧ (b = true ↔ ∃ w, a.run initial w = .ok s) := by
  rw [← size_reachableStates]
  exact getElem?_eq_some_iff_of_getD fun hs => reachableStates_iff (a.size_reachableStates ▸ hs)

/--
The table of live states has one entry for each state, which tells whether some word leads from it to
an accepting state; that of reachable states tells whether some word leads to it from the initial
state. A dead state is one that is not live, and an automaton is empty if it accepts no word.
-/
theorem liveness_exact (a : Automaton) :
    (∀ s b, a.liveStates[s]? = some b ↔
      s < a.numStates ∧ (b = true ↔ ∃ w d, a.run s w = .ok d ∧ a.accepting d = true)) ∧
    (∀ s b, a.reachableStates[s]? = some b ↔
      s < a.numStates ∧ (b = true ↔ ∃ w, a.run initial w = .ok s)) ∧
    (∀ s < a.numStates, a.liveStates[s]? = some (!a.isDead s)) ∧
    (a.isEmpty = true ↔ ∀ w, a.accepts w ≠ .ok true) := by
  refine ⟨fun _ _ => getElem?_liveStates_iff, fun _ _ => getElem?_reachableStates_iff, ?_, ?_⟩
  · intro s hs
    rw [getElem?_eq_some_iff_getD, size_liveStates, isDead, Bool.not_not]
    exact ⟨hs, rfl⟩
  · rw [isEmpty_iff]
    exact forall_congr' fun _ => not_congr accepts_eq_ok_true_iff.symm

end Automaton

end Residual
