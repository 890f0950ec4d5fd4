import Residual.Automaton.Builder

/-!
This module contains what the calls to a builder change: the keys, the draft of one state and nothing
else.
-/

namespace Residual

open Std

namespace Numbering

variable {α : Type} [Ord α] [TransOrd α] [LawfulEqOrd α]

theorem number_of_get? {n : Numbering α} {x : α} {i : Nat} (h : n.get? i = some x) :
    n.number x = (i, n) := by
  rw [← find?_eq_some_iff] at h
  unfold number
  split
  next j hj =>
    rw [Option.some.inj (hj.symm.trans h)]
  next hnone =>
    rw [h] at hnone
    contradiction

theorem number_of_not_mem {n : Numbering α} {x : α} (h : n.find? x = none) :
    n.number x = (n.size, n.push x h) := by
  unfold number
  split
  next j hj =>
    rw [h] at hj
    contradiction
  · rfl

theorem get?_number_self (n : Numbering α) (x : α) :
    (n.number x).2.get? (n.number x).1 = some x := by
  unfold number
  split
  next i h => exact find?_eq_some_iff.1 h
  next h => rw [get?_push, if_pos rfl]

theorem get?_number_of_get? {n : Numbering α} {x y : α} {i : Nat} (h : n.get? i = some y) :
    (n.number x).2.get? i = some y := by
  unfold number
  split
  · exact h
  next hx => exact get?_push_of_get? hx h

theorem mem_number {n : Numbering α} {x y : α} : y ∈ (n.number x).2 ↔ y ∈ n ∨ y = x := by
  unfold number
  split
  next i h =>
    have hx : x ∈ n := mem_of_get? (find?_eq_some_iff.1 h)
    constructor
    · exact Or.inl
    · rintro (hy | rfl)
      · exact hy
      · exact hx
  next h => exact mem_push (h := h)

end Numbering

theorem getElem?_flatMap_of_length {α β : Type} {l : List α} {f : α → List β} {n : Nat}
    (h : ∀ x ∈ l, (f x).length = n) {i k : Nat} (hk : k < n) :
    (l.flatMap f)[i * n + k]? = l[i]?.bind fun x => (f x)[k]? := by
  induction l generalizing i with
  | nil => rfl
  | cons x l ih =>
    obtain ⟨hx, hl⟩ := List.forall_mem_cons.1 h
    rw [List.flatMap_cons]
    cases i with
    | zero =>
      rw [Nat.zero_mul, Nat.zero_add, List.getElem?_append_left (hx ▸ hk)]
      rfl
    | succ i =>
      have hrow : (i + 1) * n + k = n + (i * n + k) := by
        rw [Nat.succ_mul]
        omega
      rw [hrow, List.getElem?_append_right (hx ▸ Nat.le_add_right ..), hx, Nat.add_sub_cancel_left,
        List.getElem?_cons_succ, ih hl]

theorem Draft.isComplete_iff (d : Draft) :
    d.isComplete = true ↔ ∀ k < d.next.size, d.next[k]? ≠ some none := by
  rw [isComplete, Array.all_eq_true]
  apply forall₂_congr
  intro k hk
  rw [Array.getElem?_eq_getElem hk, ne_eq, Option.some.injEq, Option.isSome_iff_ne_none]

namespace Builder

section Basic

variable {κ : Type} [Ord κ]

theorem exists_draft {b : Builder κ} {key : κ} {i : StateId} (h : b.keys.get? i = some key) :
    ∃ d, b.drafts[i]? = some d := by
  have hlt := Numbering.lt_size_of_get? h
  rw [← b.size_drafts] at hlt
  exact ⟨_, Array.getElem?_eq_getElem hlt⟩

theorem exists_key {b : Builder κ} {i : StateId} {d : Draft} (h : b.drafts[i]? = some d) :
    ∃ key, b.keys.get? i = some key := by
  obtain ⟨hlt, _⟩ := Array.getElem?_eq_some_iff.1 h
  rw [b.size_drafts] at hlt
  exact ⟨_, Array.getElem?_eq_getElem hlt⟩

theorem getElem?_drafts_modify {b : Builder κ} {i : StateId} {f : Draft → Draft} {hf} (j : StateId) :
    (b.modify i f hf).drafts[j]? = if i = j then b.drafts[j]?.map f else b.drafts[j]? :=
  Array.getElem?_modify

theorem build_eq_error_iff {b : Builder κ} {i : StateId} : b.build = .error (.missingTransition i) ↔
    b.drafts.findIdx? (fun d => !d.isComplete) = some i := by
  unfold build
  split
  next j hj => rw [hj, Except.error.injEq, Error.missingTransition.injEq, Option.some.injEq]
  next hnone =>
    rw [hnone]
    exact iff_of_false nofun nofun

theorem getElem?_flatMap_targets {b : Builder κ} (i : StateId) {k : Nat} (hk : k < b.alphabet.size) :
    (b.drafts.flatMap Draft.targets)[i * b.alphabet.size + k]? =
      b.drafts[i]?.bind fun d => d.targets[k]? := by
  have hrows : ∀ d ∈ b.drafts.toList, d.targets.toList.length = b.alphabet.size := by
    intro d hd
    exact (b.fits d (Array.mem_def.2 hd)).size_targets
  rw [← Array.getElem?_toList, Array.toList_flatMap, getElem?_flatMap_of_length hrows hk,
    Array.getElem?_toList]
  simp only [Array.getElem?_toList]

structure Makes (b : Builder κ) (auto : Automaton) : Prop where
  alphabet_eq : auto.alphabet = b.alphabet
  states_eq : auto.states = b.drafts.map Draft.toState
  successor?_eq : ∀ i d k, b.drafts[i]? = some d → auto.successor? i k = d.targets[k]?

theorem makes_of_build {b : Builder κ} {auto : Automaton} (h : b.build = .ok auto) :
    b.Makes auto := by
  unfold build at h
  split at h
  · contradiction
  · cases h
    refine ⟨rfl, rfl, fun i d k hd => ?_⟩
    rw [Automaton.successor?]
    split
    next hk => rw [getElem?_flatMap_targets i hk, hd, Option.bind_some]
    next hk =>
      symm
      apply Array.getElem?_eq_none
      rw [(b.fits d (Array.mem_of_getElem? hd)).size_targets]
      exact Nat.le_of_not_lt hk

theorem exists_build_eq_ok {b : Builder κ} (h : ∀ d ∈ b.drafts, d.isComplete = true) :
    ∃ auto, b.build = .ok auto := by
  unfold build
  split
  next i hi =>
    obtain ⟨hlt, hd, _⟩ := Array.findIdx?_eq_some_iff_getElem.1 hi
    rw [h _ (Array.getElem_mem hlt)] at hd
    contradiction
  · exact ⟨_, rfl⟩

theorem Makes.numStates_eq {b : Builder κ} {auto : Automaton} (h : b.Makes auto) :
    auto.numStates = b.keys.size := by
  rw [Automaton.numStates, h.states_eq, Array.size_map, b.size_drafts]

end Basic

variable {κ : Type} [Ord κ] [TransOrd κ] [LawfulEqOrd κ]

section Mention

theorem mention_of_get? {b : Builder κ} {key : κ} {i : StateId} (h : b.keys.get? i = some key) :
    b.mention key = (i, b) := by
  have hfind := Numbering.find?_eq_some_iff.2 h
  unfold mention
  split
  next j hj => rw [Option.some.inj (hj.symm.trans hfind)]
  next hnone =>
    rw [hfind] at hnone
    contradiction

theorem number_eq_mention (b : Builder κ) (key : κ) :
    b.keys.number key = ((b.mention key).1, (b.mention key).2.keys) := by
  unfold mention
  split
  next i h => exact Numbering.number_of_get? (Numbering.find?_eq_some_iff.1 h)
  next h =>
    rw [Numbering.number_of_not_mem h, b.size_drafts]

theorem fst_mention (b : Builder κ) (key : κ) : (b.mention key).1 = (b.keys.number key).1 := by
  rw [number_eq_mention]

theorem keys_mention (b : Builder κ) (key : κ) :
    (b.mention key).2.keys = (b.keys.number key).2 := by
  rw [number_eq_mention]

theorem alphabet_mention (b : Builder κ) (key : κ) : (b.mention key).2.alphabet = b.alphabet := by
  unfold mention
  split <;> rfl

theorem getElem?_drafts_mention (b : Builder κ) (key : κ) {i : StateId} {d : Draft}
    (h : (b.mention key).2.drafts[i]? = some d) :
    b.drafts[i]? = some d ∨ b.drafts[i]? = none ∧ d = .blank b.alphabet.size := by
  unfold mention at h
  split at h
  · exact Or.inl h
  · rw [Array.getElem?_push] at h
    split at h
    next hi =>
      right
      exact ⟨Array.getElem?_eq_none (Nat.le_of_eq hi.symm), (Option.some.inj h).symm⟩
    · exact Or.inl h

theorem getElem?_drafts_mention_of_some {b : Builder κ} {key : κ} {i : StateId} {d : Draft}
    (h : b.drafts[i]? = some d) : (b.mention key).2.drafts[i]? = some d := by
  unfold mention
  split
  · exact h
  · obtain ⟨hi, _⟩ := Array.getElem?_eq_some_iff.1 h
    rw [Array.getElem?_push, if_neg (Nat.ne_of_lt hi), h]

theorem get?_mention {b : Builder κ} {key : κ} {i : StateId} (h : b.keys.get? i = some key)
    (target : κ) : (b.mention target).2.keys.get? i = some key := by
  rw [keys_mention]
  exact Numbering.get?_number_of_get? h

theorem get?_mention_self (b : Builder κ) (key : κ) :
    (b.mention key).2.keys.get? (b.mention key).1 = some key := by
  rw [keys_mention, fst_mention]
  exact Numbering.get?_number_self b.keys key

end Mention

section Calls

variable {b : Builder κ} {key : κ} {i : StateId}

theorem keys_markFinal (h : b.keys.get? i = some key) : (b.markFinal key).keys = b.keys := by
  show (b.mention key).2.keys = b.keys
  rw [mention_of_get? h]

theorem alphabet_markFinal (b : Builder κ) (key : κ) : (b.markFinal key).alphabet = b.alphabet :=
  b.alphabet_mention key

theorem getElem?_drafts_markFinal (h : b.keys.get? i = some key) (j : StateId) :
    (b.markFinal key).drafts[j]? =
      if i = j then b.drafts[j]?.map fun d => { d with accepting := true } else b.drafts[j]? := by
  rw [markFinal, getElem?_drafts_modify, mention_of_get? h]

theorem keys_connect (h : b.keys.get? i = some key) (k : Nat) (target : κ) :
    (b.connect key k target).keys = (b.keys.number target).2 := by
  show ((b.mention key).2.mention target).2.keys = (b.keys.number target).2
  rw [keys_mention, mention_of_get? h]

theorem alphabet_connect (b : Builder κ) (key : κ) (k : Nat) (target : κ) :
    (b.connect key k target).alphabet = b.alphabet := by
  show ((b.mention key).2.mention target).2.alphabet = b.alphabet
  rw [alphabet_mention, alphabet_mention]

theorem getElem?_drafts_connect (h : b.keys.get? i = some key) (k : Nat) (target : κ) (j : StateId) :
    (b.connect key k target).drafts[j]? =
      if i = j then (b.mention target).2.drafts[j]?.map fun d =>
        { d with next := d.next.setIfInBounds k (some (b.keys.number target).1) }
      else (b.mention target).2.drafts[j]? := by
  simp only [connect, setNext, getElem?_drafts_modify]
  rw [mention_of_get? h]
  simp only [fst_mention]

end Calls

end Builder

end Residual
