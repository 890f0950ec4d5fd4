import Mathlib.Logic.Relator
import Residual.Proofs.Builder
import Residual.Worklist

/-!
This module contains numberings, worklists and builders that match: their elements differ, but
position by position a relation holds between them. As long as the relation is one-to-one, the same
calls with related elements keep them matching.
-/

namespace Residual

open Std

namespace Numbering

variable {α β : Type} [Ord α] [Ord β] {r r' : α → β → Prop} {m : Numbering α} {n : Numbering β}
  {x : α} {y : β} {i : Nat}

structure Matches (r : α → β → Prop) (m : Numbering α) (n : Numbering β) : Prop where
  size_eq : m.size = n.size
  rel : ∀ i x y, m.get? i = some x → n.get? i = some y → r x y

theorem Matches.mono (h : m.Matches r n) (hr : ∀ x y, r x y → r' x y) : m.Matches r' n :=
  ⟨h.size_eq, fun i x y hx hy => hr x y (h.rel i x y hx hy)⟩

theorem Matches.get?_iff (h : m.Matches r n) (hr : Relator.BiUnique r) (hxy : r x y) :
    m.get? i = some x ↔ n.get? i = some y := by
  constructor
  · intro hx
    obtain ⟨y', hy⟩ := get?_of_lt (h.size_eq ▸ lt_size_of_get? hx)
    rw [hy, hr.2 (h.rel i x y' hx hy) hxy]
  · intro hy
    obtain ⟨x', hx⟩ := get?_of_lt (h.size_eq.symm ▸ lt_size_of_get? hy)
    rw [hx, hr.1 (h.rel i x' y hx hy) hxy]

theorem Matches.find?_eq (h : m.Matches r n) (hr : Relator.BiUnique r) (hxy : r x y) :
    m.find? x = n.find? y := by
  apply Option.ext
  intro i
  rw [find?_eq_some_iff, find?_eq_some_iff]
  exact h.get?_iff hr hxy

variable [TransOrd α] [LawfulEqOrd α] [TransOrd β] [LawfulEqOrd β]

theorem Matches.push (h : m.Matches r n) (hxy : r x y) (hx : m.find? x = none)
    (hy : n.find? y = none) : (m.push x hx).Matches r (n.push y hy) := by
  constructor
  · rw [size_push, size_push, h.size_eq]
  · intro i x' y' hx' hy'
    rw [get?_push] at hx' hy'
    rw [h.size_eq] at hx'
    split at hx'
    next hi =>
      rw [if_pos hi] at hy'
      cases hx'
      cases hy'
      exact hxy
    next hi =>
      rw [if_neg hi] at hy'
      exact h.rel i x' y' hx' hy'

end Numbering

section Worklist

variable {α β : Type} [Ord α] [Ord β] {r : α → β → Prop} {p p' : Worklist α} {q : Worklist β} {x : α}

structure Worklist.Matches (r : α → β → Prop) (p : Worklist α) (q : Worklist β) : Prop where
  seen : p.seen.Matches r q.seen
  cursor_eq : p.cursor = q.cursor

theorem Worklist.Matches.pop (h : p.Matches r q) (hp : p.pop = some (x, p')) :
    ∃ y q', q.pop = some (y, q') ∧ r x y ∧ p'.Matches r q' := by
  have hlt : q.cursor < q.seen.toArray.size := by
    have hp := cursor_lt_of_pop hp
    rw [h.cursor_eq, numSeen, h.seen.size_eq] at hp
    exact hp
  have hq : q.pop = some (q.seen.toArray[q.cursor],
      { q with cursor := q.cursor + 1, cursor_le := hlt }) := by
    rw [Worklist.pop, dif_pos hlt]
  have hx := get?_cursor_of_pop hp
  rw [h.cursor_eq] at hx
  refine ⟨_, _, hq, h.seen.rel _ _ _ hx (get?_cursor_of_pop hq), ?_, ?_⟩
  · rw [seen_of_pop hp]
    exact h.seen
  · rw [cursor_of_pop hp, h.cursor_eq]

theorem Worklist.Matches.pop_none (h : p.Matches r q) (hp : p.pop = none) : q.pop = none := by
  have hcursor := cursor_of_pop_none hp
  rw [h.cursor_eq, numSeen, h.seen.size_eq] at hcursor
  rw [Worklist.pop, dif_neg]
  exact Nat.not_lt_of_le (Nat.le_of_eq hcursor.symm)

end Worklist

namespace Builder

variable {κ μ : Type} [Ord κ] [Ord μ] {r r' : κ → μ → Prop} {b : Builder κ} {c : Builder μ}

structure Matches (r : κ → μ → Prop) (b : Builder κ) (c : Builder μ) : Prop where
  alphabet_eq : b.alphabet = c.alphabet
  keys : b.keys.Matches r c.keys
  drafts_eq : b.drafts = c.drafts

theorem Matches.mono (h : b.Matches r c) (hr : ∀ x y, r x y → r' x y) : b.Matches r' c :=
  ⟨h.alphabet_eq, h.keys.mono hr, h.drafts_eq⟩

theorem Matches.modify (h : b.Matches r c) {i : StateId} {f : Draft → Draft} {hf hf'} :
    (b.modify i f hf).Matches r (c.modify i f hf') :=
  ⟨h.alphabet_eq, h.keys, congrArg (·.modify i f) h.drafts_eq⟩

theorem Matches.build_eq (h : b.Matches r c) : b.build = c.build := by
  obtain ⟨alphabet, keys, drafts, _, _, _⟩ := b
  obtain ⟨alphabet', keys', drafts', _, _, _⟩ := c
  obtain rfl : alphabet = alphabet' := h.alphabet_eq
  obtain rfl : drafts = drafts' := h.drafts_eq
  rfl

variable [TransOrd κ] [LawfulEqOrd κ] [TransOrd μ] [LawfulEqOrd μ] {x t : κ} {y u : μ}

theorem Matches.mention (h : b.Matches r c) (hr : Relator.BiUnique r) (hxy : r x y) :
    (b.mention x).1 = (c.mention y).1 ∧ (b.mention x).2.Matches r (c.mention y).2 := by
  have hfind := h.keys.find?_eq hr hxy
  unfold Builder.mention
  split
  next i hi =>
    split
    next j hj =>
      refine ⟨?_, h⟩
      rw [hi, hj] at hfind
      exact Option.some.inj hfind
    next hj =>
      rw [hi, hj] at hfind
      contradiction
  next hi =>
    split
    next j hj =>
      rw [hi, hj] at hfind
      contradiction
    next hj =>
      refine ⟨congrArg Array.size h.drafts_eq, h.alphabet_eq, h.keys.push hxy hi hj, ?_⟩
      dsimp only
      rw [h.drafts_eq, h.alphabet_eq]

theorem Matches.markFinal (h : b.Matches r c) (hr : Relator.BiUnique r) (hxy : r x y) :
    (b.markFinal x).Matches r (c.markFinal y) := by
  obtain ⟨hid, hmention⟩ := h.mention hr hxy
  simp only [Builder.markFinal, hid]
  exact hmention.modify

theorem Matches.connect (h : b.Matches r c) (hr : Relator.BiUnique r) (hxy : r x y) (k : Nat)
    (htu : r t u) : (b.connect x k t).Matches r (c.connect y k u) := by
  obtain ⟨hid, hmention⟩ := h.mention hr hxy
  obtain ⟨hid', hmention'⟩ := hmention.mention hr htu
  simp only [Builder.connect, setNext, hid, hid']
  exact hmention'.modify

end Builder

end Residual
