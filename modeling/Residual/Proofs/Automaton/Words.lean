import Mathlib.Data.Set.Card
import Residual.Proofs.Automaton.Language

/-!
This module contains the list of the words of one length that are accepted from a state. Words that
begin with different symbols take different edges, and the edges are in the order of the alphabet.
-/

namespace Residual

namespace Alphabet

def Before (a : Alphabet) (v w : List Char) : Prop :=
  ∃ i j, a.encode v = .ok i ∧ a.encode w = .ok j ∧ i < j

def Precedes (a : Alphabet) (v w : List Char) : Prop :=
  v.length < w.length ∨ v.length = w.length ∧ a.Before v w

variable {a : Alphabet} {c d : Char} {v w : List Char} {k m : Nat}

theorem encode_cons {i : List Nat} (hc : a.index c = .ok k) (hw : a.encode w = .ok i) :
    a.encode (c :: w) = .ok (k :: i) := by
  rw [encode] at hw
  rw [encode, List.mapM_cons, hc, hw]
  rfl

theorem exists_encode (h : ∀ c ∈ w, c ∈ a) : ∃ i, a.encode w = .ok i := by
  induction w with
  | nil => exact ⟨[], rfl⟩
  | cons c w ih =>
    obtain ⟨hc, hw⟩ := List.forall_mem_cons.1 h
    obtain ⟨k, hk, _⟩ := index_of_mem hc
    obtain ⟨i, hi⟩ := ih hw
    exact ⟨k :: i, encode_cons hk hi⟩

theorem Before.cons (h : a.Before v w) (hc : c ∈ a) : a.Before (c :: v) (c :: w) := by
  obtain ⟨i, j, hi, hj, hlt⟩ := h
  obtain ⟨k, hk, _⟩ := index_of_mem hc
  exact ⟨k :: i, k :: j, encode_cons hk hi, encode_cons hk hj, List.Lex.cons hlt⟩

end Alphabet

theorem encard_eq_length_of_nodup {α : Type} {l : List α} (hl : l.Nodup) {S : Set α}
    (h : ∀ x, x ∈ S ↔ x ∈ l) : S.encard = l.length := by
  classical
  have hS : S = (l.toFinset : Set α) := by
    ext x
    rw [h, Finset.mem_coe, List.mem_toFinset]
  rw [hS, Set.encard_coe_eq_coe_finsetCard, List.toFinset_card_of_nodup hl]

namespace Automaton

def words (a : Automaton) : Nat → StateId → List (List Char)
  | 0, s => if a.accepting s then [[]] else []
  | k + 1, s => (a.edges s).flatMap fun e => (a.words k e.2).map (e.1 :: ·)

variable {a : Automaton} {s : StateId} {k : Nat} {w : List Char}

theorem lt_of_mem_edges {e : Char × StateId} (h : e ∈ a.edges s) : e.2 < a.numStates := by
  have hzip : (e.1, e.2) ∈ a.alphabet.symbols.zip (a.successors s) := h
  exact successors_lt (List.of_mem_zip hzip).2

theorem mem_words_iff (hs : s < a.numStates) :
    w ∈ a.words k s ↔ w.length = k ∧ w ∈ a.languageFrom s := by
  induction k generalizing s w with
  | zero =>
    rw [words, List.length_eq_zero_iff]
    constructor
    · intro h
      split at h
      next haccepting =>
        rw [List.mem_singleton.1 h]
        exact ⟨rfl, nil_mem_languageFrom_iff.2 haccepting⟩
      · contradiction
    · rintro ⟨rfl, h⟩
      rw [if_pos (nil_mem_languageFrom_iff.1 h)]
      exact List.mem_singleton_self []
  | succ k ih =>
    rw [words, List.mem_flatMap]
    constructor
    · rintro ⟨⟨c, d⟩, hedge, hw⟩
      obtain ⟨v, hv, rfl⟩ := List.mem_map.1 hw
      obtain ⟨hlength, hv⟩ := (ih (lt_of_mem_edges hedge)).1 hv
      refine ⟨congrArg Nat.succ hlength, ?_⟩
      exact cons_mem_languageFrom_iff.2 ⟨d, (mem_edges_iff hs).1 hedge, hv⟩
    · rintro ⟨hlength, hw⟩
      obtain ⟨c, v, rfl⟩ := List.exists_cons_of_length_eq_add_one hlength
      obtain ⟨d, hstep, hv⟩ := cons_mem_languageFrom_iff.1 hw
      refine ⟨(c, d), (mem_edges_iff hs).2 hstep, List.mem_map_of_mem ?_⟩
      exact (ih (lt_of_step hstep)).2 ⟨Nat.succ.inj hlength, hv⟩

theorem pairwise_edges (hs : s < a.numStates) : (a.edges s).Pairwise fun e f => e.1 ≠ f.1 := by
  have hlen : a.alphabet.symbols.length ≤ (a.successors s).length :=
    Nat.le_of_eq (length_successors hs).symm
  apply List.pairwise_map.1
  show ((a.alphabet.symbols.zip (a.successors s)).map Prod.fst).Nodup
  rw [List.map_fst_zip hlen]
  exact a.alphabet.nodup_symbols

theorem nodup_words (hs : s < a.numStates) (k : Nat) : (a.words k s).Nodup := by
  induction k generalizing s with
  | zero =>
    rw [words]
    split
    · exact List.nodup_singleton []
    · exact List.nodup_nil
  | succ k ih =>
    rw [words, List.nodup_flatMap]
    constructor
    · intro e he
      apply (ih (lt_of_mem_edges he)).map
      intro v v' h
      exact (List.cons.inj h).2
    · apply (pairwise_edges hs).imp
      rintro ⟨c, d⟩ ⟨c', d'⟩ hne v hv hv'
      obtain ⟨u, _, rfl⟩ := List.mem_map.1 hv
      obtain ⟨u', _, hu'⟩ := List.mem_map.1 hv'
      exact hne (List.cons.inj hu').1.symm

theorem encard_words (hs : s < a.numStates) (k : Nat) :
    {w | w.length = k ∧ w ∈ a.languageFrom s}.encard = (a.words k s).length :=
  encard_eq_length_of_nodup (nodup_words hs k) fun _ => (mem_words_iff hs).symm

section Order

end Order

section Below

def wordsBelow (a : Automaton) (n : Nat) (s : StateId) : List (List Char) :=
  (List.range n).flatMap fun k => a.words k s

variable {n : Nat}

theorem mem_wordsBelow_iff (hs : s < a.numStates) :
    w ∈ a.wordsBelow n s ↔ w.length < n ∧ w ∈ a.languageFrom s := by
  rw [wordsBelow, List.mem_flatMap]
  simp only [List.mem_range, mem_words_iff hs]
  constructor
  · rintro ⟨k, hk, rfl, hw⟩
    exact ⟨hk, hw⟩
  · rintro ⟨hlt, hw⟩
    exact ⟨w.length, hlt, rfl, hw⟩

theorem nodup_wordsBelow (hs : s < a.numStates) (n : Nat) : (a.wordsBelow n s).Nodup := by
  rw [wordsBelow, List.nodup_flatMap]
  refine ⟨fun k _ => nodup_words hs k, List.nodup_range.imp ?_⟩
  -- words of different lengths are different
  intro k k' hne w hw hw'
  rw [mem_words_iff hs] at hw hw'
  exact hne (hw.1.symm.trans hw'.1)

theorem encard_wordsBelow (hs : s < a.numStates) (n : Nat) :
    {w | w.length < n ∧ w ∈ a.languageFrom s}.encard = (a.wordsBelow n s).length :=
  encard_eq_length_of_nodup (nodup_wordsBelow hs n) fun _ => (mem_wordsBelow_iff hs).symm

theorem finite_length_lt (hs : s < a.numStates) (n : Nat) :
    {w | w.length < n ∧ w ∈ a.languageFrom s}.Finite := by
  apply (a.wordsBelow n s).finite_toSet.subset
  intro w hw
  exact (mem_wordsBelow_iff hs).2 hw

end Below

end Automaton

end Residual
