import Residual.Proofs.Automaton.Words

/-!
This module contains automata whose states are numbered in breadth-first order. The least words that
lead to the states then come in the order of the states, so the numbering depends on nothing but the
transitions.
-/

namespace Residual

theorem lex_append {i j : List Nat} (h : i < j) (hlength : i.length = j.length) (x y : List Nat) :
    i ++ x < j ++ y := by
  induction i generalizing j with
  | nil =>
    rw [List.eq_nil_of_length_eq_zero hlength.symm] at h
    exact absurd h (List.lt_irrefl [])
  | cons k i ih =>
    cases h with
    | rel hlt => exact List.Lex.rel hlt
    | cons h => exact List.Lex.cons (ih h (Nat.succ.inj hlength))

theorem lex_append_left (i : List Nat) {x y : List Nat} (h : x < y) : i ++ x < i ++ y := by
  induction i with
  | nil => exact h
  | cons k i ih => exact List.Lex.cons ih

namespace Alphabet

variable {a : Alphabet} {c d : Char} {u v w : List Char} {i : List Nat} {k m : Nat}

theorem length_encode (h : a.encode w = .ok i) : i.length = w.length := by
  induction w generalizing i with
  | nil =>
    cases h
    rfl
  | cons c w ih =>
    rw [encode, List.mapM_cons] at h
    cases hc : a.index c with
    | error e =>
      rw [hc] at h
      contradiction
    | ok k =>
      rw [hc] at h
      cases hw : w.mapM a.index with
      | error e =>
        simp only [hw] at h
        contradiction
      | ok j =>
        simp only [hw] at h
        cases h
        exact congrArg Nat.succ (ih hw)

theorem encode_snoc (hw : a.encode w = .ok i) (hc : a.index c = .ok k) :
    a.encode (w ++ [c]) = .ok (i ++ [k]) := by
  rw [encode] at hw
  rw [encode, List.mapM_append, hw, List.mapM_cons, hc]
  rfl

theorem Before.snoc (h : a.Before v w) (hlength : v.length = w.length) (hc : c ∈ a) (hd : d ∈ a) :
    a.Before (v ++ [c]) (w ++ [d]) := by
  obtain ⟨i, j, hi, hj, hlt⟩ := h
  obtain ⟨k, hk, _⟩ := index_of_mem hc
  obtain ⟨m, hm, _⟩ := index_of_mem hd
  refine ⟨i ++ [k], j ++ [m], encode_snoc hi hk, encode_snoc hj hm, lex_append hlt ?_ [k] [m]⟩
  rw [length_encode hi, length_encode hj, hlength]

theorem before_snoc_of_index (hw : ∀ b ∈ w, b ∈ a) (hc : a.index c = .ok k)
    (hd : a.index d = .ok m) (hlt : k < m) : a.Before (w ++ [c]) (w ++ [d]) := by
  obtain ⟨i, hi⟩ := exists_encode hw
  exact ⟨i ++ [k], i ++ [m], encode_snoc hi hc, encode_snoc hi hd,
    lex_append_left i (List.Lex.rel hlt)⟩

theorem Before.trans (h : a.Before u v) (h' : a.Before v w) : a.Before u w := by
  obtain ⟨i, j, hi, hj, hlt⟩ := h
  obtain ⟨j', l, hj', hl, hlt'⟩ := h'
  cases hj.symm.trans hj'
  exact ⟨i, l, hi, hl, List.lt_trans hlt hlt'⟩

theorem not_before_self (a : Alphabet) (w : List Char) : ¬a.Before w w := by
  rintro ⟨i, j, hi, hj, hlt⟩
  cases hi.symm.trans hj
  exact List.lt_irrefl i hlt

theorem Precedes.trans (h : a.Precedes u v) (h' : a.Precedes v w) : a.Precedes u w := by
  rcases h with hlt | ⟨heq, h⟩
  · left
    rcases h' with hlt' | ⟨heq', _⟩
    · exact Nat.lt_trans hlt hlt'
    · exact heq' ▸ hlt
  · rcases h' with hlt' | ⟨heq', h'⟩
    · exact .inl (heq ▸ hlt')
    · exact .inr ⟨heq.trans heq', h.trans h'⟩

theorem not_precedes_self (a : Alphabet) (w : List Char) : ¬a.Precedes w w := by
  rintro (hlt | ⟨_, h⟩)
  · exact Nat.lt_irrefl _ hlt
  · exact a.not_before_self w h

theorem Precedes.snoc (h : a.Precedes v w) (hc : c ∈ a) (hd : d ∈ a) :
    a.Precedes (v ++ [c]) (w ++ [d]) := by
  rw [Precedes, List.length_append, List.length_append]
  rcases h with hlt | ⟨heq, h⟩
  · exact .inl (Nat.add_lt_add_right hlt 1)
  · exact .inr ⟨congrArg (· + 1) heq, h.snoc heq hc hd⟩

theorem precedes_snoc_of_index (hw : ∀ b ∈ w, b ∈ a) (hc : a.index c = .ok k)
    (hd : a.index d = .ok m) (hlt : k < m) : a.Precedes (w ++ [c]) (w ++ [d]) := by
  refine .inr ⟨?_, before_snoc_of_index hw hc hd hlt⟩
  rw [List.length_append, List.length_append]
  rfl

end Alphabet

def Earlier (p' k' p k : Nat) : Prop := p' < p ∨ p' = p ∧ k' < k

theorem earlier_trichotomy (p' k' p k : Nat) :
    Earlier p' k' p k ∨ (p' = p ∧ k' = k) ∨ Earlier p k p' k' := by
  unfold Earlier
  omega

namespace Automaton

structure FirstEdge (a : Automaton) (j p k : Nat) : Prop where
  lt : p < j
  target : a.successor? p k = some j
  earlier : ∀ p' k' i, Earlier p' k' p k → a.successor? p' k' = some i → i < j

def BreadthFirst (a : Automaton) : Prop :=
  ∀ j, 0 < j → j < a.numStates → ∃ p k, a.FirstEdge j p k

/-- The least word that leads to a state: no other one is shorter, or as long and before it. -/
structure Accesses (a : Automaton) (i : StateId) (u : List Char) : Prop where
  run_eq : a.run initial u = .ok i
  least : ∀ v, a.run initial v = .ok i → v = u ∨ a.alphabet.Precedes u v

variable {a : Automaton} {i j p q s d : StateId} {k m : Nat} {c : Char} {u v : List Char}

section FirstPath

theorem FirstEdge.earlier_of_lt (hi : a.FirstEdge i q m) (hj : a.FirstEdge j p k) (h : i < j) :
    Earlier q m p k := by
  rcases earlier_trichotomy q m p k with hearlier | ⟨rfl, rfl⟩ | hearlier
  · exact hearlier
  · cases hi.target.symm.trans hj.target
    exact absurd h (Nat.lt_irrefl i)
  · exact absurd (hi.earlier p k j hearlier hj.target) (Nat.lt_asymm h)

theorem FirstEdge.unique (h : a.FirstEdge j q m) (h' : a.FirstEdge j p k) : q = p ∧ m = k := by
  rcases earlier_trichotomy q m p k with hearlier | heq | hearlier
  · exact absurd (h'.earlier q m j hearlier h.target) (Nat.lt_irrefl j)
  · exact heq
  · exact absurd (h.earlier p k j hearlier h'.target) (Nat.lt_irrefl j)

inductive FirstPath (a : Automaton) : StateId → List Char → Prop where
  | root : a.FirstPath initial []
  | edge {j p k : Nat} {c : Char} {u : List Char} (path : a.FirstPath p u)
    (edge : a.FirstEdge j p k) (index : a.alphabet.index c = .ok k) : a.FirstPath j (u ++ [c])

theorem BreadthFirst.exists_firstPath (h : a.BreadthFirst) (hi : i < a.numStates) :
    ∃ u, a.FirstPath i u := by
  induction i using Nat.strongRecOn with
  | ind i ih =>
    rcases Nat.eq_zero_or_pos i with rfl | hpos
    · exact ⟨[], .root⟩
    · obtain ⟨p, k, hedge⟩ := h i hpos hi
      obtain ⟨hp, hk⟩ := lt_of_successor? hedge.target
      obtain ⟨u, hu⟩ := ih p hedge.lt hp
      obtain ⟨c, hc⟩ := exists_index hk
      exact ⟨u ++ [c], .edge hu hedge hc⟩

theorem FirstPath.run_eq (h : a.FirstPath i u) : a.run initial u = .ok i := by
  induction h with
  | root => rfl
  | edge _ hedge hc ih => exact run_snoc ih (step_of_successor? hc hedge.target)

theorem FirstPath.unique (h : a.FirstPath i u) (h' : a.FirstPath i v) : u = v := by
  induction h generalizing v with
  | root =>
    cases h' with
    | root => rfl
    | edge _ hedge _ => exact absurd hedge.lt (Nat.not_lt_zero _)
  | edge _ hedge hc ih =>
    cases h' with
    | root => exact absurd hedge.lt (Nat.not_lt_zero _)
    | edge hpath' hedge' hc' =>
      obtain ⟨rfl, rfl⟩ := hedge.unique hedge'
      rw [Alphabet.index_eq_ok_iff] at hc hc'
      cases hc.symm.trans hc'
      rw [ih hpath']

theorem FirstPath.precedes (h : a.FirstPath i u) (h' : a.FirstPath j v) (hij : i < j) :
    a.alphabet.Precedes u v := by
  induction h' generalizing i u with
  | root => exact absurd hij (Nat.not_lt_zero i)
  | edge hpath' hedge' hc' ih =>
    cases h with
    | root =>
      left
      rw [List.length_append]
      exact Nat.succ_pos _
    | edge hpath hedge hc =>
      rcases hedge.earlier_of_lt hedge' hij with hlt | ⟨rfl, hlt⟩
      · exact (ih hpath hlt).snoc (mem_of_index hc) (mem_of_index hc')
      · rw [hpath.unique hpath']
        exact Alphabet.precedes_snoc_of_index (exists_run_iff.1 ⟨_, hpath'.run_eq⟩) hc hc' hlt

theorem FirstPath.least (hfirst : a.BreadthFirst) (h : a.FirstPath j u)
    (hv : a.run initial v = .ok j) : v = u ∨ a.alphabet.Precedes u v := by
  induction v using List.reverseRecOn generalizing j u with
  | nil =>
    cases hv
    exact .inl (FirstPath.root.unique h)
  | append_singleton v c ih =>
    obtain ⟨q, m, hq, hc, hsuccessor⟩ := of_run_snoc hv
    obtain ⟨u', hu'⟩ := hfirst.exists_firstPath (lt_of_run a.size_pos hq)
    cases h with
    | root =>
      right
      left
      rw [List.length_append]
      exact Nat.succ_pos _
    | @edge _ p k d u hpath hedge hd =>
      have hmem := mem_of_index hc
      have hprefix : v ++ [c] = u' ++ [c] ∨ a.alphabet.Precedes (u' ++ [c]) (v ++ [c]) :=
        (ih hu' hq).imp (congrArg (· ++ [c])) fun hprecedes => hprecedes.snoc hmem hmem
      -- the transition that the word takes last does not come before the first one to the state
      have hlast : u' ++ [c] = u ++ [d] ∨ a.alphabet.Precedes (u ++ [d]) (u' ++ [c]) := by
        rcases earlier_trichotomy p k q m with (hlt | ⟨rfl, hlt⟩) | ⟨rfl, rfl⟩ | hlt
        · exact .inr ((hpath.precedes hu' hlt).snoc (mem_of_index hd) hmem)
        · rw [hpath.unique hu']
          exact .inr (Alphabet.precedes_snoc_of_index (exists_run_iff.1 ⟨_, hu'.run_eq⟩) hd hc hlt)
        · rw [Alphabet.index_eq_ok_iff] at hc hd
          cases hc.symm.trans hd
          rw [hpath.unique hu']
          exact .inl rfl
        · exact absurd (hedge.earlier q m j hlt hsuccessor) (Nat.lt_irrefl j)
      rcases hprefix with heq | hprefix
      · rw [heq]
        exact hlast
      · rcases hlast with heq | hlast
        · exact .inr (heq ▸ hprefix)
        · exact .inr (hlast.trans hprefix)

theorem FirstPath.accesses (hfirst : a.BreadthFirst) (h : a.FirstPath i u) : a.Accesses i u :=
  ⟨h.run_eq, fun _ => h.least hfirst⟩

end FirstPath

section Accesses

theorem Accesses.unique (h : a.Accesses i u) (h' : a.Accesses i v) : u = v := by
  rcases h'.least u h.run_eq with heq | hprecedes
  · exact heq
  rcases h.least v h'.run_eq with heq | hprecedes'
  · exact heq.symm
  · exact absurd (hprecedes.trans hprecedes') (a.alphabet.not_precedes_self v)

theorem BreadthFirst.exists_accesses (h : a.BreadthFirst) (hi : i < a.numStates) :
    ∃ u, a.Accesses i u := by
  obtain ⟨u, hu⟩ := h.exists_firstPath hi
  exact ⟨u, hu.accesses h⟩

theorem BreadthFirst.precedes (h : a.BreadthFirst) (hu : a.Accesses i u) (hv : a.Accesses j v)
    (hij : i < j) : a.alphabet.Precedes u v := by
  obtain ⟨u', hu'⟩ := h.exists_firstPath (lt_of_run a.size_pos hu.run_eq)
  obtain ⟨v', hv'⟩ := h.exists_firstPath (lt_of_run a.size_pos hv.run_eq)
  rw [hu.unique (hu'.accesses h), hv.unique (hv'.accesses h)]
  exact hu'.precedes hv' hij

theorem BreadthFirst.lt_iff_precedes (h : a.BreadthFirst) (hu : a.Accesses i u)
    (hv : a.Accesses j v) : i < j ↔ a.alphabet.Precedes u v := by
  refine ⟨h.precedes hu hv, fun hprecedes => ?_⟩
  rcases Nat.lt_trichotomy i j with hlt | rfl | hlt
  · exact hlt
  · rw [hu.unique hv] at hprecedes
    exact absurd hprecedes (a.alphabet.not_precedes_self v)
  · exact absurd (hprecedes.trans (h.precedes hv hu hlt)) (a.alphabet.not_precedes_self u)

end Accesses

end Automaton

end Residual
