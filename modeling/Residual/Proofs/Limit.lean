import Residual.Proofs.Query
import Residual.Proofs.Termination

/-!
This module contains the limit on the number of states. A construction fails exactly when there are
more residuals than the limit admits, where a limit of zero admits as many as a limit of one: the
term itself is never counted against the limit.
-/

namespace Residual

open Workspace

namespace Session

variable {w : Workspace} {e d : TermId} {a : Alphabet}

/-- Whether a session asks for the derivatives of `e` by all words over an alphabet. -/
def AsksAll (session : Session w) (e : TermId) (a : Alphabet) : Prop :=
  ∀ word, (∀ c ∈ word, c ∈ a) →
    ∃ i d, (session.state i).wordDerivative e word = (d, session.state (i + 1))

def asking (w : Workspace) (e : TermId) (word : Nat → List Char) : Nat → Workspace
  | 0 => w
  | i + 1 => ((asking w e word i).wordDerivative e (word i)).2

theorem learns_asking (hw : w.Sound) (he : e < w.numTerms) (word : Nat → List Char) (i : Nat) :
    w.Learns (asking w e word i) := by
  induction i with
  | zero => exact .refl hw
  | succ i ih =>
    exact ih.trans (derives_wordDerivative ih.sound (ih.ext.lt_size he) (word i)).learns

theorem exists_asksAll (hw : w.Sound) (he : e < w.numTerms) (a : Alphabet) :
    ∃ session : Session w, session.AsksAll e a := by
  have hchar : Function.Injective Char.toNat := fun _ _ => Char.toNat_inj.1
  have := hchar.countable
  obtain ⟨word, hword⟩ := exists_surjective_nat (List Char)
  refine ⟨⟨asking w e word, rfl, ?_⟩, ?_⟩
  · intro i
    refine ⟨.wordDerivative e (word i), ?_, rfl⟩
    intro t ht
    rw [List.mem_singleton.1 ht]
    exact (learns_asking hw he word i).ext.lt_size he
  · intro v _
    obtain ⟨i, rfl⟩ := hword v
    exact ⟨i, _, rfl⟩

theorem encard_residuals (session : Session w) (hw : w.Sound) (he : e < w.numTerms)
    (hall : session.AsksAll e a) :
    (session.residuals e a).encard = ((w.store.tree e).residuals a).encard := by
  -- different ids stand for different trees
  rw [← (session.injOn_tree hw he).encard_image]
  apply congrArg Set.encard
  apply Set.Subset.antisymm
  · rintro _ ⟨d, hd, rfl⟩
    exact session.tree_mem_residuals hw he hd
  · rintro _ ⟨word, hword, rfl⟩
    obtain ⟨i, d, hd⟩ := hall word hword
    exact ⟨d, ⟨i, word, hword, hd⟩, (session.tree_wordDerivative hw he hd).2⟩

end Session

theorem Construction.Overflows.lt_encard_residuals {room : Nat} {w : Workspace} {e : TermId}
    {a : Alphabet} {x : Construction room} (h : x.Overflows w e a) :
    room < ((w.store.tree e).residuals a).encard := by
  obtain ⟨ts, hts, hlength, hresidual⟩ := h.many
  have hle := length_le_encard_residuals h.learns.sound hts hresidual
  exact lt_of_lt_of_le (Nat.cast_lt.2 hlength) hle

namespace Workspace

variable {w : Workspace} {e : TermId} {a : Alphabet}

theorem Represents.encard_residuals {auto : Automaton} (h : w.Represents e a auto) (hw : w.Sound) :
    ((w.store.tree e).residuals a).encard = auto.numStates := by
  have hget : ∀ i t, auto.term? i = some t → (auto.term? i).getD Store.empty = t := by
    intro i t ht
    rw [ht, Option.getD_some]
  rw [← Finset.card_range auto.numStates, ← Set.encard_coe_eq_coe_finsetCard]
  have hinj : Set.InjOn (fun i => w.store.tree ((auto.term? i).getD Store.empty))
      (Finset.range auto.numStates) := by
    intro i hi j hj heq
    obtain ⟨t, ht⟩ := h.exists_term i (Finset.mem_range.1 hi)
    obtain ⟨u, hu⟩ := h.exists_term j (Finset.mem_range.1 hj)
    simp only [hget i t ht, hget j u hu] at heq
    obtain rfl := hw.wellFormed.tree_inj (h.lt_numTerms i t ht) (h.lt_numTerms j u hu) heq
    exact h.term?_inj i j t ht hu
  rw [← hinj.encard_image]
  apply congrArg Set.encard
  apply Set.Subset.antisymm
  · rintro _ ⟨word, hword, rfl⟩
    obtain ⟨j, u, _, hu, hderivative⟩ := h.run h.root hword
    have hderives := derives_wordDerivative hw (h.lt_numTerms _ e h.root) word
    rw [hderivative] at hderives
    refine ⟨j, Finset.mem_coe.2 (Finset.mem_range.2 (Automaton.lt_numStates_of_term? hu)), ?_⟩
    simp only [hget j u hu]
    exact hderives.tree_eq
  · rintro _ ⟨i, hi, rfl⟩
    obtain ⟨t, ht⟩ := h.exists_term i (Finset.mem_range.1 hi)
    obtain ⟨_, word, hword, htree⟩ := h.residual i t ht
    simp only [hget i t ht]
    exact ⟨word, hword, htree.symm⟩

inductive Counted (w : Workspace) (n : ℕ∞) : Except Error Automaton → Prop where
  | tooMany (h : (max 1 w.maxStates : Nat) < n) : w.Counted n (.error (.tooManyStates w.maxStates))
  | all {auto : Automaton} (numStates_eq : n = auto.numStates)
    (numStates_le : auto.numStates ≤ max 1 w.maxStates) : w.Counted n (.ok auto)

theorem counted_compile (hw : w.Sound) (he : e < w.numTerms)
    (hcovers : ∀ c, w.store.Mentions e c → c ∈ a) :
    w.Counted ((w.store.tree e).residuals a).encard (w.compile e a).value.1 := by
  have h := compiles_compile hw he a
  generalize (w.compile e a).value = r at h
  cases h with
  | outside mem not_mem => exact absurd (hcovers _ (Store.mem_symbolsOf_iff.1 mem)) not_mem
  | overflow h => exact .tooMany h.lt_encard_residuals
  | done learns represents =>
    apply Counted.all
    · rw [← learns.ext.tree_eq he]
      exact represents.encard_residuals learns.sound
    · rw [← learns.maxStates_eq]
      exact represents.numStates_le

/--
The construction of an automaton is given up if and only if a session that asks for the derivatives by
all words gets more ids than the limit admits. Otherwise there are as many states as ids. The term
itself is not counted against the limit, so a limit of zero admits a single state.
-/
theorem Reachable.limit_exact (hw : w.Reachable) (he : e < w.numTerms)
    (hcovers : ∀ c, w.store.Mentions e c → c ∈ a) :
    (∃ session : Session w, session.AsksAll e a) ∧
    ∀ session : Session w, session.AsksAll e a →
      ((w.compile e a).value.1 = .error (.tooManyStates w.maxStates) ↔
        (max 1 w.maxStates : Nat) < (session.residuals e a).encard) ∧
      ∀ auto, (w.compile e a).value.1 = .ok auto →
        (session.residuals e a).encard = auto.numStates ∧ auto.numStates ≤ max 1 w.maxStates := by
  refine ⟨Session.exists_asksAll hw.sound he a, ?_⟩
  intro session hall
  have h := counted_compile hw.sound he hcovers
  rw [← session.encard_residuals hw.sound he hall] at h
  generalize (w.compile e a).value.1 = r at h
  cases h with
  | tooMany h =>
    refine ⟨iff_of_true rfl h, ?_⟩
    intro auto hauto
    contradiction
  | all numStates_eq numStates_le =>
    refine ⟨iff_of_false nofun ?_, ?_⟩
    · rw [numStates_eq, Nat.cast_lt]
      exact Nat.not_lt_of_le numStates_le
    · intro auto hauto
      cases hauto
      exact ⟨numStates_eq, numStates_le⟩

theorem limit_exact_symbol :
    let w := (initial 2).perform (.build (.symbol 'a'))
    let a := Alphabet.ofList ['a']
    w.Reachable ∧ 3 < w.numTerms ∧ (∀ c, w.store.Mentions 3 c → c ∈ a) ∧
      ∃ session : Session w, session.AsksAll 3 a ∧ 2 < (session.residuals 3 a).encard := by
  have hw := reachable_symbol 2 'a'
  have he : 3 < ((initial 2).perform (.build (.symbol 'a'))).numTerms := by decide
  have hlimit : ((initial 2).perform (.build (.symbol 'a'))).maxStates = 2 := rfl
  have hmentions := mentions_symbol 2
  have hcompile : (((initial 2).perform (.build (.symbol 'a'))).compile 3
      (.ofList ['a'])).value.1.map (fun _ => ()) = .error (.tooManyStates 2) := by decide +kernel
  generalize (initial 2).perform (.build (.symbol 'a')) = w at *
  have hcovers : ∀ c, w.store.Mentions 3 c → c ∈ Alphabet.ofList ['a'] := by
    intro c hc
    exact SymbolSet.mem_ofList.2 (List.mem_singleton.2 ((hmentions c).1 hc))
  obtain ⟨⟨session, hall⟩, hexact⟩ := hw.limit_exact he hcovers
  obtain ⟨hiff, _⟩ := hexact session hall
  have herror : (w.compile 3 (.ofList ['a'])).value.1 = .error (.tooManyStates w.maxStates) := by
    rw [hlimit]
    generalize (w.compile 3 (.ofList ['a'])).value.1 = r at hcompile
    cases r with
    | error _ => exact congrArg Except.error (Except.error.inj hcompile)
    | ok _ => contradiction
  have hlt := hiff.1 herror
  rw [hlimit] at hlt
  exact ⟨hw, he, hcovers, session, hall, hlt⟩

theorem not_limit_exact_zero :
    ¬∀ (w : Workspace) (e : TermId) (a : Alphabet), w.Reachable → e < w.numTerms →
      (∀ c, w.store.Mentions e c → c ∈ a) → ∀ session : Session w, session.AsksAll e a →
        ((w.compile e a).value.1 = .error (.tooManyStates w.maxStates) ↔
          w.maxStates < (session.residuals e a).encard) := by
  intro h
  have hw := Reachable.initial 0
  have he : Store.empty < (initial 0).numTerms := by decide
  have hcovers : ∀ c, (initial 0).store.Mentions Store.empty c → c ∈ Alphabet.empty := by
    intro c hc
    rw [← Store.mentions_tree, Store.tree_empty] at hc
    contradiction
  have hcompile : ((initial 0).compile Store.empty .empty).value.1.toBool = true := by
    decide +kernel
  obtain ⟨session, hall⟩ := Session.exists_asksAll hw.sound he .empty
  obtain ⟨i, d, hd⟩ := hall [] (by simp)
  have hmem : d ∈ session.residuals Store.empty .empty := ⟨i, [], by simp, hd⟩
  have herror := (h (initial 0) Store.empty .empty hw he hcovers session hall).2
    (Set.encard_pos.2 ⟨d, hmem⟩)
  rw [herror] at hcompile
  contradiction

end Workspace

end Residual
