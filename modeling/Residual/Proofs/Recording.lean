import Residual.Proofs.Automaton.Reachability
import Residual.Proofs.Automaton.Words
import Residual.Proofs.Builder

/-!
This module contains what a builder makes of the calls to it. A call that is refused leaves no
trace; the others number their keys in the order in which they mention them, mark final states and
set transitions, and of several transitions of a state for a symbol the last one counts.
-/

namespace Residual

open Std

inductive Builder.Call (κ : Type) where
  | markFinal (key : κ)
  | addTransition (key : κ) (k : Nat) (target : κ)
  | addSymbolTransition (key : κ) (c : Char) (target : κ)

inductive Builder.Effect (κ : Type) where
  | final (key : κ)
  | edge (key : κ) (k : Nat) (target : κ)
deriving DecidableEq

namespace Builder

section Effects

variable {κ : Type}

def Call.effect? (a : Alphabet) : Call κ → Option (Effect κ)
  | .markFinal key => some (.final key)
  | .addTransition key k target => if k < a.size then some (.edge key k target) else none
  | .addSymbolTransition key c target => (a.indexOf? c).map fun k => .edge key k target

def Effect.source : Effect κ → κ
  | .final key => key
  | .edge key _ _ => key

def Effect.keys : Effect κ → List κ
  | .final key => [key]
  | .edge key _ target => [key, target]

variable [DecidableEq κ]

def Effect.target? (key : κ) (k : Nat) : Effect κ → Option κ
  | .final _ => none
  | .edge source m target => if source = key ∧ m = k then some target else none

def lastTarget (effects : List (Effect κ)) (key : κ) (k : Nat) : Option κ :=
  effects.reverse.findSome? (Effect.target? key k)

end Effects

section Calls

variable {κ : Type} [Ord κ] [TransOrd κ] [LawfulEqOrd κ]

def perform (b : Builder κ) : Call κ → Builder κ
  | .markFinal key => b.markFinal key
  | .addTransition key k target =>
    match b.addTransition? key k target with
    | some b' => b'
    | none => b
  | .addSymbolTransition key c target => (b.addSymbolTransition key c target).2

def performAll (b : Builder κ) (calls : List (Call κ)) : Builder κ := calls.foldl perform b

def carryOut (b : Builder κ) : Effect κ → Builder κ
  | .final key => b.markFinal key
  | .edge key k target => b.connect key k target

end Calls

def Lacks {κ : Type} [Ord κ] [DecidableEq κ] (keys : Numbering κ) (a : Alphabet)
    (effects : List (Effect κ)) (i : StateId) : Prop :=
  ∃ key k, keys.get? i = some key ∧ k < a.size ∧ lastTarget effects key k = none

end Builder

/-- Whether an automaton has a state for each key and does what the calls have said last. -/
structure Automaton.Realizes {κ : Type} [Ord κ] [DecidableEq κ] (auto : Automaton) (a : Alphabet)
    (keys : Numbering κ) (effects : List (Builder.Effect κ)) : Prop where
  alphabet_eq : auto.alphabet = a
  numStates_eq : auto.numStates = keys.size
  exists_successor : ∀ i key k, keys.get? i = some key → k < a.size →
    ∃ j target, auto.successor? i k = some j ∧ keys.get? j = some target ∧
      Builder.lastTarget effects key k = some target
  successors_lt : ∀ i, ∀ j ∈ auto.successors i, j < auto.numStates
  accepting_iff : ∀ i key, keys.get? i = some key →
    (auto.accepting i = true ↔ Builder.Effect.final key ∈ effects)
  numFinals_eq : (auto.numFinals : ℕ∞) = {key | Builder.Effect.final key ∈ effects}.encard

theorem findIdx?_eq_some_iff_isLeast {α : Type} {xs : Array α} {p : α → Bool} {i : Nat} :
    xs.findIdx? p = some i ↔ IsLeast {i | ∃ x, xs[i]? = some x ∧ p x = true} i := by
  rw [Array.findIdx?_eq_some_iff_getElem]
  constructor
  · rintro ⟨hi, hp, hbefore⟩
    refine ⟨⟨xs[i], Array.getElem?_eq_getElem hi, hp⟩, ?_⟩
    rintro j ⟨x, hj, hx⟩
    obtain ⟨_, rfl⟩ := Array.getElem?_eq_some_iff.1 hj
    by_contra hlt
    exact hbefore j (Nat.lt_of_not_le hlt) hx
  · rintro ⟨⟨x, hi, hx⟩, hleast⟩
    obtain ⟨hlt, rfl⟩ := Array.getElem?_eq_some_iff.1 hi
    refine ⟨hlt, hx, ?_⟩
    intro j hji hp
    exact Nat.not_le_of_lt hji (hleast ⟨_, Array.getElem?_eq_getElem _, hp⟩)

theorem Numbering.toList_number {κ : Type} [Ord κ] [TransOrd κ] [LawfulEqOrd κ] [DecidableEq κ]
    (n : Numbering κ) (x : κ) : (n.number x).2.toArray.toList =
      if x ∈ n.toArray.toList then n.toArray.toList else n.toArray.toList ++ [x] := by
  have hmem : x ∈ n.toArray.toList ↔ x ∈ n := Array.mem_def.symm
  cases h : n.find? x with
  | some i =>
    have hx := find?_eq_some_iff.1 h
    rw [number_of_get? hx, if_pos (hmem.2 (mem_of_get? hx))]
  | none =>
    rw [number_of_not_mem h, if_neg (mt hmem.1 (find?_eq_none_iff.1 h))]
    exact Array.toList_push

namespace Builder

section Calls

variable {κ : Type} [Ord κ] [TransOrd κ] [LawfulEqOrd κ] {b : Builder κ} {key target : κ}
  {i : StateId}

theorem perform_eq (b : Builder κ) (call : Call κ) :
    b.perform call = (call.effect? b.alphabet).elim b b.carryOut := by
  cases call with
  | markFinal key => rfl
  | addTransition key k target =>
    simp only [Builder.perform, addTransition?, Call.effect?]
    by_cases hk : k < b.alphabet.size
    · rw [if_pos hk, if_pos hk]
      rfl
    · rw [if_neg hk, if_neg hk]
      rfl
  | addSymbolTransition key c target =>
    simp only [Builder.perform, addSymbolTransition, Alphabet.index, Call.effect?]
    cases b.alphabet.indexOf? c <;> rfl

theorem addSymbolTransition_of_not_mem {c : Char} (hc : c ∉ b.alphabet) :
    b.addSymbolTransition key c target = (.error (.symbolOutside c), b) := by
  rw [addSymbolTransition, Alphabet.index_of_not_mem hc]

theorem addSymbolTransition_eq_error_iff {c : Char} {e : Error} :
    (b.addSymbolTransition key c target).1 = .error e ↔ c ∉ b.alphabet ∧ e = .symbolOutside c := by
  by_cases hc : c ∈ b.alphabet
  · obtain ⟨k, hk, _⟩ := Alphabet.index_of_mem hc
    rw [addSymbolTransition, hk]
    exact iff_of_false nofun fun h => h.1 hc
  · rw [addSymbolTransition_of_not_mem hc, Except.error.injEq, eq_comm]
    exact (and_iff_right hc).symm

theorem get?_carryOut (h : b.keys.get? i = some key) (e : Effect κ) :
    (b.carryOut e).keys.get? i = some key := by
  cases e with
  | final x => exact get?_mention h x
  | edge x k y => exact get?_mention (get?_mention h x) y

theorem get?_performAll (h : b.keys.get? i = some key) (calls : List (Call κ)) :
    (b.performAll calls).keys.get? i = some key := by
  induction calls generalizing b with
  | nil => exact h
  | cons call calls ih =>
    apply ih
    rw [perform_eq]
    cases call.effect? b.alphabet with
    | none => exact h
    | some e => exact get?_carryOut h e

end Calls

variable {κ : Type} [Ord κ] [DecidableEq κ]

section Target

variable {effects : List (Effect κ)} {key : κ} {k : Nat}

omit [Ord κ] in
theorem lastTarget_snoc (effects : List (Effect κ)) (e : Effect κ) (key : κ) (k : Nat) :
    lastTarget (effects ++ [e]) key k = (e.target? key k).or (lastTarget effects key k) := by
  rw [lastTarget, List.reverse_append, List.findSome?_append, lastTarget]
  congr 1
  simp

omit [Ord κ] in
theorem lastTarget_of_not_mem (h : ∀ e ∈ effects, key ∉ e.keys) :
    lastTarget effects key k = none := by
  rw [lastTarget, List.findSome?_eq_none_iff]
  intro e he
  have hkey := h e (List.mem_reverse.1 he)
  cases e with
  | final _ => rfl
  | edge source m target =>
    apply if_neg
    rintro ⟨rfl, _⟩
    exact hkey List.mem_cons_self

end Target

structure Holds (d : Draft) (keys : Numbering κ) (a : Alphabet) (effects : List (Effect κ))
    (key : κ) : Prop where
  accepting_iff : d.accepting = true ↔ Effect.final key ∈ effects
  next : ∀ k < a.size, ∃ number, d.next[k]? = some number ∧
    Option.Rel (fun j target => keys.get? j = some target) number (lastTarget effects key k)

structure Records (b : Builder κ) (a : Alphabet) (mentioned : List κ) (effects : List (Effect κ)) :
    Prop where
  alphabet_eq : b.alphabet = a
  keys_eq : b.keys.toArray.toList = mentioned.eraseDups
  mem_keys : ∀ e ∈ effects, ∀ key ∈ e.keys, key ∈ b.keys
  holds : ∀ i key d, b.keys.get? i = some key → b.drafts[i]? = some d →
    Holds d b.keys a effects key

variable {b : Builder κ} {a : Alphabet} {mentioned : List κ} {effects : List (Effect κ)}
  {key target : κ} {i j : StateId} {k : Nat} {d : Draft} {keys keys' : Numbering κ}

theorem Holds.mono (h : Holds d keys a effects key)
    (hkeys : ∀ i target, keys.get? i = some target → keys'.get? i = some target) :
    Holds d keys' a effects key where
  accepting_iff := h.accepting_iff
  next := by
    intro k hk
    obtain ⟨number, hnumber, hrel⟩ := h.next k hk
    refine ⟨number, hnumber, ?_⟩
    generalize lastTarget effects key k = last at hrel
    cases hrel with
    | some hj => exact .some (hkeys _ _ hj)
    | none => exact .none

theorem holds_blank (h : ∀ e ∈ effects, key ∉ e.keys) :
    Holds (.blank a.size) keys a effects key where
  accepting_iff := by
    refine iff_of_false Bool.false_ne_true fun hmem => ?_
    exact h _ hmem (List.mem_singleton_self key)
  next := by
    intro k hk
    refine ⟨none, ?_, ?_⟩
    · simp [Draft.blank, hk]
    · rw [lastTarget_of_not_mem h]
      exact .none

theorem Holds.mark (h : Holds d keys a effects key) :
    Holds { d with accepting := true } keys a (effects ++ [.final key]) key where
  accepting_iff := iff_of_true rfl (List.mem_append_right _ (List.mem_singleton_self _))
  next := by
    intro k hk
    rw [lastTarget_snoc]
    exact h.next k hk

theorem Holds.connect (h : Holds d keys a effects key) (hsize : d.next.size = a.size)
    (htarget : keys.get? j = some target) (k : Nat) :
    Holds { d with next := d.next.setIfInBounds k (some j) } keys a
      (effects ++ [.edge key k target]) key where
  accepting_iff := by
    rw [h.accepting_iff, List.mem_append, List.mem_singleton]
    exact (or_iff_left nofun).symm
  next := by
    intro m hm
    rw [lastTarget_snoc, Effect.target?, Array.getElem?_setIfInBounds]
    by_cases hkm : k = m
    · subst hkm
      rw [if_pos rfl, if_pos (hsize ▸ hm), if_pos ⟨rfl, rfl⟩]
      exact ⟨_, rfl, .some htarget⟩
    · rw [if_neg hkm, if_neg fun heq => hkm heq.2]
      exact h.next m hm

theorem Holds.of_source_ne (h : Holds d keys a effects key) {e : Effect κ} (hne : e.source ≠ key) :
    Holds d keys a (effects ++ [e]) key where
  accepting_iff := by
    rw [h.accepting_iff, List.mem_append, List.mem_singleton]
    refine (or_iff_left ?_).symm
    rintro rfl
    exact hne rfl
  next := by
    intro k hk
    have htarget : e.target? key k = none := by
      cases e with
      | final _ => rfl
      | edge source m target => exact if_neg fun heq => hne heq.1
    rw [lastTarget_snoc, htarget]
    exact h.next k hk

theorem Records.size_next (h : b.Records a mentioned effects) (hd : b.drafts[i]? = some d) :
    d.next.size = a.size := by
  rw [← h.alphabet_eq]
  exact (b.fits d (Array.mem_of_getElem? hd)).size_next

theorem Records.update (h : b.Records a mentioned effects) {b' : Builder κ} {e : Effect κ}
    {f : Draft → Draft} (hsource : b.keys.get? i = some e.source)
    (hmem : ∀ key ∈ e.keys, key ∈ b.keys) (halphabet : b'.alphabet = b.alphabet)
    (hkeys : b'.keys = b.keys)
    (hdrafts : ∀ j, b'.drafts[j]? = if i = j then b.drafts[j]?.map f else b.drafts[j]?)
    (hholds : ∀ d, b.drafts[i]? = some d → Holds (f d) b.keys a (effects ++ [e]) e.source) :
    b'.Records a mentioned (effects ++ [e]) where
  alphabet_eq := halphabet.trans h.alphabet_eq
  keys_eq := hkeys ▸ h.keys_eq
  mem_keys := by
    intro e' he key hkey
    rw [hkeys]
    rcases List.mem_append.1 he with he | he
    · exact h.mem_keys e' he key hkey
    · rw [List.mem_singleton.1 he] at hkey
      exact hmem key hkey
  holds := by
    intro j key d hkey hd
    rw [hkeys] at hkey ⊢
    rw [hdrafts] at hd
    split at hd
    next hij =>
      subst hij
      obtain ⟨d', hd', rfl⟩ := Option.map_eq_some_iff.1 hd
      cases hsource.symm.trans hkey
      exact hholds d' hd'
    next hij =>
      apply (h.holds j key d hkey hd).of_source_ne
      rintro rfl
      exact hij (Numbering.get?_inj hsource hkey)

section Build

variable {auto : Automaton}

theorem Records.isComplete_iff (h : b.Records a mentioned effects) (hkey : b.keys.get? i = some key)
    (hd : b.drafts[i]? = some d) :
    d.isComplete = true ↔ ∀ k < a.size, lastTarget effects key k ≠ none := by
  rw [d.isComplete_iff, h.size_next hd]
  apply forall₂_congr
  intro k hk
  obtain ⟨number, hnumber, hrel⟩ := (h.holds i key d hkey hd).next k hk
  rw [hnumber]
  generalize lastTarget effects key k = last at hrel
  cases hrel with
  | some _ => exact iff_of_true nofun nofun
  | none => exact iff_of_false (not_not_intro rfl) (not_not_intro rfl)

theorem Records.lacks_iff (h : b.Records a mentioned effects) :
    Lacks b.keys a effects i ↔ ∃ d, b.drafts[i]? = some d ∧ (!d.isComplete) = true := by
  simp only [Bool.not_eq_true', Bool.eq_false_iff, ne_eq]
  constructor
  · rintro ⟨key, k, hkey, hk, hnone⟩
    obtain ⟨d, hd⟩ := exists_draft hkey
    refine ⟨d, hd, ?_⟩
    rw [h.isComplete_iff hkey hd]
    exact fun hall => hall k hk hnone
  · rintro ⟨d, hd, hincomplete⟩
    obtain ⟨key, hkey⟩ := exists_key hd
    rw [h.isComplete_iff hkey hd] at hincomplete
    push Not at hincomplete
    obtain ⟨k, hk, hnone⟩ := hincomplete
    exact ⟨key, k, hkey, hk, hnone⟩

theorem Records.build_eq_error_iff (h : b.Records a mentioned effects) :
    b.build = .error (.missingTransition i) ↔ IsLeast {i | Lacks b.keys a effects i} i := by
  simp only [h.lacks_iff]
  rw [Builder.build_eq_error_iff, findIdx?_eq_some_iff_isLeast]

theorem Records.exists_successor (h : b.Records a mentioned effects)
    (hmakes : b.Makes auto) (hcomplete : ¬Lacks b.keys a effects i)
    (hkey : b.keys.get? i = some key) (hk : k < a.size) :
    ∃ j target, auto.successor? i k = some j ∧ b.keys.get? j = some target ∧
      lastTarget effects key k = some target := by
  obtain ⟨d, hd⟩ := exists_draft hkey
  obtain ⟨number, hnumber, hrel⟩ := (h.holds i key d hkey hd).next k hk
  have hlast : lastTarget effects key k ≠ none := fun hnone => hcomplete ⟨key, k, hkey, hk, hnone⟩
  generalize lastTarget effects key k = last at hrel hlast
  cases hrel with
  | none => exact absurd rfl hlast
  | @some j target htarget =>
    refine ⟨j, target, ?_, htarget, rfl⟩
    rw [hmakes.successor?_eq i d k hd, Draft.targets, Array.getElem?_map, hnumber]
    rfl

theorem Records.accepting_iff (h : b.Records a mentioned effects)
    (hmakes : b.Makes auto) (hkey : b.keys.get? i = some key) :
    auto.accepting i = true ↔ Effect.final key ∈ effects := by
  obtain ⟨d, hd⟩ := exists_draft hkey
  rw [← (h.holds i key d hkey hd).accepting_iff, Automaton.accepting, Automaton.state?,
    hmakes.states_eq, Array.getElem?_map, hd]
  rfl

theorem Records.numFinals_eq (h : b.Records a mentioned effects)
    (hmakes : b.Makes auto) :
    (auto.numFinals : ℕ∞) = {key | Effect.final key ∈ effects}.encard := by
  have hsome : ∀ i ∈ auto.finals, (b.keys.get? i).isSome = true := by
    intro i hi
    have hlt := Automaton.lt_of_mem_finals hi
    rw [hmakes.numStates_eq] at hlt
    obtain ⟨key, hkey⟩ := Numbering.get?_of_lt hlt
    rw [hkey, Option.isSome_some]
  have hnodup : (auto.finals.filterMap b.keys.get?).Nodup :=
    (List.nodup_range.filter _).filterMap fun _ _ _ => Numbering.get?_inj
  rw [auto.numFinals_eq_length, ← List.filterMap_length_eq_length.2 hsome]
  refine (encard_eq_length_of_nodup hnodup fun key => ?_).symm
  rw [Set.mem_ofPred_eq, List.mem_filterMap]
  constructor
  · intro hfinal
    have hmem := h.mem_keys _ hfinal key (List.mem_singleton_self key)
    obtain ⟨i, hkey⟩ := Numbering.mem_iff_exists_get?.1 hmem
    exact ⟨i, Automaton.mem_finals_iff.2 ((h.accepting_iff hmakes hkey).2 hfinal), hkey⟩
  · rintro ⟨i, hi, hkey⟩
    exact (h.accepting_iff hmakes hkey).1 (Automaton.mem_finals_iff.1 hi)

theorem Records.build_eq_ok (h : b.Records a mentioned effects)
    (hcomplete : ∀ i, ¬Lacks b.keys a effects i) :
    ∃ auto, b.build = .ok auto ∧ auto.Realizes a b.keys effects := by
  have hdrafts : ∀ d ∈ b.drafts, d.isComplete = true := by
    intro d hd
    obtain ⟨i, hi⟩ := Array.mem_iff_getElem?.1 hd
    by_contra hincomplete
    refine hcomplete i (h.lacks_iff.2 ⟨d, hi, ?_⟩)
    rwa [Bool.not_eq_true', ← Bool.not_eq_true]
  obtain ⟨auto, hbuild⟩ := Builder.exists_build_eq_ok hdrafts
  have hmakes := Builder.makes_of_build hbuild
  exact ⟨auto, hbuild, {
    alphabet_eq := hmakes.alphabet_eq.trans h.alphabet_eq
    numStates_eq := hmakes.numStates_eq
    exists_successor := fun i _ _ => h.exists_successor hmakes (hcomplete i)
    successors_lt := fun _ _ => Automaton.successors_lt
    accepting_iff := fun _ _ => h.accepting_iff hmakes
    numFinals_eq := h.numFinals_eq hmakes }⟩

end Build

variable [TransOrd κ] [LawfulEqOrd κ]

section Steps

theorem records_start (key : κ) (a : Alphabet) : (start key a).Records a [key] [] where
  alphabet_eq := rfl
  keys_eq := rfl
  mem_keys := by
    intro e he
    exact absurd he List.not_mem_nil
  holds := by
    intro i x d _ hd
    have hblank : d = .blank a.size := Array.mem_singleton.1 (Array.mem_of_getElem? hd)
    rw [hblank]
    exact holds_blank fun e he => absurd he List.not_mem_nil

theorem Records.mention (h : b.Records a mentioned effects) (key : κ) :
    (b.mention key).2.Records a (mentioned ++ [key]) effects where
  alphabet_eq := (b.alphabet_mention key).trans h.alphabet_eq
  keys_eq := by
    rw [keys_mention, Numbering.toList_number, h.keys_eq, eraseDups_snoc]
    simp only [List.mem_eraseDups]
  mem_keys := by
    intro e he x hx
    rw [keys_mention, Numbering.mem_number]
    exact .inl (h.mem_keys e he x hx)
  holds := by
    intro i x d hx hd
    rw [keys_mention] at hx ⊢
    rcases getElem?_drafts_mention b key hd with hd | ⟨hnone, rfl⟩
    · obtain ⟨y, hy⟩ := exists_key hd
      cases (Numbering.get?_number_of_get? hy).symm.trans hx
      exact (h.holds i x d hy hd).mono fun j target => Numbering.get?_number_of_get?
    · -- a key with a new state has not been part of any effect
      have hnew : x ∉ b.keys := by
        intro hmem
        obtain ⟨j, hj⟩ := Numbering.mem_iff_exists_get?.1 hmem
        obtain rfl := Numbering.get?_inj hx (Numbering.get?_number_of_get? hj)
        obtain ⟨d, hd⟩ := exists_draft hj
        cases hnone.symm.trans hd
      rw [h.alphabet_eq]
      exact holds_blank fun e he hmem => hnew (h.mem_keys e he x hmem)

theorem Records.carryOut (h : b.Records a mentioned effects) (e : Effect κ) :
    (b.carryOut e).Records a (mentioned ++ e.keys) (effects ++ [e]) := by
  cases e with
  | final key =>
    have hrecords := h.mention key
    have hkey := b.get?_mention_self key
    refine hrecords.update hkey ?_ rfl rfl (fun _ => Array.getElem?_modify) ?_
    · intro x hx
      rw [List.mem_singleton.1 hx]
      exact Numbering.mem_of_get? hkey
    · intro d hd
      exact (hrecords.holds _ key d hkey hd).mark
  | edge key k target =>
    have hrecords := (h.mention key).mention target
    have hkey := get?_mention (b.get?_mention_self key) target
    have htarget := (b.mention key).2.get?_mention_self target
    rw [List.append_assoc] at hrecords
    refine hrecords.update hkey ?_ rfl rfl (fun _ => Array.getElem?_modify) ?_
    · intro x hx
      rcases List.mem_cons.1 hx with rfl | hx
      · exact Numbering.mem_of_get? hkey
      · rw [List.mem_singleton.1 hx]
        exact Numbering.mem_of_get? htarget
    · intro d hd
      exact (hrecords.holds _ key d hkey hd).connect (hrecords.size_next hd) htarget k

theorem Records.performAll (h : b.Records a mentioned effects) (calls : List (Call κ)) :
    (b.performAll calls).Records a
      (mentioned ++ (calls.filterMap (Call.effect? a)).flatMap Effect.keys)
      (effects ++ calls.filterMap (Call.effect? a)) := by
  induction calls generalizing b mentioned effects with
  | nil => simpa [Builder.performAll] using h
  | cons call calls ih =>
    show ((b.perform call).performAll calls).Records a _ _
    rw [perform_eq, h.alphabet_eq]
    cases heffect : call.effect? a with
    | none =>
      rw [List.filterMap_cons_none heffect]
      exact ih h
    | some e =>
      rw [List.filterMap_cons_some heffect, List.flatMap_cons, ← List.append_assoc,
        List.append_cons effects]
      exact ih (h.carryOut e)

end Steps

/--
A builder does what the calls to it say. The initial key has number 0 and the others are numbered in
the order in which they are mentioned. A transition for a symbol outside the alphabet is refused and
changes nothing. The least state that lacks a transition is reported, and without such a state there
is an automaton that does what the calls have said last.
-/
theorem recording_exact (key : κ) (a : Alphabet) (calls : List (Call κ)) :
    let b := (start key a).performAll calls
    let effects := calls.filterMap (Call.effect? a)
    b.keys.get? Automaton.initial = some key ∧
      b.keys.toArray.toList = (key :: effects.flatMap Effect.keys).eraseDups ∧
      (∀ i j x, b.keys.get? i = some x → b.keys.get? j = some x → i = j) ∧
      (∀ x c y e, (b.addSymbolTransition x c y).1 = .error e ↔
        c ∉ a ∧ e = .symbolOutside c) ∧
      (∀ x c y, c ∉ a → b.addSymbolTransition x c y = (.error (.symbolOutside c), b)) ∧
      (∀ x k y, (b.addTransition? x k y).isSome = true ↔ k < a.size) ∧
      (∀ i, b.build = .error (.missingTransition i) ↔ IsLeast {i | Lacks b.keys a effects i} i) ∧
      ((∀ i, ¬Lacks b.keys a effects i) →
        ∃ auto, b.build = .ok auto ∧ auto.Realizes a b.keys effects) := by
  intro b effects
  have hrecords : b.Records a (key :: effects.flatMap Effect.keys) effects :=
    (records_start key a).performAll calls
  have hinitial : (start key a).keys.get? Automaton.initial = some key := rfl
  refine ⟨get?_performAll hinitial calls, hrecords.keys_eq, fun _ _ _ => Numbering.get?_inj,
    ?_, ?_, ?_, fun _ => hrecords.build_eq_error_iff, hrecords.build_eq_ok⟩
  · intro x c y e
    rw [addSymbolTransition_eq_error_iff, hrecords.alphabet_eq]
  · intro x c y hc
    rw [← hrecords.alphabet_eq] at hc
    exact addSymbolTransition_of_not_mem hc
  · intro x k y
    rw [addTransition?, hrecords.alphabet_eq]
    exact Option.isSome_ite

theorem recording_exact_override :
    let a : Alphabet := .ofList ['a', 'b']
    let calls : List (Call Char) := [.addTransition 'x' 0 'y', .addSymbolTransition 'x' 'c' 'z',
      .addTransition 'x' 1 'y', .addTransition 'x' 1 'x', .markFinal 'y',
      .addSymbolTransition 'y' 'a' 'y', .addSymbolTransition 'y' 'b' 'x']
    let b := (start 'x' a).performAll calls
    let effects := calls.filterMap (Call.effect? a)
    b.keys.toArray.toList = ['x', 'y'] ∧ lastTarget effects 'x' 1 = some 'x' ∧
      ∃ auto, b.build = .ok auto ∧ auto.Realizes a b.keys effects := by
  intro a calls b effects
  obtain ⟨_, hkeys, _, _, _, _, _, hbuild⟩ := recording_exact 'x' a calls
  have heffects : calls.filterMap (Call.effect? a) = [.edge 'x' 0 'y', .edge 'x' 1 'y',
      .edge 'x' 1 'x', .final 'y', .edge 'y' 0 'y', .edge 'y' 1 'x'] := by decide +kernel
  have hsize : a.size = 2 := by decide +kernel
  have hlist : b.keys.toArray.toList = ['x', 'y'] := by
    rw [heffects] at hkeys
    exact hkeys.trans (by decide)
  refine ⟨hlist, ?_, hbuild ?_⟩
  · show lastTarget (calls.filterMap (Call.effect? a)) 'x' 1 = some 'x'
    rw [heffects]
    decide
  · rintro i ⟨key, k, hkey, hk, hnone⟩
    have hmem : key ∈ b.keys.toArray.toList := Array.mem_toList_iff.2 (Numbering.mem_of_get? hkey)
    rw [hlist, List.mem_pair] at hmem
    rw [heffects] at hnone
    rw [hsize] at hk
    rcases hmem with rfl | rfl
    · revert k
      decide
    · revert k
      decide

end Builder

end Residual
