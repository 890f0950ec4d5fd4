import Residual.Proofs.Construction
import Residual.Proofs.Reading

/-!
This module contains the automata that come out of a construction: state by state they hold what the
workspace knows about the residuals of the term.
-/

namespace Residual

open Std

namespace Automaton

def term? (a : Automaton) (i : StateId) : Option TermId := (a.state? i).bind State.term

theorem lt_numStates_of_term? {a : Automaton} {i : StateId} {t : TermId} (h : a.term? i = some t) :
    i < a.numStates := by
  obtain ⟨state, hstate, _⟩ := Option.bind_eq_some_iff.1 h
  exact (Array.getElem?_eq_some_iff.1 hstate).1

section Attach

variable (a : Automaton) (ts : Array TermId) (s : StateId)

theorem state?_attachTerms : (a.attachTerms ts).state? s =
    (a.state? s).map fun state => { state with term := ts[s]?.or state.term } :=
  Array.getElem?_mapIdx

theorem numStates_attachTerms : (a.attachTerms ts).numStates = a.numStates :=
  Array.size_mapIdx

theorem accepting_attachTerms : (a.attachTerms ts).accepting s = a.accepting s := by
  unfold accepting
  rw [state?_attachTerms]
  cases a.state? s <;> rfl

theorem successors_attachTerms : (a.attachTerms ts).successors s = a.successors s := rfl

end Attach

end Automaton

namespace Workspace

/-- An automaton that holds, state by state, what the workspace knows about the residuals of `e`. -/
structure Represents (w : Workspace) (e : TermId) (a : Alphabet) (auto : Automaton) : Prop where
  alphabet_eq : auto.alphabet = a
  root : auto.term? Automaton.initial = some e
  exists_term : ∀ i < auto.numStates, ∃ t, auto.term? i = some t
  term?_inj : ∀ i j t, auto.term? i = some t → auto.term? j = some t → i = j
  residual : ∀ i t, auto.term? i = some t → w.IsResidual (w.store.tree e) a t
  accepting_eq : ∀ i t, auto.term? i = some t → auto.accepting i = w.store.nullable t
  successor : ∀ i t k c, auto.term? i = some t → a.symbol? k = some c →
    ∃ j d, auto.successor? i k = some j ∧ auto.term? j = some d ∧
      w.derivatives[(⟨t, c⟩ : DerivativeKey)]? = some d
  numStates_le : auto.numStates ≤ max 1 w.maxStates

theorem Represents.lt_numTerms {w : Workspace} {e : TermId} {a : Alphabet} {auto : Automaton}
    (h : w.Represents e a auto) (i : StateId) (t : TermId) (ht : auto.term? i = some t) :
    t < w.numTerms :=
  (h.residual i t ht).1

inductive Compiles (w : Workspace) (e : TermId) (a : Alphabet) :
    Except Error Automaton × Workspace → Prop where
  | outside {c : Char} (mem : c ∈ w.store.symbolsOf e) (not_mem : c ∉ a) :
    w.Compiles e a (.error (.symbolOutside c), w)
  | overflow {x : Construction (max 1 w.maxStates)}
      (h : x.Overflows w e a) : w.Compiles e a (.error (.tooManyStates w.maxStates), x.workspace)
  | done {auto : Automaton} {w' : Workspace} (learns : w.Learns w')
      (represents : w'.Represents e a auto) : w.Compiles e a (.ok auto, w')

end Workspace

namespace Builder

variable {b : Builder TermId} {w w' : Workspace} {e t : TermId} {a : Alphabet} {i : StateId}

theorem Explores.describes_of_done (h : b.Explores w w' e a b.keys.size none) {d : Draft}
    (ht : b.keys.get? i = some t) (hd : b.drafts[i]? = some d) :
    d.Describes w' b.keys a t (some a.size) := by
  have hdesc := h.describes i t d ht hd
  rw [stage, if_pos (Numbering.lt_size_of_get? ht)] at hdesc
  exact hdesc

theorem Explores.isComplete (h : b.Explores w w' e a b.keys.size none) {d : Draft}
    (hd : d ∈ b.drafts) : d.isComplete = true := by
  obtain ⟨i, hi⟩ := Array.mem_iff_getElem?.1 hd
  obtain ⟨t, ht⟩ := exists_key hi
  have hsize := (b.fits d hd).size_next
  rw [h.alphabet_eq] at hsize
  cases h.describes_of_done ht hi with
  | explored _ next =>
    apply Array.all_eq_true.2
    intro k hk
    rw [hsize] at hk
    have hc : a.symbol? k = some a.set.symbols[k] := Array.getElem?_eq_getElem hk
    obtain ⟨j, u, hj, _⟩ := next k hk _ hc
    obtain ⟨_, hget⟩ := Array.getElem?_eq_some_iff.1 hj
    rw [hget]
    rfl

section Attach

variable {auto : Automaton}

theorem state?_attachTerms (hmakes : b.Makes auto) {d : Draft} (ht : b.keys.get? i = some t)
    (hd : b.drafts[i]? = some d) :
    (auto.attachTerms b.keys.toArray).state? i = some { d.toState with term := some t } := by
  have ht : b.keys.toArray[i]? = some t := ht
  rw [Automaton.state?_attachTerms, Automaton.state?, hmakes.states_eq, Array.getElem?_map, hd, ht]
  rfl

theorem numStates_attachTerms (hmakes : b.Makes auto) :
    (auto.attachTerms b.keys.toArray).numStates = b.keys.size := by
  rw [Automaton.numStates_attachTerms, hmakes.numStates_eq]

theorem term?_attachTerms (hmakes : b.Makes auto) (i : StateId) :
    (auto.attachTerms b.keys.toArray).term? i = b.keys.get? i := by
  cases ht : b.keys.get? i with
  | none =>
    rw [Option.eq_none_iff_forall_ne_some]
    intro t h
    have hlt := Automaton.lt_numStates_of_term? h
    rw [numStates_attachTerms hmakes] at hlt
    rw [Numbering.get?, Array.getElem?_eq_none_iff] at ht
    exact Nat.not_lt_of_le ht hlt
  | some t =>
    obtain ⟨d, hd⟩ := exists_draft ht
    rw [Automaton.term?, state?_attachTerms hmakes ht hd]
    rfl

theorem Explores.represents (h : b.Explores w w' e a b.keys.size none) (he : e < w.numTerms)
    (hle : b.keys.size ≤ max 1 w.maxStates) (hmakes : b.Makes auto) :
    w'.Represents e a (auto.attachTerms b.keys.toArray) where
  alphabet_eq := hmakes.alphabet_eq.trans h.alphabet_eq
  root := by
    rw [term?_attachTerms hmakes]
    exact h.root
  exists_term := by
    intro i hi
    rw [numStates_attachTerms hmakes] at hi
    rw [term?_attachTerms hmakes]
    exact ⟨_, Array.getElem?_eq_getElem hi⟩
  term?_inj := by
    intro i j t hi hj
    rw [term?_attachTerms hmakes] at hi hj
    exact Numbering.get?_inj hi hj
  residual := by
    intro i t ht
    rw [term?_attachTerms hmakes] at ht
    rw [h.learns.ext.tree_eq he]
    exact h.residual t (Numbering.mem_of_get? ht)
  accepting_eq := by
    intro i t ht
    rw [term?_attachTerms hmakes] at ht
    obtain ⟨d, hd⟩ := exists_draft ht
    rw [Automaton.accepting, state?_attachTerms hmakes ht hd]
    cases h.describes_of_done ht hd with
    | explored accepting _ => exact accepting
  successor := by
    intro i t k c ht hc
    rw [term?_attachTerms hmakes] at ht
    obtain ⟨d, hd⟩ := exists_draft ht
    have hsuccessor : (auto.attachTerms b.keys.toArray).successor? i k = d.targets[k]? :=
      hmakes.successor?_eq i d k hd
    cases h.describes_of_done ht hd with
    | explored _ next =>
      obtain ⟨j, u, hj, hu, hknown⟩ := next k (Array.getElem?_eq_some_iff.1 hc).1 c hc
      refine ⟨j, u, ?_, ?_, hknown⟩
      · rw [hsuccessor, Draft.targets, Array.getElem?_map, hj]
        rfl
      · rw [term?_attachTerms hmakes]
        exact hu
  numStates_le := by
    rw [numStates_attachTerms hmakes, h.learns.maxStates_eq]
    exact hle

end Attach

end Builder

namespace Workspace

variable {w : Workspace} {e : TermId} {a : Alphabet} {auto : Automaton}

section Reading

theorem Represents.run (h : w.Represents e a auto) {i : StateId} {t : TermId}
    (ht : auto.term? i = some t) {word : List Char} (hword : ∀ c ∈ word, c ∈ a) :
    ∃ j u, auto.run i word = .ok j ∧ auto.term? j = some u ∧ w.wordDerivative t word = (u, w) := by
  induction word generalizing i t with
  | nil => exact ⟨i, t, rfl, ht, rfl⟩
  | cons c word ih =>
    have hc : c ∈ auto.alphabet := h.alphabet_eq ▸ hword c List.mem_cons_self
    obtain ⟨k, hk, hstep⟩ := Automaton.step_of_mem hc i
    rw [h.alphabet_eq] at hk
    obtain ⟨j, d, hj, hd, hknown⟩ := h.successor i t k c ht hk
    rw [hj, Option.getD_some] at hstep
    obtain ⟨j', u, hrun, hu, hword'⟩ := ih hd fun b hb => hword b (List.mem_cons_of_mem c hb)
    refine ⟨j', u, ?_, hu, ?_⟩
    · rw [Automaton.run_cons_of_step hstep, hrun]
    · rw [wordDerivative_cons, derivative_of_known hknown]
      exact hword'

theorem Represents.accepts (h : w.Represents e a auto) (hw : w.Sound) {word : List Char}
    (hword : ∀ c ∈ word, c ∈ a) :
    ∃ b, auto.accepts word = .ok b ∧ (b = true ↔ word ∈ w.store.language e) := by
  obtain ⟨j, u, hrun, hu, hderivative⟩ := h.run h.root hword
  refine ⟨w.store.nullable u, ?_, ?_⟩
  · rw [Automaton.accepts, hrun, ← h.accepting_eq j u hu]
    rfl
  · rw [← contains_iff hw (h.lt_numTerms _ e h.root) word, contains, hderivative]

end Reading

section Compile

theorem checkCovers_cases (a : Alphabet) (s : SymbolSet) :
    a.checkCovers s = .ok () ∨
      ∃ c, a.checkCovers s = .error (.symbolOutside c) ∧ c ∈ s ∧ c ∉ a := by
  unfold Alphabet.checkCovers
  split
  next c hc =>
    have hmem := List.mem_of_find?_eq_some hc
    have hout := List.find?_some hc
    rw [SymbolSet.mem_toList] at hmem
    rw [Bool.not_eq_true', ← Bool.not_eq_true, Alphabet.contains_iff] at hout
    exact Or.inr ⟨c, rfl, hmem, hout⟩
  · exact Or.inl rfl

theorem compile_of_error {error : Error} (h : a.checkCovers (w.store.symbolsOf e) = .error error) :
    w.compile e a = pure (.error error, w) := by
  unfold compile
  rw [h]

def conclude {room : Nat} (t : TermId) (a : Alphabet) (limit : Nat) :
    Except (Construction room) (Construction room) → Logged (Except Error Automaton × Workspace)
  | .error x => ⟨(.error (.tooManyStates limit), x.workspace), x.log.push (.aborted t limit)⟩
  | .ok x =>
    match x.builder.build with
    | .error e => ⟨(.error e, x.workspace), x.log⟩
    | .ok automaton =>
      let automaton := automaton.attachTerms x.builder.keys.toArray
      let entry := .compiled t a automaton.numStates automaton.numFinals x.workspace.numTerms
      ⟨(.ok automaton, x.workspace), x.log.push entry⟩

theorem compile_of_covered (h : a.checkCovers (w.store.symbolsOf e) = .ok ())
    (hroom : 0 < max 1 w.maxStates) : w.compile e a =
      conclude e a w.maxStates ((Construction.start w e a hroom).run a.symbols) := by
  unfold compile
  rw [h]
  dsimp only
  cases (Construction.start w e a hroom).run a.symbols with
  | error x => rfl
  | ok x => rfl

theorem reached_conclude {room : Nat} (t : TermId) (a : Alphabet) (limit : Nat)
    (r : Except (Construction room) (Construction room)) :
    (conclude t a limit r).value.2 = Construction.reached r := by
  cases r with
  | error x => rfl
  | ok x =>
    unfold conclude
    dsimp only
    split
    · rfl
    · rfl

theorem built_of_run (hw : w.Sound) (he : e < w.numTerms) {hroom : 0 < max 1 w.maxStates}
    {x : Construction (max 1 w.maxStates)}
    (h : (Construction.start w e a hroom).run a.symbols = .ok x) :
    ∃ auto, x.builder.build = .ok auto ∧ w.Learns x.workspace ∧
      x.workspace.Represents e a (auto.attachTerms x.builder.keys.toArray) := by
  have hrun := Construction.reaches_run (x := .start w e a hroom)
    (Construction.invariant_start hw he hroom)
  rw [h] at hrun
  obtain ⟨hkeys, hexplores⟩ := hrun
  have hsize : x.residuals.numSeen = x.builder.keys.size := by rw [hkeys, Worklist.numSeen]
  have hle := x.numSeen_le
  rw [hsize] at hle hexplores
  obtain ⟨auto, hbuild⟩ := Builder.exists_build_eq_ok fun d hd => hexplores.isComplete hd
  have hmakes := Builder.makes_of_build hbuild
  exact ⟨auto, hbuild, hexplores.learns, hexplores.represents he hle hmakes⟩

theorem compiles_compile (hw : w.Sound) (he : e < w.numTerms) (a : Alphabet) :
    w.Compiles e a (w.compile e a).value := by
  rcases checkCovers_cases a (w.store.symbolsOf e) with hcovers | ⟨c, hcovers, hmem, hout⟩
  · have hroom : 0 < max 1 w.maxStates := by omega
    have hrun := Construction.reaches_run (x := .start w e a hroom)
      (Construction.invariant_start hw he hroom)
    rw [compile_of_covered hcovers hroom]
    cases hx : (Construction.start w e a hroom).run a.symbols with
    | error x =>
      rw [hx] at hrun
      exact .overflow hrun
    | ok x =>
      obtain ⟨auto, hbuild, hlearns, hrepresents⟩ := built_of_run hw he hx
      simp only [conclude, hbuild]
      exact .done hlearns hrepresents
  · rw [compile_of_error hcovers]
    exact .outside hmem hout

theorem run_of_compile_error (hw : w.Sound) (he : e < w.numTerms) {limit : Nat}
    (h : (w.compile e a).value.1 = .error (.tooManyStates limit)) (hroom : 0 < max 1 w.maxStates) :
    a.checkCovers (w.store.symbolsOf e) = .ok () ∧
      ∃ x, (Construction.start w e a hroom).run a.symbols = .error x ∧
        (w.compile e a).value.2 = x.workspace := by
  rcases checkCovers_cases a (w.store.symbolsOf e) with hcovers | ⟨c, hcovers, _, _⟩
  · refine ⟨hcovers, ?_⟩
    rw [compile_of_covered hcovers hroom] at h ⊢
    cases hx : (Construction.start w e a hroom).run a.symbols with
    | error x => exact ⟨x, rfl, rfl⟩
    | ok x =>
      obtain ⟨auto, hbuild, _⟩ := built_of_run hw he hx
      rw [hx] at h
      simp only [conclude, hbuild] at h
      contradiction
  · rw [compile_of_error hcovers] at h
    simp at h

theorem learns_compile (hw : w.Sound) (he : e < w.numTerms) (a : Alphabet) :
    w.Learns (w.compile e a).value.2 := by
  have h := compiles_compile hw he a
  generalize (w.compile e a).value = r at h
  cases h with
  | outside _ _ => exact .refl hw
  | overflow h => exact h.learns
  | done learns _ => exact learns

end Compile

end Workspace

end Residual
