import Residual.Proofs.Automaton.Isomorphism
import Residual.Proofs.Lockstep
import Residual.Proofs.Session

/-!
This module contains the order in which a construction meets residuals. A new one is the derivative
that comes up next when the residuals met before are gone through in order, each symbol by symbol.
-/

namespace Residual

open Std

def Leads (w : Workspace) (keys : Numbering TermId) (a : Alphabet) (p k j : Nat) : Prop :=
  ∃ t c d, keys.get? p = some t ∧ a.symbol? k = some c ∧
    w.derivatives[(⟨t, c⟩ : DerivativeKey)]? = some d ∧ keys.get? j = some d

structure Discovered (w : Workspace) (keys : Numbering TermId) (a : Alphabet) (j p k : Nat) :
    Prop where
  lt : p < j
  target : Leads w keys a p k j
  earlier : ∀ p' k', k' < a.size → Earlier p' k' p k → ∃ i < j, Leads w keys a p' k' i

def InOrder (w : Workspace) (keys : Numbering TermId) (a : Alphabet) : Prop :=
  ∀ j, 0 < j → j < keys.size → ∃ p k, Discovered w keys a j p k

section Growth

variable {w w' : Workspace} {keys keys' : Numbering TermId} {a : Alphabet} {p k j : Nat}

theorem Leads.mono (h : Leads w keys a p k j) (hw : w.Learns w')
    (hkeys : ∀ i t, keys.get? i = some t → keys'.get? i = some t) : Leads w' keys' a p k j := by
  obtain ⟨t, c, d, ht, hc, hd, hj⟩ := h
  exact ⟨t, c, d, hkeys p t ht, hc, hw.known _ d hd, hkeys j d hj⟩

theorem Discovered.mono (h : Discovered w keys a j p k) (hw : w.Learns w')
    (hkeys : ∀ i t, keys.get? i = some t → keys'.get? i = some t) :
    Discovered w' keys' a j p k where
  lt := h.lt
  target := h.target.mono hw hkeys
  earlier p' k' hk' hearlier := by
    obtain ⟨i, hi, hleads⟩ := h.earlier p' k' hk' hearlier
    exact ⟨i, hi, hleads.mono hw hkeys⟩

theorem InOrder.learn (h : InOrder w keys a) (hw : w.Learns w') : InOrder w' keys a := by
  intro j hpos hj
  obtain ⟨p, k, hdiscovered⟩ := h j hpos hj
  exact ⟨p, k, hdiscovered.mono hw fun _ _ => id⟩

end Growth

namespace Builder

variable {b : Builder TermId} {w w' : Workspace} {e t : TermId} {a : Alphabet} {m k : Nat}

theorem Explores.leads (h : b.Explores w w' e a m (some k)) (ht : b.keys.get? m = some t)
    {p' k' : Nat} (hk' : k' < a.size) (hearlier : Earlier p' k' m k) :
    ∃ i < b.keys.size, Leads w' b.keys a p' k' i := by
  have hp' : p' < b.keys.size := by
    have hm := Numbering.lt_size_of_get? ht
    rcases hearlier with hlt | ⟨rfl, _⟩
    · exact Nat.lt_trans hlt hm
    · exact hm
  obtain ⟨t', ht'⟩ := Numbering.get?_of_lt hp'
  obtain ⟨d, hd⟩ := exists_draft ht'
  have hc : a.symbol? k' = some a.set.symbols[k'] := Array.getElem?_eq_getElem hk'
  have hdesc := h.describes p' t' d ht' hd
  have hstage : ∃ n, stage a m (some k) p' = some n ∧ k' < n := by
    rcases hearlier with hlt | ⟨rfl, hlt⟩
    · exact ⟨a.size, if_pos hlt, hk'⟩
    · exact ⟨k, stage_self, hlt⟩
  obtain ⟨n, hn, hlt⟩ := hstage
  rw [hn] at hdesc
  cases hdesc with
  | explored _ next =>
    obtain ⟨i, u, _, hi, hu⟩ := next k' hlt _ hc
    exact ⟨i, Numbering.lt_size_of_get? hi, t', _, u, ht', hc, hu, hi⟩

theorem Explores.inOrder_connect (h : b.Explores w w' e a m (some k)) (ht : b.keys.get? m = some t)
    {c : Char} (hc : a.symbol? k = some c) (horder : InOrder w' b.keys a) :
    InOrder (w'.derivative t c).2 (b.connect t k (w'.derivative t c).1).keys a := by
  have hres := h.residual t (Numbering.mem_of_get? ht)
  have hlearns := (Workspace.derives_derivative h.learns.sound hres.1 c).learns
  have hknown := Workspace.known_derivative h.learns.sound hres.1 c
  rw [keys_connect ht]
  generalize w'.derivative t c = r at hlearns hknown
  obtain ⟨d, w''⟩ := r
  dsimp only at hlearns hknown ⊢
  cases hfind : b.keys.find? d with
  | some i =>
    rw [Numbering.number_of_get? (Numbering.find?_eq_some_iff.1 hfind)]
    exact horder.learn hlearns
  | none =>
    have hkeep : ∀ i u, b.keys.get? i = some u → (b.keys.push d hfind).get? i = some u :=
      fun _ _ => Numbering.get?_push_of_get? hfind
    have hnew : (b.keys.push d hfind).get? b.keys.size = some d := by
      rw [Numbering.get?_push, if_pos rfl]
    rw [Numbering.number_of_not_mem hfind]
    intro j hpos hj
    rw [Numbering.size_push] at hj
    rcases Nat.lt_succ_iff_lt_or_eq.1 hj with hj | rfl
    · obtain ⟨p, k, hdiscovered⟩ := horder j hpos hj
      exact ⟨p, k, hdiscovered.mono hlearns hkeep⟩
    · refine ⟨m, k, Numbering.lt_size_of_get? ht, ⟨t, c, d, hkeep m t ht, hc, hknown, hnew⟩, ?_⟩
      intro p' k' hk' hearlier
      obtain ⟨i, hi, hleads⟩ := h.leads ht hk' hearlier
      exact ⟨i, hi, hleads.mono hlearns hkeep⟩

end Builder

namespace Construction

variable {room : Nat} {w : Workspace} {e t : TermId} {a : Alphabet} {m k : Nat} {c : Char}
  {x y : Construction room} {symbols : List Char}

def Ordered (x : Construction room) (a : Alphabet) : Prop := InOrder x.workspace x.builder.keys a

theorem of_step_ok (h : x.step t k c = .ok y) :
    y.workspace = (x.workspace.derivative t c).2 ∧
      y.builder = x.builder.connect t k (x.workspace.derivative t c).1 := by
  unfold step at h
  dsimp only at h
  cases hr : enter { x with workspace := (x.workspace.derivative t c).2 }
      (x.workspace.derivative t c).1 with
  | error z =>
    rw [hr] at h
    contradiction
  | ok z =>
    obtain ⟨hworkspace, hbuilder, _⟩ := of_enter_ok hr
    rw [hr] at h
    cases h
    obtain ⟨_, _, builder, _, _⟩ := z
    dsimp only at hworkspace hbuilder
    subst hbuilder
    exact ⟨hworkspace, rfl⟩

theorem Invariant.step (hx : x.Invariant w e a m (some k)) (ht : x.residuals.seen.get? m = some t)
    (hc : a.symbol? k = some c) (h : x.step t k c = .ok y) :
    y.Invariant w e a m (some (k + 1)) ∧ y.residuals.seen.get? m = some t := by
  have henter := reaches_enter hx ht hc
  unfold Construction.step at h
  dsimp only at h henter
  generalize enter _ (x.workspace.derivative t c).1 = r at h henter
  cases r with
  | error z => contradiction
  | ok z =>
    cases h
    exact henter

theorem Invariant.ordered_step (hx : x.Invariant w e a m (some k))
    (ht : x.residuals.seen.get? m = some t) (hc : a.symbol? k = some c)
    (horder : x.Ordered a) (h : x.step t k c = .ok y) : y.Ordered a := by
  have hkey : x.builder.keys.get? m = some t := by rw [hx.keys_eq, ht]
  obtain ⟨hworkspace, hbuilder⟩ := of_step_ok h
  rw [Ordered, hworkspace, hbuilder]
  exact hx.explores.inOrder_connect hkey hc horder

theorem Invariant.ordered_follow (hx : x.Invariant w e a m (some k))
    (ht : x.residuals.seen.get? m = some t) (hk : a.symbols.drop k = symbols)
    (horder : x.Ordered a) (h : x.follow t k symbols = .ok y) : y.Ordered a := by
  induction symbols generalizing k x with
  | nil =>
    cases h
    exact horder
  | cons c symbols ih =>
    have hc : a.symbol? k = some c := by
      rw [Alphabet.symbol?, ← Array.getElem?_toList]
      show a.symbols[k]? = some c
      rw [← List.head?_drop, hk, List.head?_cons]
    rw [follow_cons] at h
    cases hstep : x.step t k c with
    | error z =>
      rw [hstep] at h
      contradiction
    | ok z =>
      rw [hstep] at h
      obtain ⟨hz, htz⟩ := hx.step ht hc hstep
      apply ih hz htz _ (hx.ordered_step ht hc horder hstep) h
      rw [← List.tail_drop, hk, List.tail_cons]

theorem Invariant.leave (hx : x.Invariant w e a m none) {q : Worklist TermId}
    (hq : q.numSeen ≤ room) (hseen : q.seen = x.residuals.seen)
    (ht : x.residuals.seen.get? m = some t) :
    (x.leave t q hq).Invariant w e a m (some 0) ∧
      (x.leave t q hq).builder.keys = x.builder.keys := by
  have hkey : x.builder.keys.get? m = some t := by rw [hx.keys_eq, ht]
  have hkeys : (x.leave t q hq).builder.keys = x.builder.keys := by
    show (if x.workspace.store.nullable t then x.builder.markFinal t else x.builder).keys = _
    split
    · exact Builder.keys_markFinal hkey
    · rfl
  refine ⟨⟨?_, hx.explores.mark hkey⟩, hkeys⟩
  rw [hkeys, hx.keys_eq]
  exact hseen.symm

theorem Invariant.ordered_finish (hx : x.Invariant w e a x.residuals.cursor none)
    {q : Worklist TermId} (hp : x.residuals.pop = some (t, q)) (horder : x.Ordered a)
    (h : x.finish t q (x.numSeen_le_of_pop hp) a.symbols = .ok y) : y.Ordered a := by
  have ht := Worklist.get?_cursor_of_pop hp
  have hseen := Worklist.seen_of_pop hp
  obtain ⟨hleave, hkeys⟩ := hx.leave (x.numSeen_le_of_pop hp) hseen ht
  rw [finish_eq] at h
  apply hleave.ordered_follow _ a.symbols.drop_zero _ h
  · show q.seen.get? x.residuals.cursor = some t
    rw [hseen, ht]
  · rw [Ordered, hkeys]
    exact horder

theorem Invariant.ordered_run (hx : x.Invariant w e a x.residuals.cursor none)
    (horder : x.Ordered a) (h : x.run a.symbols = .ok y) : y.Ordered a := by
  fun_induction run x a.symbols with
  | case1 x _ =>
    cases h
    exact horder
  | case2 _ _ _ _ _ _ => contradiction
  | case3 x t q hp z hz ih =>
    have hfinish := reaches_finish hx hp
    rw [hz] at hfinish
    exact ih hfinish (hx.ordered_finish hp horder hz) h

theorem ordered_start (w : Workspace) (e : TermId) (a : Alphabet) (h : 0 < room) :
    (start w e a h).Ordered a := by
  intro j hpos hj
  exact absurd hj (Nat.not_lt_of_le hpos)

end Construction

namespace Workspace

variable {w : Workspace} {e : TermId} {a : Alphabet} {auto : Automaton}

theorem Represents.successor?_of_leads {keys : Numbering TermId} (h : w.Represents e a auto)
    (hkeys : ∀ i, auto.term? i = keys.get? i) {p k j : Nat} (hleads : Leads w keys a p k j) :
    auto.successor? p k = some j := by
  obtain ⟨t, c, d, ht, hc, hd, hj⟩ := hleads
  rw [← hkeys] at ht hj
  obtain ⟨i, u, hi, hu, hknown⟩ := h.successor p t k c ht hc
  rw [hd] at hknown
  cases hknown
  rw [hi, h.term?_inj i j d hu hj]

theorem Represents.breadthFirst {keys : Numbering TermId} (h : w.Represents e a auto)
    (hkeys : ∀ i, auto.term? i = keys.get? i) (horder : InOrder w keys a) : auto.BreadthFirst := by
  intro j hpos hj
  obtain ⟨t, ht⟩ := h.exists_term j hj
  rw [hkeys] at ht
  obtain ⟨p, k, hdiscovered⟩ := horder j hpos (Numbering.lt_size_of_get? ht)
  refine ⟨p, k, hdiscovered.lt, h.successor?_of_leads hkeys hdiscovered.target, ?_⟩
  intro p' k' i hearlier hi
  have hk' : k' < a.size := h.alphabet_eq ▸ (Automaton.lt_of_successor? hi).2
  obtain ⟨i', hi', hleads⟩ := hdiscovered.earlier p' k' hk' hearlier
  cases (h.successor?_of_leads hkeys hleads).symm.trans hi
  exact hi'

theorem run_of_compile_ok {w' : Workspace} (hroom : 0 < max 1 w.maxStates)
    (h : (w.compile e a).value = (.ok auto, w')) :
    ∃ x : Construction (max 1 w.maxStates), ∃ built : Automaton,
      (Construction.start w e a hroom).run a.symbols = .ok x ∧ x.builder.build = .ok built ∧
        auto = built.attachTerms x.builder.keys.toArray ∧ w' = x.workspace := by
  rcases checkCovers_cases a (w.store.symbolsOf e) with hcovers | ⟨c, hcovers, _, _⟩
  · rw [compile_of_covered hcovers hroom] at h
    cases hx : (Construction.start w e a hroom).run a.symbols with
    | error x =>
      rw [hx] at h
      cases h
    | ok x =>
      rw [hx, conclude] at h
      cases hbuild : x.builder.build with
      | error _ =>
        rw [hbuild] at h
        cases h
      | ok built =>
        rw [hbuild] at h
        cases h
        exact ⟨x, built, rfl, hbuild, rfl, rfl⟩
  · rw [compile_of_error hcovers] at h
    cases h

theorem alphabet_of_compile (hw : w.Sound) (he : e < w.numTerms) {w' : Workspace}
    (h : (w.compile e a).value = (.ok auto, w')) : auto.alphabet = a := by
  have hcompiles := compiles_compile hw he a
  rw [h] at hcompiles
  cases hcompiles with
  | done _ represents => exact represents.alphabet_eq

theorem breadthFirst_of_compile (hw : w.Sound) (he : e < w.numTerms) {w' : Workspace}
    (h : (w.compile e a).value = (.ok auto, w')) : auto.BreadthFirst := by
  have hroom : 0 < max 1 w.maxStates := by omega
  obtain ⟨x, built, hrun, hbuild, rfl, rfl⟩ := run_of_compile_ok hroom h
  have hinvariant := Construction.invariant_start (a := a) hw he hroom
  have horder := hinvariant.ordered_run (Construction.ordered_start w e a hroom) hrun
  obtain ⟨built', hbuild', _, hrepresents⟩ := built_of_run hw he hrun
  cases hbuild.symm.trans hbuild'
  exact hrepresents.breadthFirst (Builder.term?_attachTerms (Builder.makes_of_build hbuild)) horder

/--
The numbering of the states of a compiled automaton depends on nothing but their transitions. Each
state has a least word that leads to it, and these words come in the order of the states, shorter
ones first and those of one length in the order of the alphabet. So two compiled automata over one
alphabet are isomorphic if and only if they have the same transitions and the same accepting states.
-/
theorem Reachable.numbering_canonical (hw : w.Reachable) (he : e < w.numTerms) {w' : Workspace}
    (h : (w.compile e a).value = (.ok auto, w')) :
    (∀ i < auto.numStates, ∃! u, auto.Accesses i u) ∧
    (∀ i j u v, auto.Accesses i u → auto.Accesses j v → i < j → a.Precedes u v) ∧
    ∀ (v v' : Workspace) (e' : TermId) (auto' : Automaton), v.Reachable → e' < v.numTerms →
      (v.compile e' a).value = (.ok auto', v') →
        (auto.isomorphic auto' = true ↔ auto.AgreesWith auto') ∧
          ((∃ f, auto.Renames auto' f) ↔ auto.AgreesWith auto') := by
  have halphabet := alphabet_of_compile hw.sound he h
  have hfirst := breadthFirst_of_compile hw.sound he h
  refine ⟨?_, ?_, ?_⟩
  · intro i hi
    obtain ⟨u, hu⟩ := hfirst.exists_accesses hi
    exact ⟨u, hu, fun _ hv => hv.unique hu⟩
  · intro i j u v hu hv hij
    rw [← halphabet]
    exact hfirst.precedes hu hv hij
  · intro v v' e' auto' hv he' h'
    have halphabet' := alphabet_of_compile hv.sound he' h'
    have hfirst' := breadthFirst_of_compile hv.sound he' h'
    constructor
    · refine ⟨fun hiso => ?_, Automaton.AgreesWith.isomorphic⟩
      exact (Automaton.matched_of_isomorphic hiso).agreesWith hfirst hfirst'
    · refine ⟨?_, fun hagrees => ⟨id, hagrees.renames⟩⟩
      rintro ⟨f, hf⟩
      exact (hf.matched (halphabet.trans halphabet'.symm)).agreesWith hfirst hfirst'

theorem numbering_canonical_symbol :
    let v := (initial 10).perform (.build (.symbol 'a'))
    let w := ((initial 10).perform (.build (.symbol 'b'))).perform (.build (.symbol 'a'))
    let a := Alphabet.ofList ['a', 'b']
    v.Reachable ∧ w.Reachable ∧ 3 < v.numTerms ∧ 4 < w.numTerms ∧
      ∃ auto auto', (v.compile 3 a).value.1 = .ok auto ∧ (w.compile 4 a).value.1 = .ok auto' ∧
        auto.numStates = 3 ∧ (∃! u, auto.Accesses 2 u) ∧ auto.AgreesWith auto' := by
  have hv := reachable_symbol 10 'a'
  have hw := (reachable_symbol 10 'b').perform (.build (.symbol 'a')) (by decide +kernel)
  have he : 3 < ((initial 10).perform (.build (.symbol 'a'))).numTerms := by decide +kernel
  have he' : 4 < (((initial 10).perform (.build (.symbol 'b'))).perform
    (.build (.symbol 'a'))).numTerms := by decide +kernel
  have hsize : (((initial 10).perform (.build (.symbol 'a'))).compile 3
      (.ofList ['a', 'b'])).value.1.map Automaton.numStates = .ok 3 := by decide +kernel
  have hiso : (((initial 10).perform (.build (.symbol 'a'))).compile 3
      (.ofList ['a', 'b'])).value.1.bind (fun auto =>
        ((((initial 10).perform (.build (.symbol 'b'))).perform (.build (.symbol 'a'))).compile 4
          (.ofList ['a', 'b'])).value.1.map auto.isomorphic) = .ok true := by decide +kernel
  generalize (initial 10).perform (.build (.symbol 'a')) = v at *
  generalize ((initial 10).perform (.build (.symbol 'b'))).perform (.build (.symbol 'a')) = w at *
  generalize Alphabet.ofList ['a', 'b'] = a at *
  cases hauto : (v.compile 3 a).value.1 with
  | error e =>
    rw [hauto] at hsize
    contradiction
  | ok auto =>
    cases hauto' : (w.compile 4 a).value.1 with
    | error e =>
      rw [hauto, hauto'] at hiso
      contradiction
    | ok auto' =>
      rw [hauto] at hsize
      rw [hauto, hauto'] at hiso
      have hstates : auto.numStates = 3 := Except.ok.inj hsize
      obtain ⟨hunique, -, hcanonical⟩ := hv.numbering_canonical he (Prod.ext hauto rfl)
      have hagrees := (hcanonical w _ 4 auto' hw he' (Prod.ext hauto' rfl)).1.1 (Except.ok.inj hiso)
      exact ⟨hv, hw, he, he', auto, auto', hauto, hauto', hstates, hunique 2 (by omega), hagrees⟩

end Workspace

end Residual
