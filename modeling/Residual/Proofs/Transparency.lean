import Residual.Proofs.Lockstep
import Residual.Proofs.Query
import Residual.Proofs.Sharing

/-!
This module contains the transparency of derivatives. Whether a workspace remembers the derivatives
that it once knew shows neither in the results of later computations nor in the store.
-/

namespace Residual

namespace Workspace

structure Repeats {α : Type} (w : Workspace) (r : α × Workspace) (x : α) : Prop where
  result_eq : r.1 = x
  store_eq : r.2.store = w.store

variable {u v w : Workspace} {t : TermId} {a : Alphabet}

theorem repeats_derivative {c : Char} {d : TermId} (hu : u.Sound)
    (hd : u.derivatives[(⟨t, c⟩ : DerivativeKey)]? = some d) (hv : v.Sound)
    (hext : u.store.Extends v.store) : v.Repeats (v.derivative t c) d := by
  obtain ⟨v', hv', _, hstore⟩ := derivative_again hu hd hv hext
  rw [hv']
  exact ⟨rfl, hstore⟩

theorem repeats_wordDerivative {word : List Char} (hu : u.Sound) (ht : t < u.numTerms)
    (hv : v.Sound) (hext : (u.wordDerivative t word).2.store.Extends v.store) :
    v.Repeats (v.wordDerivative t word) (u.wordDerivative t word).1 := by
  induction word generalizing t u v with
  | nil => exact ⟨rfl, rfl⟩
  | cons c word ih =>
    have hfirst := derives_derivative hu ht c
    have hrest := derives_wordDerivative hfirst.learns.sound hfirst.lt_numTerms word
    rw [wordDerivative_cons] at hext
    obtain ⟨v', hv', hsound, hstore⟩ := derivative_again hfirst.learns.sound
      (known_derivative hu ht c) hv (hrest.learns.ext.trans hext)
    have h := ih hfirst.learns.sound hfirst.lt_numTerms hsound (hstore ▸ hext)
    rw [wordDerivative_cons, wordDerivative_cons, hv']
    exact ⟨h.result_eq, h.store_eq.trans hstore⟩

structure Lags (s : Store) (u v : Workspace) : Prop where
  sound : v.Sound
  ext : u.store.Extends s
  store_eq : v.store = s

theorem carries_lags {s : Store} (hext : w.store.Extends s) :
    Construction.Carries (Lags s) w where
  ext u v h := h.store_eq ▸ h.ext
  derivative := by
    intro u v t c h hu ht hlearns
    have hknown := known_derivative hu ht c
    have hsound := (derives_derivative hu ht c).learns.sound
    have hlater := hlearns.ext.trans hext
    obtain ⟨v', hv', hsound', hstore⟩ :=
      derivative_again hsound hknown h.sound (h.store_eq.symm ▸ hlater)
    exact ⟨v', hv', hsound', hlater, hstore.trans h.store_eq⟩

theorem repeats_conclude {room room' limit limit' : Nat}
    {r : Except (Construction room) (Construction room)}
    {r' : Except (Construction room') (Construction room')}
    (h : Construction.Accompanies (Lags v.store) r r') (hroom : room = room')
    (hlimit : limit = limit') :
    v.Repeats (conclude t a limit' r').value (conclude t a limit r).value.1 := by
  subst hlimit
  cases r with
  | error x =>
    obtain ⟨y, rfl, hy⟩ := h hroom
    exact ⟨rfl, hy.store_eq⟩
  | ok x =>
    obtain ⟨y, rfl, hxy⟩ := h
    unfold conclude
    dsimp only
    rw [hxy.builder_eq]
    cases x.builder.build with
    | error e => exact ⟨rfl, hxy.workspace.store_eq⟩
    | ok auto => exact ⟨rfl, hxy.workspace.store_eq⟩

theorem repeats_compile (hu : u.Sound) (ht : t < u.numTerms) (hv : v.Sound)
    (hlimit : v.maxStates = u.maxStates) (hext : (u.compile t a).value.2.store.Extends v.store) :
    v.Repeats (v.compile t a).value (u.compile t a).value.1 := by
  have hlearns := learns_compile hu ht a
  have hsymbols : v.store.symbolsOf t = u.store.symbolsOf t :=
    (hlearns.ext.trans hext).symbolsOf_eq ht
  cases hcovers : a.checkCovers (u.store.symbolsOf t) with
  | error e =>
    rw [compile_of_error hcovers, compile_of_error (hsymbols ▸ hcovers)]
    exact ⟨rfl, rfl⟩
  | ok _ =>
    have hroom : 0 < max 1 u.maxStates := by omega
    have hroom' : 0 < max 1 v.maxStates := by omega
    rw [compile_of_covered hcovers hroom, reached_conclude] at hext
    rw [compile_of_covered hcovers hroom, compile_of_covered (hsymbols ▸ hcovers) hroom']
    have hissued := Construction.issued_start hu ht a hroom
    have hrun := (hissued.advances_run a.symbols).learns
    have hstart : Construction.Alike (Lags v.store) (.start u t a hroom) (.start v t a hroom') :=
      ⟨⟨hv, hrun.ext.trans hext, rfl⟩, rfl, rfl, rfl⟩
    have hfollows := hstart.run (carries_lags hext) (by rw [hlimit]) hissued (.refl hrun.sound)
    exact repeats_conclude hfollows (by rw [hlimit]) hlimit.symm

theorem Reachable.build_again (hw : w.Reachable) {op : Operation}
    (hargs : ∀ t ∈ op.args, t < w.numTerms) (later : Session (w.build op.apply).2) (i : Nat) :
    (later.state i).Repeats ((later.state i).build op.apply) (w.build op.apply).1 := by
  have hreplays := Operation.replays_apply hw.sound.wellFormed hargs
  have hlater := later.grows_state (grows_build hw.sound hargs).sound i
  have hagain := hreplays.again (later.state i).store hlater.ext
  rw [build_eq (later.state i), hagain]
  exact ⟨rfl, rfl⟩

/--
A derivative that a workspace knows or works out is the same term whenever it is asked for again,
and so are the derivative by a word and the automaton, or the error, that a compilation led to.
Nothing of this builds a term, whatever has happened since and whatever has been forgotten.
-/
theorem Reachable.derivatives_transparent (hw : w.Reachable) (ht : t < w.numTerms) :
    (∀ c d, w.derivatives[(⟨t, c⟩ : DerivativeKey)]? = some d →
      ∀ (later : Session w) (i : Nat),
        (later.state i).Repeats ((later.state i).derivative t c) d) ∧
    (∀ c, ∀ (later : Session (w.derivative t c).2) (i : Nat),
      (later.state i).Repeats ((later.state i).derivative t c) (w.derivative t c).1) ∧
    (∀ word, ∀ (later : Session (w.wordDerivative t word).2) (i : Nat),
      (later.state i).Repeats ((later.state i).wordDerivative t word) (w.wordDerivative t word).1) ∧
    ∀ a, ∀ (later : Session (w.compile t a).value.2) (i : Nat),
      (later.state i).maxStates = w.maxStates →
        (later.state i).Repeats ((later.state i).compile t a).value (w.compile t a).value.1 := by
  have hsound := hw.sound
  refine ⟨?_, ?_, ?_, ?_⟩
  · intro c d hd later i
    have hlater := later.grows_state hsound i
    exact repeats_derivative hsound hd hlater.sound hlater.ext
  · intro c later i
    have hlearns := (derives_derivative hsound ht c).learns
    have hlater := later.grows_state hlearns.sound i
    exact repeats_derivative hlearns.sound (known_derivative hsound ht c) hlater.sound hlater.ext
  · intro word later i
    have hlearns := (derives_wordDerivative hsound ht word).learns
    have hlater := later.grows_state hlearns.sound i
    exact repeats_wordDerivative hsound ht hlater.sound hlater.ext
  · intro a later i hlimit
    have hlearns := learns_compile hsound ht a
    have hlater := later.grows_state hlearns.sound i
    exact repeats_compile hsound ht hlater.sound hlimit hlater.ext

theorem derivatives_transparent_symbol :
    let w := (initial 2).perform (.build (.symbol 'a'))
    let a := Alphabet.ofList ['a']
    let later := Session.repeating (w.derivative 3 'a').2 .clearDerivatives rfl
    let later' := Session.repeating (w.compile 3 a).value.2 .clearDerivatives rfl
    w.Reachable ∧ 3 < w.numTerms ∧
      (∀ i, (later.state i).Repeats ((later.state i).derivative 3 'a') Store.epsilon) ∧
      (later'.state 1).Repeats ((later'.state 1).compile 3 a).value (w.compile 3 a).value.1 := by
  intro w a later later'
  have hw : w.Reachable := reachable_symbol 2 'a'
  have ht : 3 < w.numTerms := by decide
  have hderivative : (w.derivative 3 'a').1 = Store.epsilon := by decide +kernel
  have hlimit : (later'.state 1).maxStates = w.maxStates := by decide +kernel
  obtain ⟨_, hderivatives, _, hcompile⟩ := hw.derivatives_transparent ht
  refine ⟨hw, ht, fun i => ?_, hcompile a later' 1 hlimit⟩
  rw [← hderivative]
  exact hderivatives 'a' later i

end Workspace

end Residual
