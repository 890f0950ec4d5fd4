import Residual.Proofs.Automaton.Isomorphism
import Residual.Proofs.Session
import Residual.Proofs.Simulation

/-!
This module contains recipes, expressions over the operations of a store. What a recipe leads to and
which automaton is compiled from its result does not depend on the history of the workspace.
-/

namespace Residual

inductive Store.Yields (s : Store) : Except Error TermId × Store → Except Error Tree → Prop where
  | error {s' : Store} (e : Error) (ext : s.Extends s') (wellFormed : s'.WellFormed) :
    s.Yields (.error e, s') (.error e)
  | ok {r : TermId × Store} {T : Tree} (builds : s.Builds r T) : s.Yields (.ok r.1, r.2) (.ok T)

theorem Store.Yields.mono {s s' : Store} {r : Except Error TermId × Store} {o : Except Error Tree}
    (h : s'.Yields r o) (hs : s.Extends s') : s.Yields r o := by
  cases h with
  | error e ext wellFormed => exact .error e (hs.trans ext) wellFormed
  | ok builds => exact .ok (builds.mono hs)

namespace Operation

noncomputable def outcome (sub : TermId → Tree) (op : Operation) : Except Error Tree :=
  match op with
  | repeated _ min max => if max < min then .error (.invalidBounds min max) else .ok (op.tree sub)
  | op => .ok (op.tree sub)

theorem outcome_map (op : Operation) (f : TermId → TermId) (sub : TermId → Tree) :
    (op.map f).outcome sub = op.outcome fun t => sub (f t) := by
  cases op <;> simp [outcome, map, tree, Function.comp_def]

theorem yields_apply {s : Store} (hs : s.WellFormed) {op : Operation}
    (hargs : ∀ t ∈ op.args, t < s.size) : s.Yields (op.apply s) (op.outcome s.tree) := by
  by_cases hop : op.InOrder
  · obtain ⟨r, hr, hbuilds⟩ := builds_apply hs hargs hop
    have houtcome : op.outcome s.tree = .ok (op.tree s.tree) := by
      cases op with
      | repeated t min max => exact if_neg (Nat.not_lt_of_le hop)
      | _ => rfl
    rw [hr, houtcome]
    exact .ok hbuilds
  · cases op with
    | repeated t min max =>
      have hlt : max < min := Nat.lt_of_not_le hop
      rw [apply, Store.repeated, outcome, if_pos hlt, if_pos hlt]
      exact .error _ (.refl s) hs
    | _ => exact absurd True.intro hop

end Operation

/--
An expression over the operations. The terms that `op` is applied to are given as positions in the
list of the parts; a position without a part stands for the empty term.
-/
inductive Recipe where
  | node (op : Operation) (parts : List Recipe)

namespace Recipe

section Build

mutual

def build : Recipe → Store → Except Error TermId × Store
  | node op parts, s =>
    match buildAll parts s with
    | (.error e, s) => (.error e, s)
    | (.ok ts, s) => (op.map fun i => ts.getD i Store.empty).apply s

def buildAll : List Recipe → Store → Except Error (List TermId) × Store
  | [], s => (.ok [], s)
  | x :: parts, s =>
    match build x s with
    | (.error e, s) => (.error e, s)
    | (.ok t, s) =>
      match buildAll parts s with
      | (.error e, s) => (.error e, s)
      | (.ok ts, s) => (.ok (t :: ts), s)

end

mutual

noncomputable def outcome : Recipe → Except Error Tree
  | node op parts =>
    match outcomes parts with
    | .error e => .error e
    | .ok Ts => op.outcome fun i => Ts.getD i .emptySet

noncomputable def outcomes : List Recipe → Except Error (List Tree)
  | [] => .ok []
  | x :: parts =>
    match outcome x with
    | .error e => .error e
    | .ok T =>
      match outcomes parts with
      | .error e => .error e
      | .ok Ts => .ok (T :: Ts)

end

end Build

section Parts

variable {s : Store} {ts : List TermId}

theorem getD_lt_size (h : ∀ t ∈ ts, t < s.size) (i : Nat) : ts.getD i Store.empty < s.size := by
  rw [List.getD_eq_getElem?_getD]
  cases ht : ts[i]? with
  | none => exact s.empty_lt_size
  | some t => exact h t (List.mem_of_getElem? ht)

theorem tree_getD (s : Store) (ts : List TermId) (i : Nat) :
    s.tree (ts.getD i Store.empty) = (ts.map s.tree).getD i .emptySet := by
  rw [List.getD_eq_getElem?_getD, List.getD_eq_getElem?_getD, List.getElem?_map]
  cases ts[i]? with
  | none => exact s.tree_empty
  | some t => rfl

inductive YieldsAll (s : Store) :
    Except Error (List TermId) × Store → Except Error (List Tree) → Prop where
  | error {s' : Store} (e : Error) (ext : s.Extends s') (wellFormed : s'.WellFormed) :
    YieldsAll s (.error e, s') (.error e)
  | ok {s' : Store} {ts : List TermId} (ext : s.Extends s') (wellFormed : s'.WellFormed)
    (issued : ∀ t ∈ ts, t < s'.size) : YieldsAll s (.ok ts, s') (.ok (ts.map s'.tree))

end Parts

section Yields

mutual

theorem yields_build :
    ∀ (x : Recipe) {s : Store}, s.WellFormed → s.Yields (build x s) (outcome x)
  | node op parts, s, hs => by
    have h := yieldsAll_buildAll parts hs
    rw [build, outcome]
    generalize buildAll parts s = r at h
    generalize outcomes parts = o at h
    cases h with
    | error e ext wellFormed => exact .error e ext wellFormed
    | ok ext wellFormed issued =>
      simp only [← tree_getD, ← Operation.outcome_map]
      apply (Operation.yields_apply wellFormed _).mono ext
      rw [Operation.args_map]
      intro t ht
      obtain ⟨i, _, rfl⟩ := List.mem_map.1 ht
      exact getD_lt_size issued i

theorem yieldsAll_buildAll :
    ∀ (parts : List Recipe) {s : Store}, s.WellFormed →
      YieldsAll s (buildAll parts s) (outcomes parts)
  | [], s, hs => .ok (.refl s) hs (by simp)
  | x :: parts, s, hs => by
    have h := yields_build x hs
    rw [buildAll, outcomes]
    generalize build x s = r at h
    generalize outcome x = o at h
    cases h with
    | error e ext wellFormed => exact .error e ext wellFormed
    | @ok r T builds =>
      have h' := yieldsAll_buildAll parts builds.wellFormed
      dsimp only
      generalize buildAll parts r.2 = r' at h'
      generalize outcomes parts = o' at h'
      cases h' with
      | error e ext wellFormed => exact .error e (builds.grows.ext.trans ext) wellFormed
      | @ok s' ts ext wellFormed issued =>
        have hT : T = s'.tree r.1 := by rw [ext.tree_eq builds.grows.lt_size, builds.tree_eq]
        have hissued : ∀ t ∈ r.1 :: ts, t < s'.size := by
          intro t ht
          rcases List.mem_cons.1 ht with rfl | ht
          · exact ext.lt_size builds.grows.lt_size
          · exact issued t ht
        rw [hT]
        exact .ok (builds.grows.ext.trans ext) wellFormed hissued

end

end Yields

end Recipe

namespace Workspace

variable {v w : Workspace}

/--
What a recipe leads to, and the automaton compiled from its result, do not depend on what was done
before: two workspaces report the same error, or they compile automata that differ in nothing but the
terms of their states.
-/
theorem Reachable.compile_recipe (hv : v.Reachable) (hw : w.Reachable)
    (hlimit : v.maxStates = w.maxStates) (x : Recipe) (a : Alphabet) :
    let r := v.build x.build
    let r' := w.build x.build
    (∃ e, r.1 = .error e ∧ r'.1 = .error e) ∨
      ∃ t u, r.1 = .ok t ∧ r'.1 = .ok u ∧
        ((∃ e, (r.2.compile t a).value.1 = .error e ∧ (r'.2.compile u a).value.1 = .error e) ∨
          ∃ auto auto', (r.2.compile t a).value.1 = .ok auto ∧
            (r'.2.compile u a).value.1 = .ok auto' ∧ auto.AgreesWith auto' ∧
            auto.isomorphic auto' = true) := by
  have hl := x.yields_build hv.sound.wellFormed
  have hr := x.yields_build hw.sound.wellFormed
  have hvs := hv.sound
  have hws := hw.sound
  obtain ⟨store, derivatives, limit⟩ := v
  obtain ⟨store', derivatives', limit'⟩ := w
  simp only [build]
  dsimp only at hl hr hlimit
  generalize x.build store = r at hl ⊢
  generalize x.build store' = r' at hr ⊢
  generalize x.outcome = o at hl hr
  cases hl with
  | error e _ _ =>
    cases hr with
    | error _ _ _ => exact Or.inl ⟨e, rfl, rfl⟩
  | @ok r T hl =>
    cases hr with
    | @ok r' _ hr =>
      refine Or.inr ⟨r.1, r'.1, rfl, rfl, ?_⟩
      have hsame : SameTree ⟨r.2, derivatives, limit⟩ ⟨r'.2, derivatives', limit'⟩ r.1 r'.1 :=
        ⟨hl.grows.lt_size, hr.grows.lt_size, hl.tree_eq.trans hr.tree_eq.symm⟩
      have hagree := agree_compile (hvs.of_extends hl.wellFormed hl.grows.ext limit)
        (hws.of_extends hr.wellFormed hr.grows.ext limit') hsame hlimit a
      generalize (compile _ r.1 a).value.1 = c at hagree ⊢
      generalize (compile _ r'.1 a).value.1 = c' at hagree ⊢
      cases hagree with
      | error e => exact Or.inl ⟨e, rfl, rfl⟩
      | ok h => exact Or.inr ⟨_, _, rfl, rfl, h, h.isomorphic⟩

theorem compile_recipe_word :
    let v := initial 10
    let w := (initial 10).perform (.build (.symbol 'b'))
    let x := Recipe.node (.concat 0 1) [.node (.symbol 'a') [], .node (.symbol 'b') []]
    let a := Alphabet.ofList ['a', 'b']
    v.Reachable ∧ w.Reachable ∧ v.maxStates = w.maxStates ∧
      ∃ auto auto', ((v.build x.build).2.compile 5 a).value.1 = .ok auto ∧
        ((w.build x.build).2.compile 5 a).value.1 = .ok auto' ∧ auto.term? 1 = some 4 ∧
        auto'.term? 1 = some 3 ∧ auto.isomorphic auto' = true := by
  have hv := Reachable.initial 10
  have hw := reachable_symbol 10 'b'
  have hlimit : (initial 10).maxStates =
    ((initial 10).perform (.build (.symbol 'b'))).maxStates := rfl
  have h := hv.compile_recipe hw hlimit
    (.node (.concat 0 1) [.node (.symbol 'a') [], .node (.symbol 'b') []]) (.ofList ['a', 'b'])
  have hok : ((initial 10).build (Recipe.node (.concat 0 1)
      [.node (.symbol 'a') [], .node (.symbol 'b') []]).build).1 = .ok 5 := by decide +kernel
  have hok' : (((initial 10).perform (.build (.symbol 'b'))).build (Recipe.node (.concat 0 1)
      [.node (.symbol 'a') [], .node (.symbol 'b') []]).build).1 = .ok 5 := by decide +kernel
  have hterm : (((initial 10).build (Recipe.node (.concat 0 1)
      [.node (.symbol 'a') [], .node (.symbol 'b') []]).build).2.compile 5
        (.ofList ['a', 'b'])).value.1.map (·.term? 1) = .ok (some 4) := by decide +kernel
  have hterm' : ((((initial 10).perform (.build (.symbol 'b'))).build (Recipe.node (.concat 0 1)
      [.node (.symbol 'a') [], .node (.symbol 'b') []]).build).2.compile 5
        (.ofList ['a', 'b'])).value.1.map (·.term? 1) = .ok (some 3) := by decide +kernel
  generalize (initial 10).perform (.build (.symbol 'b')) = w at *
  generalize initial 10 = v at *
  generalize Recipe.node (.concat 0 1) _ = x at *
  obtain ⟨e, he, _⟩ | ⟨t, u, ht, hu, h⟩ := h
  · cases he.symm.trans hok
  · cases ht.symm.trans hok
    cases hu.symm.trans hok'
    obtain ⟨e, he, _⟩ | ⟨auto, auto', hauto, hauto', _, hisomorphic⟩ := h
    · rw [he] at hterm
      contradiction
    · rw [hauto] at hterm
      rw [hauto'] at hterm'
      exact ⟨hv, hw, hlimit, auto, auto', hauto, hauto', Except.ok.inj hterm, Except.ok.inj hterm',
        hisomorphic⟩

end Workspace

end Residual
