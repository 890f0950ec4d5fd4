import Residual.Proofs.Transparency
import Residual.Proofs.Tree.Mentions

/-!
This module contains what derivatives do with the symbols that a term does not mention: none of them
comes up in a residual, and all of them lead to the same residuals, with the same store.
-/

namespace Residual

open Std

namespace Store

variable {s : Store} {t u : TermId} {c d : Char}

def Alike (s : Store) (t : TermId) (c d : Char) : Prop :=
  c = d ∨ c ∉ s.symbolsOf t ∧ d ∉ s.symbolsOf t

theorem alike_tree : (s.tree t).Alike c d ↔ s.Alike t c d := by
  rw [Tree.Alike, Alike, mentions_tree, mentions_tree, mem_symbolsOf_iff, mem_symbolsOf_iff]

theorem Alike.symm (h : s.Alike t c d) : s.Alike t d c := h.imp Eq.symm And.symm

theorem mem_children_of_mem_dependencies (h : u ∈ s.dependencies t) : u ∈ (s.expr t).children := by
  unfold dependencies at h
  cases he : s.expr t with
  | concat left right =>
    simp only [he] at h
    split at h <;> simp_all [Expr.children]
  | _ => simpa only [he] using h

theorem Alike.of_mem_dependencies (h : s.Alike t c d) (hu : u ∈ s.dependencies t) :
    s.Alike u c d := by
  have hmentions : ∀ c, c ∈ s.symbolsOf u → c ∈ s.symbolsOf t := by
    intro c hc
    rw [mem_symbolsOf_iff] at hc ⊢
    exact mentions_iff.2 (.inr ⟨u, mem_children_of_mem_dependencies hu, hc⟩)
  exact h.imp_right fun h => ⟨mt (hmentions c) h.1, mt (hmentions d) h.2⟩

theorem Alike.mono {s' : Store} (h : s.Alike t c d) (hext : s.Extends s') (ht : t < s.size) :
    s'.Alike t c d := by
  rw [Alike, hext.symbolsOf_eq ht]
  exact h

theorem Alike.derive_eq (h : s.Alike t c d) (sub : TermId → TermId) :
    s.derive c t sub = s.derive d t sub := by
  rw [← alike_tree, tree_eq] at h
  unfold derive
  cases he : s.expr t with
  | literal set =>
    rw [he] at h
    simp only [h.contains_eq]
  | _ => rfl

theorem Explained.of_alike (h : s.Explained c t) (halike : s.Alike t c d) : s.Explained d t := by
  induction h with
  | intro sub lt_size sub_lt sub_eq derive_eq _ ih =>
    apply Explained.intro sub lt_size sub_lt
    · intro u hu
      rw [sub_eq u hu, (alike_tree.2 (halike.of_mem_dependencies hu)).derivative_eq]
    · rw [← halike.derive_eq, derive_eq]
    · intro u hu
      exact ih u hu (halike.of_mem_dependencies hu)

end Store

namespace Workspace

variable {w u v : Workspace} {e t : TermId} {c d : Char} {a : Alphabet}

section Alike

theorem explained_of_contains (hu : u.Sound) (h : u.derivatives.contains ⟨t, c⟩ = true) :
    u.store.Explained c t := by
  rw [TreeMap.contains_eq_isSome_getElem?, Option.isSome_iff_exists] at h
  obtain ⟨x, hx⟩ := h
  exact hu.explained _ x hx

theorem store_combine_of_alike (hu : u.Sound) (hv : v.Sound) (hstore : u.store = v.store)
    (halike : u.store.Alike t c d)
    (hknown : ∀ x ∈ u.store.dependencies t, ∃ y, u.derivatives[(⟨x, c⟩ : DerivativeKey)]? = some y)
    (hknown' : ∀ x ∈ u.store.dependencies t,
      ∃ y, v.derivatives[(⟨x, d⟩ : DerivativeKey)]? = some y) :
    (u.combine c t).store = (v.combine d t).store := by
  have hsub : ∀ x ∈ u.store.dependencies t,
      u.derivatives.getD ⟨x, c⟩ Store.empty = v.derivatives.getD ⟨x, d⟩ Store.empty := by
    intro x hx
    obtain ⟨y, hy⟩ := hknown x hx
    obtain ⟨z, hz⟩ := hknown' x hx
    obtain ⟨_, hylt, hytree⟩ := hu.derivatives _ y hy
    obtain ⟨_, hzlt, hztree⟩ := hv.derivatives _ z hz
    rw [numTerms, ← hstore] at hzlt
    rw [← hstore] at hztree
    rw [TreeMap.getD_eq_getD_getElem?, TreeMap.getD_eq_getD_getElem?, hy, hz, Option.getD_some,
      Option.getD_some]
    apply hu.wellFormed.tree_inj hylt hzlt
    rw [hytree, hztree, (Store.alike_tree.2 (halike.of_mem_dependencies hx)).derivative_eq]
  rw [store_combine, store_combine, ← hstore, Store.derive_congr hsub, halike.derive_eq]

theorem store_foldr_of_alike {l : List TermId} (hu : u.Sound) (hv : v.Sound)
    (hstore : u.store = v.store) (hl : ∀ x ∈ l, x < u.numTerms ∧ u.store.Alike x c d)
    (hlearn : ∀ x ∈ l, ∀ u v : Workspace, u.Sound → v.Sound → u.store = v.store → x < u.numTerms →
      u.store.Alike x c d → (u.learn c x).store = (v.learn d x).store) :
    (l.foldr (fun x w => w.learn c x) u).store = (l.foldr (fun x w => w.learn d x) v).store := by
  induction l with
  | nil => exact hstore
  | cons x l ih =>
    obtain ⟨⟨hx, halike⟩, hl⟩ := List.forall_mem_cons.1 hl
    obtain ⟨hlearnx, hlearn⟩ := List.forall_mem_cons.1 hlearn
    have hlt : ∀ y ∈ l, y < u.numTerms := fun y hy => (hl y hy).1
    have hlearns := (learns_foldr_learn hu (c := c) hlt).1
    rw [numTerms, hstore] at hlt
    have hlearns' := (learns_foldr_learn hv (c := d) hlt).1
    apply hlearnx _ _ hlearns.sound hlearns'.sound (ih hl hlearn) (hlearns.ext.lt_size hx)
    exact halike.mono hlearns.ext hx

theorem store_learn_of_alike (hu : u.Sound) (hv : v.Sound) (hstore : u.store = v.store)
    (ht : t < u.numTerms) (halike : u.store.Alike t c d) :
    (u.learn c t).store = (v.learn d t).store := by
  induction t using Nat.strongRecOn generalizing u v with
  | ind t ih =>
    -- a derivative that one of them knows is learned by the other without new terms
    by_cases hc : u.derivatives.contains ⟨t, c⟩ = true
    · have hexplained := (explained_of_contains hu hc).of_alike halike
      rw [learn_eq u, if_pos hc, store_learn_of_explained (hstore ▸ hexplained) hv rfl, hstore]
    by_cases hd : v.derivatives.contains ⟨t, d⟩ = true
    · have hexplained := hstore ▸ explained_of_contains hv hd
      rw [learn_eq v, if_pos hd, store_learn_of_explained (hexplained.of_alike halike.symm) hu rfl,
        hstore]
    have hdeps : ∀ x ∈ u.store.dependencies t, x < u.numTerms :=
      fun x hx => Nat.lt_trans (Store.lt_of_mem_dependencies hx) ht
    have hdeps' : ∀ x ∈ u.store.dependencies t, x < v.numTerms := by
      rw [numTerms, ← hstore]
      exact hdeps
    have hfold := store_foldr_of_alike hu hv hstore
      (fun x hx => ⟨hdeps x hx, halike.of_mem_dependencies hx⟩)
      fun x hx _ _ => ih x (Store.lt_of_mem_dependencies hx)
    obtain ⟨hlearns, hknown⟩ := learns_foldr_learn hu (c := c) hdeps
    obtain ⟨hlearns', hknown'⟩ := learns_foldr_learn hv (c := d) hdeps'
    rw [learn_eq u, learn_eq v, if_neg hc, if_neg hd, ← hstore]
    have hdependencies := hlearns.ext.dependencies_eq ht
    apply store_combine_of_alike hlearns.sound hlearns'.sound hfold (halike.mono hlearns.ext ht)
    · rw [hdependencies]
      exact hknown
    · rw [hdependencies]
      exact hknown'

structure Coincide (r r' : TermId × Workspace) : Prop where
  term_eq : r'.1 = r.1
  store_eq : r'.2.store = r.2.store

theorem coincide_derivative (hu : u.Sound) (hv : v.Sound) (hstore : u.store = v.store)
    (ht : t < u.numTerms) (halike : u.store.Alike t c d) :
    Coincide (u.derivative t c) (v.derivative t d) := by
  have hc := derives_derivative hu ht c
  have ht' : t < v.numTerms := by
    rw [numTerms, ← hstore]
    exact ht
  have hd := derives_derivative hv ht' d
  have hstore' : (v.derivative t d).2.store = (u.derivative t c).2.store :=
    (store_learn_of_alike hu hv hstore ht halike).symm
  refine ⟨?_, hstore'⟩
  have hlt := hd.lt_numTerms
  have htree := hd.tree_eq
  rw [numTerms, hstore'] at hlt
  rw [hstore', ← hstore, ← (Store.alike_tree.2 halike).derivative_eq, ← hc.tree_eq] at htree
  exact hc.learns.sound.wellFormed.tree_inj hlt hc.lt_numTerms htree

theorem alike_derivative (hu : u.Sound) (ht : t < u.numTerms) (h : u.store.Alike t c d)
    (b : Char) : (u.derivative t b).2.store.Alike (u.derivative t b).1 c d := by
  have hderives := derives_derivative hu ht b
  rw [← Store.alike_tree] at h ⊢
  rw [hderives.tree_eq]
  exact h.mono fun _ => Tree.mentions_derivative

theorem coincide_wordDerivative {word word' : List Char} (hu : u.Sound) (hv : v.Sound)
    (hstore : u.store = v.store) (ht : t < u.numTerms)
    (halike : List.Forall₂ (u.store.Alike t) word word') :
    Coincide (u.wordDerivative t word) (v.wordDerivative t word') := by
  induction word generalizing u v t word' with
  | nil =>
    cases halike
    exact ⟨rfl, hstore.symm⟩
  | cons c word ih =>
    cases halike with
    | @cons _ d _ _ hcd hrest =>
      have hfirst := coincide_derivative hu hv hstore ht hcd
      have hderives := derives_derivative hu ht c
      have ht' : t < v.numTerms := by
        rw [numTerms, ← hstore]
        exact ht
      have hsound := (derives_derivative hv ht' d).learns.sound
      rw [wordDerivative_cons, wordDerivative_cons, hfirst.term_eq]
      apply ih hderives.learns.sound hsound hfirst.store_eq.symm hderives.lt_numTerms
      exact hrest.imp fun _ _ h => alike_derivative hu ht h c

end Alike

theorem repeats_wordDerivative_of_alike {word word' : List Char} (hu : u.Sound)
    (ht : t < u.numTerms) (hv : v.Sound)
    (hext : (u.wordDerivative t word).2.store.Extends v.store)
    (halike : List.Forall₂ (u.store.Alike t) word word') :
    v.Repeats (v.wordDerivative t word') (u.wordDerivative t word).1 := by
  have hlater := (derives_wordDerivative hu ht word).learns.ext.trans hext
  have hrepeats := repeats_wordDerivative hu ht hv hext
  have hcoincide := coincide_wordDerivative hv hv rfl (hlater.lt_size ht)
    (halike.imp fun _ _ h => h.mono hlater ht)
  exact ⟨hcoincide.term_eq.trans hrepeats.result_eq, hcoincide.store_eq.trans hrepeats.store_eq⟩

section Covers

theorem symbolsOf_of_tree {word : List Char}
    (htree : v.store.tree t = (w.store.tree e).wordDerivative word) :
    ∀ c ∈ v.store.symbolsOf t, c ∈ w.store.symbolsOf e := by
  intro c hc
  rw [Store.mem_symbolsOf_iff, ← Store.mentions_tree, htree] at hc
  rw [Store.mem_symbolsOf_iff, ← Store.mentions_tree]
  exact Tree.mentions_wordDerivative hc

/--
No residual of a term mentions a symbol that the term does not mention, so that an alphabet with all
symbols of the term has all symbols of its residuals, and of the states of its automaton. Two words
that only differ in symbols that the term does not mention lead to one residual with one store, also
when the second word is tried at any later time.
-/
theorem Reachable.unmentioned_symbols (hw : w.Reachable) (he : e < w.numTerms) :
    (∀ word, ∀ c ∈ (w.wordDerivative e word).2.store.symbolsOf (w.wordDerivative e word).1,
      c ∈ w.store.symbolsOf e) ∧
    (∀ a : Alphabet, a.checkCovers (w.store.symbolsOf e) = .ok () →
      (∀ word, a.checkCovers
        ((w.wordDerivative e word).2.store.symbolsOf (w.wordDerivative e word).1) = .ok ()) ∧
      ∀ auto w', (w.compile e a).value = (.ok auto, w') → ∀ i t, auto.term? i = some t →
        a.checkCovers (w'.store.symbolsOf t) = .ok ()) ∧
    ∀ word word' : List Char, List.Forall₂ (w.store.Alike e) word word' →
      Coincide (w.wordDerivative e word) (w.wordDerivative e word') ∧
      ∀ (later : Session (w.wordDerivative e word).2) (i : Nat),
        (later.state i).Repeats ((later.state i).wordDerivative e word')
          (w.wordDerivative e word).1 := by
  have hsound := hw.sound
  have hsymbols : ∀ word, ∀ c ∈ (w.wordDerivative e word).2.store.symbolsOf
      (w.wordDerivative e word).1, c ∈ w.store.symbolsOf e :=
    fun word => symbolsOf_of_tree (derives_wordDerivative hsound he word).tree_eq
  refine ⟨hsymbols, ?_, ?_⟩
  · intro a hcovers
    rw [checkCovers_eq_ok_iff] at hcovers
    constructor
    · intro word
      rw [checkCovers_eq_ok_iff]
      exact fun c hc => hcovers c (hsymbols word c hc)
    · intro auto w' hcompile i t ht
      have hcompiles := compiles_compile hsound he a
      rw [hcompile] at hcompiles
      cases hcompiles with
      | done learns represents =>
        obtain ⟨_, word, _, htree⟩ := represents.residual i t ht
        rw [learns.ext.tree_eq he] at htree
        rw [checkCovers_eq_ok_iff]
        exact fun c hc => hcovers c (symbolsOf_of_tree htree c hc)
  · intro word word' halike
    refine ⟨coincide_wordDerivative hsound hsound rfl he halike, ?_⟩
    intro later i
    have hlearns := (derives_wordDerivative hsound he word).learns
    have hlater := later.grows_state hlearns.sound i
    exact repeats_wordDerivative_of_alike hsound he hlater.sound hlater.ext halike

theorem unmentioned_symbols_symbol :
    let w := (initial 5).perform (.build (.symbol 'a'))
    let later := Session.repeating (w.wordDerivative 3 ['b', 'a']).2 .clearDerivatives rfl
    w.Reachable ∧ 3 < w.numTerms ∧ w.store.Alike 3 'b' 'c' ∧
      (Alphabet.ofList ['a']).checkCovers (w.store.symbolsOf 3) = .ok () ∧
      (w.wordDerivative 3 ['c', 'a']).1 = (w.wordDerivative 3 ['b', 'a']).1 ∧
      ∀ i, (later.state i).Repeats ((later.state i).wordDerivative 3 ['c', 'a'])
        (w.wordDerivative 3 ['b', 'a']).1 := by
  intro w later
  have hw : w.Reachable := reachable_symbol 5 'a'
  have he : 3 < w.numTerms := by decide
  have halike : w.store.Alike 3 'b' 'c' := by
    right
    rw [Store.mem_symbolsOf_iff, Store.mem_symbolsOf_iff, mentions_symbol, mentions_symbol]
    decide
  have hwords : List.Forall₂ (w.store.Alike 3) ['b', 'a'] ['c', 'a'] :=
    .cons halike (.cons (.inl rfl) .nil)
  have hcovers : (Alphabet.ofList ['a']).checkCovers (w.store.symbolsOf 3) = .ok () := by
    decide +kernel
  obtain ⟨hcoincide, hrepeats⟩ := (hw.unmentioned_symbols he).2.2 _ _ hwords
  exact ⟨hw, he, halike, hcovers, hcoincide.term_eq, hrepeats later⟩

end Covers

end Workspace

end Residual
