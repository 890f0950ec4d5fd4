import Residual.Proofs.Replay
import Residual.Workspace

/-!
This module contains the derivatives that a workspace remembers. In a sound workspace they are the
derivatives of the trees, and a computation adds to them without changing any.
-/

namespace Residual

open Std

namespace Workspace

/--
Whether the store is well-formed and holds what the known derivatives say, with all that has been
built on the way to them.
-/
structure Sound (w : Workspace) : Prop where
  wellFormed : w.store.WellFormed
  derivatives : ∀ (k : DerivativeKey) (d : TermId), w.derivatives[k]? = some d →
    k.term < w.numTerms ∧ d < w.numTerms ∧
      w.store.tree d = (w.store.tree k.term).derivative k.symbol
  explained : ∀ (k : DerivativeKey) (d : TermId), w.derivatives[k]? = some d →
    w.store.Explained k.symbol k.term

structure Learns (w w' : Workspace) : Prop where
  sound : w'.Sound
  ext : w.store.Extends w'.store
  known : ∀ (k : DerivativeKey) (d : TermId), w.derivatives[k]? = some d → w'.derivatives[k]? = some d
  maxStates_eq : w'.maxStates = w.maxStates

theorem Learns.refl {w : Workspace} (h : w.Sound) : w.Learns w :=
  ⟨h, .refl w.store, fun _ _ h => h, rfl⟩

theorem Learns.trans {w w' w'' : Workspace} (h : w.Learns w') (h' : w'.Learns w'') :
    w.Learns w'' where
  sound := h'.sound
  ext := h.ext.trans h'.ext
  known := fun k d hk => h'.known k d (h.known k d hk)
  maxStates_eq := h'.maxStates_eq.trans h.maxStates_eq

theorem Sound.of_extends {w : Workspace} (hw : w.Sound) {s : Store} (hs : s.WellFormed)
    (h : w.store.Extends s) (maxStates : Nat) : Sound ⟨s, w.derivatives, maxStates⟩ where
  wellFormed := hs
  derivatives := by
    intro k d hk
    obtain ⟨hkey, hd, htree⟩ := hw.derivatives k d hk
    refine ⟨h.lt_size hkey, h.lt_size hd, ?_⟩
    show s.tree d = (s.tree k.term).derivative k.symbol
    rw [h.tree_eq hkey, h.tree_eq hd, htree]
  explained k d hk := (hw.explained k d hk).mono hw.wellFormed h

theorem Sound.setMaxStates {w : Workspace} (hw : w.Sound) (maxStates : Nat) :
    (w.setMaxStates maxStates).Sound :=
  hw.of_extends hw.wellFormed (.refl w.store) maxStates

theorem getElem?_insert_cases {m : TreeMap DerivativeKey TermId} {k k' : DerivativeKey}
    {d e : TermId} (h : (m.insert k d)[k']? = some e) : (k' = k ∧ e = d) ∨ m[k']? = some e := by
  rw [TreeMap.getElem?_insert] at h
  split at h
  next hkey => exact Or.inl ⟨(LawfulEqOrd.eq_of_compare hkey).symm, (Option.some.inj h).symm⟩
  · exact Or.inr h

theorem learns_combine {w : Workspace} (hw : w.Sound) {c : Char} {t : TermId}
    (ht : t < w.numTerms)
    (hdeps : ∀ u ∈ w.store.dependencies t, ∃ d, w.derivatives[(⟨u, c⟩ : DerivativeKey)]? = some d) :
    w.Learns (w.combine c t) ∧
      ∃ d, (w.combine c t).derivatives[(⟨t, c⟩ : DerivativeKey)]? = some d := by
  obtain ⟨store, derivatives, maxStates⟩ := w
  have hsub : ∀ u ∈ store.dependencies t,
      derivatives.getD ⟨u, c⟩ Store.empty < store.size ∧
        store.tree (derivatives.getD ⟨u, c⟩ Store.empty) = (store.tree u).derivative c := by
    intro u hu
    obtain ⟨d, hd⟩ := hdeps u hu
    rw [TreeMap.getD_eq_getD_getElem?, hd]
    exact (hw.derivatives ⟨u, c⟩ d hd).2
  have h := Store.builds_derive hw.wellFormed ht (fun u hu => (hsub u hu).1)
    fun u hu => (hsub u hu).2
  have hexplained := Store.Explained.of_derive hw.wellFormed ht (fun u hu => (hsub u hu).1)
    (fun u hu => (hsub u hu).2) (.refl _) (by
      intro u hu
      obtain ⟨d, hd⟩ := hdeps u hu
      exact (hw.explained ⟨u, c⟩ d hd).mono hw.wellFormed h.grows.ext)
  simp only [combine]
  generalize store.derive c t (fun u => derivatives.getD ⟨u, c⟩ Store.empty) = r at h hexplained
  obtain ⟨d, s⟩ := r
  have hsound := hw.of_extends h.wellFormed h.grows.ext maxStates
  have hlt : t < s.size := h.grows.ext.lt_size ht
  have htree : s.tree d = (s.tree t).derivative c := by
    rw [h.grows.ext.tree_eq ht]
    exact h.tree_eq
  refine ⟨⟨⟨h.wellFormed, ?_, ?_⟩, h.grows.ext, ?_, rfl⟩, d, TreeMap.getElem?_insert_self⟩
  · intro k e hk
    rcases getElem?_insert_cases hk with ⟨rfl, rfl⟩ | hk
    · exact ⟨hlt, h.grows.lt_size, htree⟩
    · exact hsound.derivatives k e hk
  · intro k e hk
    rcases getElem?_insert_cases hk with ⟨rfl, rfl⟩ | hk
    · exact hexplained
    · exact hsound.explained k e hk
  · intro k e hk
    show (derivatives.insert ⟨t, c⟩ d)[k]? = some e
    rw [TreeMap.getElem?_insert]
    split
    next hkey =>
      -- a derivative that was known already is the same tree, hence the same term
      cases LawfulEqOrd.eq_of_compare hkey
      obtain ⟨_, he, hetree⟩ := hsound.derivatives _ e hk
      exact congrArg some (h.wellFormed.tree_inj h.grows.lt_size he (htree.trans hetree.symm))
    · exact hk

theorem learn_eq (w : Workspace) (c : Char) (t : TermId) :
    w.learn c t =
      if w.derivatives.contains ⟨t, c⟩ then w
      else ((w.store.dependencies t).foldr (fun u w => w.learn c u) w).combine c t := by
  rw [learn, ← List.foldr_attach]

theorem learns_foldr {w : Workspace} (hw : w.Sound) {c : Char} {l : List TermId}
    (hl : ∀ u ∈ l, u < w.numTerms)
    (hlearn : ∀ u ∈ l, ∀ w : Workspace, w.Sound → u < w.numTerms → w.Learns (w.learn c u) ∧
      ∃ d, (w.learn c u).derivatives[(⟨u, c⟩ : DerivativeKey)]? = some d) :
    let w' := l.foldr (fun u w => w.learn c u) w
    w.Learns w' ∧ ∀ u ∈ l, ∃ d, w'.derivatives[(⟨u, c⟩ : DerivativeKey)]? = some d := by
  induction l with
  | nil => exact ⟨.refl hw, by simp⟩
  | cons u l ih =>
    obtain ⟨hlearns, hknown⟩ := ih (fun v hv => hl v (List.mem_cons_of_mem u hv))
      fun v hv => hlearn v (List.mem_cons_of_mem u hv)
    have hlt := hlearns.ext.lt_size (hl u List.mem_cons_self)
    obtain ⟨hlearns', hknown'⟩ := hlearn u List.mem_cons_self _ hlearns.sound hlt
    refine ⟨hlearns.trans hlearns', ?_⟩
    intro v hv
    rcases List.mem_cons.1 hv with rfl | hv
    · exact hknown'
    · obtain ⟨d, hd⟩ := hknown v hv
      exact ⟨d, hlearns'.known _ d hd⟩

theorem learns_learn {w : Workspace} (hw : w.Sound) {c : Char} {t : TermId} (ht : t < w.numTerms) :
    w.Learns (w.learn c t) ∧
      ∃ d, (w.learn c t).derivatives[(⟨t, c⟩ : DerivativeKey)]? = some d := by
  induction t using Nat.strongRecOn generalizing w with
  | ind t ih =>
    rw [learn_eq]
    split
    next hknown =>
      refine ⟨.refl hw, ?_⟩
      rw [TreeMap.contains_eq_isSome_getElem?, Option.isSome_iff_exists] at hknown
      exact hknown
    · have hdeps : ∀ u ∈ w.store.dependencies t, u < t := fun _ => Store.lt_of_mem_dependencies
      obtain ⟨hlearns, hknown⟩ := learns_foldr hw (c := c)
        (fun u hu => Nat.lt_trans (hdeps u hu) ht) fun u hu w hw h => ih u (hdeps u hu) hw h
      have hcombine := learns_combine hlearns.sound (hlearns.ext.lt_size ht) (c := c) (by
        rw [hlearns.ext.dependencies_eq ht]
        exact hknown)
      exact ⟨hlearns.trans hcombine.1, hcombine.2⟩

theorem learns_foldr_learn {w : Workspace} (hw : w.Sound) {c : Char} {l : List TermId}
    (hl : ∀ u ∈ l, u < w.numTerms) :
    let w' := l.foldr (fun u w => w.learn c u) w
    w.Learns w' ∧ ∀ u ∈ l, ∃ d, w'.derivatives[(⟨u, c⟩ : DerivativeKey)]? = some d :=
  learns_foldr hw hl fun _ _ _ hw ht => learns_learn hw ht

structure Derives (w : Workspace) (r : TermId × Workspace) (T : Tree) : Prop where
  learns : w.Learns r.2
  lt_numTerms : r.1 < r.2.numTerms
  tree_eq : r.2.store.tree r.1 = T

theorem derivative_eq_known (w : Workspace) (t : TermId) (c : Char) :
    w.derivative t c = ((w.learn c t).known c t, w.learn c t) :=
  rfl

theorem known_derivative {w : Workspace} (hw : w.Sound) {t : TermId} (ht : t < w.numTerms)
    (c : Char) :
    (w.derivative t c).2.derivatives[(⟨t, c⟩ : DerivativeKey)]? = some (w.derivative t c).1 := by
  obtain ⟨_, d, hd⟩ := learns_learn hw (c := c) ht
  rw [derivative_eq_known, known, TreeMap.getD_eq_getD_getElem?, hd, Option.getD_some]

theorem derives_derivative {w : Workspace} (hw : w.Sound) {t : TermId} (ht : t < w.numTerms)
    (c : Char) : w.Derives (w.derivative t c) ((w.store.tree t).derivative c) := by
  have hknown := known_derivative hw ht c
  have hlearns : w.Learns (w.derivative t c).2 := (learns_learn hw ht).1
  obtain ⟨_, hlt, htree⟩ := hlearns.sound.derivatives _ _ hknown
  refine ⟨hlearns, hlt, htree.trans ?_⟩
  rw [hlearns.ext.tree_eq ht]

theorem wordDerivative_cons (w : Workspace) (t : TermId) (c : Char) (word : List Char) :
    w.wordDerivative t (c :: word) =
      (w.derivative t c).2.wordDerivative (w.derivative t c).1 word :=
  rfl

theorem derives_wordDerivative {w : Workspace} (hw : w.Sound) {t : TermId} (ht : t < w.numTerms)
    (word : List Char) :
    w.Derives (w.wordDerivative t word) ((w.store.tree t).wordDerivative word) := by
  induction word generalizing w t with
  | nil => exact ⟨.refl hw, ht, rfl⟩
  | cons c word ih =>
    have h := derives_derivative hw ht c
    have h' := ih h.learns.sound h.lt_numTerms
    refine ⟨h.learns.trans h'.learns, h'.lt_numTerms, h'.tree_eq.trans ?_⟩
    rw [h.tree_eq]
    rfl

section Language

variable {w : Workspace}

theorem language_derivative (hw : w.Sound) {t : TermId} (ht : t < w.numTerms) (c : Char) :
    (w.derivative t c).2.store.language (w.derivative t c).1 =
      (w.store.language t).leftQuotient [c] := by
  rw [← Store.language_tree, (derives_derivative hw ht c).tree_eq]
  rw [Tree.language_derivative (hw.wellFormed.bounded_tree t), Store.language_tree]

theorem language_wordDerivative (hw : w.Sound) {t : TermId} (ht : t < w.numTerms)
    (word : List Char) :
    (w.wordDerivative t word).2.store.language (w.wordDerivative t word).1 =
      (w.store.language t).leftQuotient word := by
  induction word generalizing w t with
  | nil => rfl
  | cons c word ih =>
    have h := derives_derivative hw ht c
    rw [wordDerivative_cons, ih h.learns.sound h.lt_numTerms, language_derivative hw ht]
    rfl

theorem contains_iff (hw : w.Sound) {t : TermId} (ht : t < w.numTerms) (word : List Char) :
    (w.contains t word).1 = true ↔ word ∈ w.store.language t := by
  have h := derives_wordDerivative hw ht word
  show (w.wordDerivative t word).2.store.nullable (w.wordDerivative t word).1 = true ↔ _
  rw [h.learns.sound.wellFormed.nullable_iff h.lt_numTerms, language_wordDerivative hw ht,
    Language.mem_leftQuotient, List.append_nil]

end Language

theorem derivative_of_known {w : Workspace} {t d : TermId} {c : Char}
    (h : w.derivatives[(⟨t, c⟩ : DerivativeKey)]? = some d) : w.derivative t c = (d, w) := by
  have hlearn : w.learn c t = w := by
    rw [learn, if_pos]
    rw [TreeMap.contains_eq_isSome_getElem?, h]
    rfl
  rw [derivative_eq_known, hlearn, known, TreeMap.getD_eq_getD_getElem?, h]
  rfl

section Again

variable {u v : Workspace} {t d : TermId} {c : Char}

theorem store_combine (w : Workspace) (c : Char) (t : TermId) : (w.combine c t).store =
    (w.store.derive c t fun u => w.derivatives.getD ⟨u, c⟩ Store.empty).2 :=
  rfl

theorem store_learn_of_explained {s : Store} (h : s.Explained c t) (hv : v.Sound)
    (hs : v.store = s) : (v.learn c t).store = s := by
  induction h generalizing v with
  | @intro t sub lt_size sub_lt sub_eq derive_eq _ ih =>
    rw [learn_eq]
    split
    · exact hs
    rw [hs]
    have hdeps : ∀ u ∈ s.dependencies t, u < v.numTerms := by
      intro u hu
      rw [numTerms, hs]
      exact Nat.lt_trans (Store.lt_of_mem_dependencies hu) lt_size
    -- the dependencies are learned one after the other on the same store
    have hfold : ∀ l : List TermId, (∀ u ∈ l, u ∈ s.dependencies t) →
        (l.foldr (fun u w => w.learn c u) v).store = s := by
      intro l hl
      induction l with
      | nil => exact hs
      | cons u l ihl =>
        have hl' : ∀ u ∈ l, u ∈ s.dependencies t := fun x hx => hl x (List.mem_cons_of_mem u hx)
        have hlearns := (learns_foldr_learn hv (c := c) fun x hx => hdeps x (hl' x hx)).1
        exact ih u (hl u List.mem_cons_self) hlearns.sound (ihl hl')
    have hstore := hfold _ fun _ => id
    obtain ⟨hlearns, hknown⟩ := learns_foldr_learn hv (c := c) hdeps
    generalize (s.dependencies t).foldr (fun u w => w.learn c u) v = v' at hstore hlearns hknown
    have hsub : ∀ u ∈ s.dependencies t, v'.derivatives.getD ⟨u, c⟩ Store.empty = sub u := by
      intro u hu
      obtain ⟨e, he⟩ := hknown u hu
      obtain ⟨_, helt, hetree⟩ := hlearns.sound.derivatives _ e he
      rw [numTerms, hstore] at helt
      rw [hstore] at hetree
      rw [TreeMap.getD_eq_getD_getElem?, he, Option.getD_some]
      apply (hstore ▸ hlearns.sound.wellFormed).tree_inj helt (sub_lt u hu)
      rw [hetree, sub_eq u hu]
    rw [store_combine, hstore, Store.derive_congr hsub, derive_eq]

theorem derivative_again (hu : u.Sound)
    (hd : u.derivatives[(⟨t, c⟩ : DerivativeKey)]? = some d) (hv : v.Sound)
    (hext : u.store.Extends v.store) :
    ∃ v', v.derivative t c = (d, v') ∧ v'.Sound ∧ v'.store = v.store := by
  obtain ⟨ht, hlt, htree⟩ := hu.derivatives _ d hd
  have hderives := derives_derivative hv (hext.lt_size ht) c
  have hstore : (v.derivative t c).2.store = v.store :=
    store_learn_of_explained ((hu.explained _ d hd).mono hu.wellFormed hext) hv rfl
  refine ⟨(v.derivative t c).2, ?_, hderives.learns.sound, hstore⟩
  have hlt' := hderives.lt_numTerms
  have htree' := hderives.tree_eq
  rw [numTerms, hstore] at hlt'
  rw [hstore, hext.tree_eq ht, ← htree, ← hext.tree_eq hlt] at htree'
  rw [← hv.wellFormed.tree_inj hlt' (hext.lt_size hlt) htree']

end Again

end Workspace

end Residual
