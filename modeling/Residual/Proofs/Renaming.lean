import Residual.Proofs.Query

/-!
This module contains the languages of terms under renamings of symbols. The symbols that a term does
not mention are interchangeable in its words, so one of them can stand for all of them.
-/

namespace Residual

open Computability

section Preimage

variable {α β : Type} {g : α → β} {l m : Language β}

def preimage (g : α → β) (l : Language β) : Language α := {w | w.map g ∈ l}

theorem mem_preimage {w : List α} : w ∈ preimage g l ↔ w.map g ∈ l := Iff.rfl

theorem preimage_one : preimage g 1 = 1 := by
  ext w
  rw [mem_preimage, Language.mem_one, Language.mem_one, List.map_eq_nil_iff]

theorem preimage_mul : preimage g (l * m) = preimage g l * preimage g m := by
  ext w
  rw [mem_preimage, Language.mem_mul, Language.mem_mul]
  constructor
  · rintro ⟨x, hx, y, hy, hxy⟩
    -- a renamed word falls apart where the word itself does
    obtain ⟨x, y, rfl, rfl, rfl⟩ := List.map_eq_append_iff.1 hxy.symm
    exact ⟨x, hx, y, hy, rfl⟩
  · rintro ⟨x, hx, y, hy, rfl⟩
    exact ⟨x.map g, hx, y.map g, hy, List.map_append.symm⟩

theorem preimage_pow (k : Nat) : preimage g (l ^ k) = preimage g l ^ k := by
  induction k with
  | zero => rw [pow_zero, pow_zero, preimage_one]
  | succ k ih => rw [pow_succ, pow_succ, preimage_mul, ih]

theorem preimage_kstar : preimage g l∗ = (preimage g l)∗ := by
  ext w
  rw [mem_preimage, mem_kstar_iff_exists_pow, mem_kstar_iff_exists_pow]
  apply exists_congr
  intro k
  rw [← preimage_pow, mem_preimage]

end Preimage

namespace Tree

def Spared (g : Char → Char) (T : Tree) : Prop :=
  ∀ c, g c = c ∨ ¬T.Mentions c ∧ ¬T.Mentions (g c)

theorem Spared.imp {g : Char → Char} {T U : Tree} (h : T.Spared g)
    (hU : ∀ c, U.Mentions c → T.Mentions c) : U.Spared g :=
  fun c => (h c).imp_right fun hc => hc.imp (mt (hU c)) (mt (hU (g c)))

theorem Spared.preimage_language {g : Char → Char} {T : Tree} (h : T.Spared g) :
    preimage g T.language = T.language := by
  induction T with
  | emptySet => rfl
  | emptyString => exact preimage_one
  | literal symbols =>
    have hmem : ∀ c, g c ∈ symbols ↔ c ∈ symbols := by
      intro c
      rcases h c with hc | ⟨hc, hgc⟩
      · rw [hc]
      · exact iff_of_false hgc hc
    ext w
    show (∃ c ∈ symbols, w.map g = [c]) ↔ ∃ c ∈ symbols, w = [c]
    constructor
    · rintro ⟨c, hc, hw⟩
      obtain ⟨d, rfl, rfl⟩ := List.map_eq_singleton_iff.1 hw
      exact ⟨d, (hmem d).1 hc, rfl⟩
    · rintro ⟨c, hc, rfl⟩
      exact ⟨g c, (hmem c).2 hc, rfl⟩
  | concat left right ihl ihr =>
    have hleft := ihl (h.imp fun _ => Or.inl)
    have hright := ihr (h.imp fun _ => Or.inr)
    rw [language, preimage_mul, hleft, hright]
  | union size args ih =>
    have hargs := fun i => ih i (h.imp fun _ hc => ⟨i, hc⟩)
    ext w
    show (∃ i, w ∈ preimage g (args i).language) ↔ ∃ i, w ∈ (args i).language
    simp only [hargs]
  | inter size args ih =>
    have hargs := fun i => ih i (h.imp fun _ hc => ⟨i, hc⟩)
    ext w
    show (∀ i, w ∈ preimage g (args i).language) ↔ ∀ i, w ∈ (args i).language
    simp only [hargs]
  | negation arg ih =>
    have harg := ih (h.imp fun _ => id)
    show (preimage g arg.language)ᶜ = arg.languageᶜ
    rw [harg]
  | star arg ih =>
    have harg := ih (h.imp fun _ => id)
    rw [language, preimage_kstar, harg]
  | repeated arg min max ih =>
    have harg := ih (h.imp fun _ => id)
    ext w
    show (∃ k, min ≤ k ∧ k ≤ max ∧ w ∈ preimage g (arg.language ^ k)) ↔ _
    simp only [preimage_pow, harg]
    rfl

end Tree

namespace Store

variable {s : Store} {t : TermId} {g : Char → Char}

theorem map_mem_language_iff (h : ∀ c, g c = c ∨ ¬s.Mentions t c ∧ ¬s.Mentions t (g c))
    {word : List Char} : word.map g ∈ s.language t ↔ word ∈ s.language t := by
  have hspared : (s.tree t).Spared g := by
    intro c
    rw [mentions_tree, mentions_tree]
    exact h c
  rw [← language_tree, ← mem_preimage, hspared.preimage_language]

open Classical in
noncomputable def replaceOthers (kept : Set Char) (fresh c : Char) : Char :=
  if c ∈ kept then c else fresh

theorem map_replaceOthers_mem_language_iff {kept : Set Char} {fresh : Char}
    (hkept : ∀ c, s.Mentions t c → c ∈ kept) (hfresh : ¬s.Mentions t fresh) (word : List Char) :
    word.map (replaceOthers kept fresh) ∈ s.language t ↔ word ∈ s.language t := by
  apply map_mem_language_iff
  intro c
  unfold replaceOthers
  split
  · exact Or.inl rfl
  next hc => exact Or.inr ⟨mt (hkept c) hc, hfresh⟩

theorem forall_word_iff_of_fresh {r : Prop → Prop → Prop} {t u : TermId} {a : Alphabet}
    (hfresh : ∃ c ∈ a, ¬s.Mentions t c ∧ ¬s.Mentions u c) :
    (∀ word : List Char, (∀ c ∈ word, c ∈ a ∨ s.Mentions t c ∨ s.Mentions u c) →
      r (word ∈ s.language t) (word ∈ s.language u)) ↔
    ∀ word, r (word ∈ s.language t) (word ∈ s.language u) := by
  obtain ⟨fresh, hfresh, ht, hu⟩ := hfresh
  constructor
  · intro h word
    have htkept : ∀ c, s.Mentions t c → c ∈ {c | s.Mentions t c ∨ s.Mentions u c} :=
      fun _ => Or.inl
    have hukept : ∀ c, s.Mentions u c → c ∈ {c | s.Mentions t c ∨ s.Mentions u c} :=
      fun _ => Or.inr
    -- neither language tells a word from the one with `fresh` in place of all unmentioned symbols
    rw [← map_replaceOthers_mem_language_iff htkept ht word,
      ← map_replaceOthers_mem_language_iff hukept hu word]
    apply h
    intro d hd
    obtain ⟨c, _, rfl⟩ := List.mem_map.1 hd
    unfold replaceOthers
    split
    next hc => exact Or.inr hc
    · exact Or.inl hfresh
  · intro h word _
    exact h word

end Store

namespace Workspace

variable {w : Workspace} {t u : TermId} {a : Alphabet}

/--
A comparison over an alphabet with a symbol that neither term mentions is a comparison of all words,
whatever their symbols.
-/
theorem Reachable.comparison_unrestricted (hw : w.Reachable) (ht : t < w.numTerms)
    (hu : u < w.numTerms) (hfresh : ∃ c ∈ a, ¬w.store.Mentions t c ∧ ¬w.store.Mentions u c) :
    (∀ b, (w.equivalent t u a).value.1 = .ok b →
      (b = true ↔ w.store.language t = w.store.language u)) ∧
    ∀ b, (w.isSubset t u a).value.1 = .ok b →
      (b = true ↔ ∀ word ∈ w.store.language t, word ∈ w.store.language u) := by
  constructor
  · intro b hb
    have h := answers_equivalent hw.sound ht hu a
    rw [hb, Store.forall_word_iff_of_fresh hfresh] at h
    rw [h.iff_of_ok, Language.ext_iff]
  · intro b hb
    have h := answers_isSubset hw.sound ht hu a
    rw [hb, Store.forall_word_iff_of_fresh (r := fun p q => p → q) hfresh] at h
    exact h.iff_of_ok

theorem comparison_unrestricted_symbol :
    let w := (initial 10).perform (.build (.symbol 'a'))
    w.Reachable ∧ 3 < w.numTerms ∧ Store.empty < w.numTerms ∧
      (∃ c ∈ Alphabet.ofList ['b'], ¬w.store.Mentions 3 c ∧ ¬w.store.Mentions Store.empty c) ∧
      w.store.language 3 ≠ w.store.language Store.empty := by
  have hw := reachable_symbol 10 'a'
  have ht : 3 < ((initial 10).perform (.build (.symbol 'a'))).numTerms := by decide
  have hu : Store.empty < ((initial 10).perform (.build (.symbol 'a'))).numTerms := by decide
  have hequivalent : (((initial 10).perform (.build (.symbol 'a'))).equivalent 3 Store.empty
      (.ofList ['b'])).value.1 = .ok false := by decide +kernel
  have hmentions := mentions_symbol 10
  generalize (initial 10).perform (.build (.symbol 'a')) = w at *
  have hfresh : ∃ c ∈ Alphabet.ofList ['b'],
      ¬w.store.Mentions 3 c ∧ ¬w.store.Mentions Store.empty c := by
    refine ⟨'b', SymbolSet.mem_ofList.2 (List.mem_singleton_self 'b'), ?_, ?_⟩
    · rw [hmentions]
      decide
    · rw [← Store.mentions_tree, Store.tree_empty]
      exact id
  have h := (hw.comparison_unrestricted ht hu hfresh).1 false hequivalent
  exact ⟨hw, ht, hu, hfresh, fun heq => Bool.false_ne_true (h.2 heq)⟩

end Workspace

end Residual
