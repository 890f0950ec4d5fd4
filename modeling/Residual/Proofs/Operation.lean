import Residual.Proofs.Replay

/-!
This module contains the operations of a store as data: what they are applied to, the language that
each of them promises and the tree that it makes of the trees of its operands.
-/

namespace Residual

open Computability

inductive Operation where
  | empty
  | epsilon
  | full
  | literal (set : SymbolSet)
  | symbol (c : Char)
  | oneOf (symbols : List Char)
  | anyOf (a : Alphabet)
  | noneOf (set : SymbolSet) (a : Alphabet)
  | word (w : List Char)
  | concat (left right : TermId)
  | concatList (ts : List TermId)
  | union (t u : TermId)
  | unionList (ts : List TermId)
  | inter (t u : TermId)
  | interList (ts : List TermId)
  | negation (t : TermId)
  | difference (t u : TermId)
  | star (t : TermId)
  | plus (t : TermId)
  | optional (t : TermId)
  | repeated (t : TermId) (min max : Nat)
  | atLeast (t : TermId) (min : Nat)
deriving DecidableEq

namespace Operation

def args : Operation → List TermId
  | empty | epsilon | full | literal _ | symbol _ | oneOf _ | anyOf _ | noneOf .. | word _ => []
  | concat t u | union t u | inter t u | difference t u => [t, u]
  | concatList ts | unionList ts | interList ts => ts
  | negation t | star t | plus t | optional t | repeated t .. | atLeast t _ => [t]

def map (f : TermId → TermId) : Operation → Operation
  | empty => empty
  | epsilon => epsilon
  | full => full
  | literal set => literal set
  | symbol c => symbol c
  | oneOf symbols => oneOf symbols
  | anyOf a => anyOf a
  | noneOf set a => noneOf set a
  | word w => word w
  | concat left right => concat (f left) (f right)
  | concatList ts => concatList (ts.map f)
  | union t u => union (f t) (f u)
  | unionList ts => unionList (ts.map f)
  | inter t u => inter (f t) (f u)
  | interList ts => interList (ts.map f)
  | negation t => negation (f t)
  | difference t u => difference (f t) (f u)
  | star t => star (f t)
  | plus t => plus (f t)
  | optional t => optional (f t)
  | repeated t min max => repeated (f t) min max
  | atLeast t min => atLeast (f t) min

def InOrder : Operation → Prop
  | repeated _ min max => min ≤ max
  | _ => True

def apply (op : Operation) (s : Store) : Except Error TermId × Store :=
  let issue (r : TermId × Store) : Except Error TermId × Store := (.ok r.1, r.2)
  match op with
  | empty => issue (Store.empty, s)
  | epsilon => issue (Store.epsilon, s)
  | full => issue (Store.full, s)
  | literal set => issue (s.literal set)
  | symbol c => issue (s.symbol c)
  | oneOf symbols => issue (s.oneOf symbols)
  | anyOf a => issue (s.anyOf a)
  | noneOf set a => issue (s.noneOf set a)
  | word w => issue (s.word w)
  | concat left right => issue (s.concat left right)
  | concatList ts => issue (s.concatList ts)
  | union t u => issue (s.union t u)
  | unionList ts => issue (s.unionList ts)
  | inter t u => issue (s.inter t u)
  | interList ts => issue (s.interList ts)
  | negation t => issue (s.negation t)
  | difference t u => issue (s.difference t u)
  | star t => issue (s.star t)
  | plus t => issue (s.plus t)
  | optional t => issue (s.optional t)
  | repeated t min max => s.repeated t min max
  | atLeast t min => issue (s.atLeast t min)

def language (L : TermId → Language Char) : Operation → Language Char
  | empty => 0
  | epsilon => 1
  | full => {_w | True}
  | literal set => {w | ∃ c ∈ set, w = [c]}
  | symbol c => {[c]}
  | oneOf symbols => {w | ∃ c ∈ symbols, w = [c]}
  | anyOf a => {w | ∃ c ∈ a, w = [c]}
  | noneOf set a => {w | ∃ c ∈ a, c ∉ set ∧ w = [c]}
  | word w => {w}
  | concat left right => L left * L right
  | concatList ts => (ts.map L).prod
  | union t u => {w | w ∈ L t ∨ w ∈ L u}
  | unionList ts => {w | ∃ t ∈ ts, w ∈ L t}
  | inter t u => {w | w ∈ L t ∧ w ∈ L u}
  | interList ts => {w | ∀ t ∈ ts, w ∈ L t}
  | negation t => (L t)ᶜ
  | difference t u => {w | w ∈ L t ∧ w ∉ L u}
  | star t => (L t)∗
  | plus t => {w | ∃ k, 1 ≤ k ∧ w ∈ L t ^ k}
  | optional t => {w | w = [] ∨ w ∈ L t}
  | repeated t min max => {w | ∃ k, min ≤ k ∧ k ≤ max ∧ w ∈ L t ^ k}
  | atLeast t min => {w | ∃ k, min ≤ k ∧ w ∈ L t ^ k}

noncomputable def tree (sub : TermId → Tree) : Operation → Tree
  | empty => .emptySet
  | epsilon => .emptyString
  | full => .full
  | literal set => .mkLiteral set
  | symbol c => .mkLiteral (.singleton c)
  | oneOf symbols => .mkLiteral (.ofList symbols)
  | anyOf a => .mkLiteral a.set
  | noneOf set a => .mkLiteral (a.set.difference set)
  | word w => w.foldr (fun c T => (Tree.mkLiteral (.singleton c)).mkConcat T) .emptyString
  | concat left right => (sub left).mkConcat (sub right)
  | concatList ts => (ts.map sub).foldr .mkConcat .emptyString
  | union t u => .mkUnionList {sub t, sub u}
  | unionList ts => .mkUnionList (ts.map sub).toFinset
  | inter t u => .mkInterList {sub t, sub u}
  | interList ts => .mkInterList (ts.map sub).toFinset
  | negation t => (sub t).mkNegation
  | difference t u => .mkInterList {sub t, (sub u).mkNegation}
  | star t => (sub t).mkStar
  | plus t => (sub t).mkConcat (sub t).mkStar
  | optional t => (sub t).mkRepeated 0 1
  | repeated t min max => (sub t).mkRepeated min max
  | atLeast t min => ((sub t).mkRepeated min min).mkConcat (sub t).mkStar

theorem args_map (op : Operation) (f : TermId → TermId) : (op.map f).args = op.args.map f := by
  cases op <;> rfl

section Language

theorem language_foldr_mkConcat (Ts : List Tree) :
    (Ts.foldr Tree.mkConcat Tree.emptyString).language = (Ts.map Tree.language).prod := by
  induction Ts with
  | nil => rfl
  | cons T Ts ih =>
    rw [List.foldr_cons, Tree.language_mkConcat, ih]
    rfl

theorem mem_language_singleton {c : Char} {w : List Char} :
    w ∈ (Tree.mkLiteral (.singleton c)).language ↔ w = [c] := by
  rw [Tree.language_mkLiteral, Tree.mem_language_literal]
  simp

theorem mem_language_word {word w : List Char} :
    w ∈ (word.foldr (fun c T => (Tree.mkLiteral (.singleton c)).mkConcat T) .emptyString).language ↔
      w = word := by
  induction word generalizing w with
  | nil => exact Language.mem_one w
  | cons c word ih =>
    rw [List.foldr_cons, Tree.language_mkConcat, Language.mem_mul]
    constructor
    · rintro ⟨a, ha, b, hb, rfl⟩
      rw [mem_language_singleton] at ha
      rw [ih] at hb
      rw [ha, hb]
      rfl
    · rintro rfl
      exact ⟨[c], mem_language_singleton.2 rfl, word, ih.2 rfl, rfl⟩

theorem mem_pow_mul_kstar {L : Language Char} {m : Nat} {w : List Char} :
    w ∈ L ^ m * L∗ ↔ ∃ k, m ≤ k ∧ w ∈ L ^ k := by
  rw [Language.mem_mul]
  constructor
  · rintro ⟨a, ha, b, hb, rfl⟩
    obtain ⟨j, hj⟩ := mem_kstar_iff_exists_pow.1 hb
    refine ⟨m + j, Nat.le_add_right m j, ?_⟩
    rw [pow_add]
    exact Language.append_mem_mul ha hj
  · rintro ⟨k, hk, hw⟩
    obtain ⟨j, rfl⟩ := Nat.exists_eq_add_of_le hk
    rw [pow_add] at hw
    obtain ⟨a, ha, b, hb, hab⟩ := Language.mem_mul.1 hw
    exact ⟨a, ha, b, mem_kstar_iff_exists_pow.2 ⟨j, hb⟩, hab⟩

theorem language_tree {op : Operation} (hop : op.InOrder) (sub : TermId → Tree) :
    (op.tree sub).language = op.language fun t => (sub t).language := by
  apply Language.ext
  intro w
  cases op with
  | empty | epsilon => rfl
  | full => exact iff_of_true (Tree.mem_language_full w) True.intro
  | literal set =>
    rw [tree, Tree.language_mkLiteral]
    rfl
  | symbol c => exact mem_language_singleton
  | oneOf symbols =>
    rw [tree, Tree.language_mkLiteral, Tree.mem_language_literal]
    simp only [SymbolSet.mem_ofList]
    rfl
  | anyOf a =>
    rw [tree, Tree.language_mkLiteral]
    rfl
  | noneOf set a =>
    rw [tree, Tree.language_mkLiteral, Tree.mem_language_literal]
    simp only [SymbolSet.mem_difference, and_assoc]
    rfl
  | word word => exact mem_language_word
  | concat left right =>
    rw [tree, Tree.language_mkConcat]
    rfl
  | concatList ts =>
    rw [tree, language_foldr_mkConcat, List.map_map]
    rfl
  | union t u =>
    rw [tree, Tree.mem_language_mkUnionList]
    simp only [Finset.mem_insert, Finset.mem_singleton, exists_eq_or_imp, exists_eq_left]
    rfl
  | unionList ts =>
    rw [tree, Tree.mem_language_mkUnionList]
    simp only [List.mem_toFinset, List.mem_map, exists_exists_and_eq_and]
    rfl
  | inter t u =>
    rw [tree, Tree.mem_language_mkInterList]
    simp only [Finset.mem_insert, Finset.mem_singleton, forall_eq_or_imp, forall_eq]
    rfl
  | interList ts =>
    rw [tree, Tree.mem_language_mkInterList]
    simp only [List.mem_toFinset, List.mem_map, forall_exists_index, and_imp,
      forall_apply_eq_imp_iff₂]
    rfl
  | negation t =>
    rw [tree, Tree.language_mkNegation]
    rfl
  | difference t u =>
    rw [tree, Tree.mem_language_mkInterList]
    simp only [Finset.mem_insert, Finset.mem_singleton, forall_eq_or_imp, forall_eq,
      Tree.language_mkNegation]
    rfl
  | star t =>
    rw [tree, Tree.language_mkStar]
    rfl
  | plus t =>
    rw [tree, Tree.language_mkConcat, Tree.language_mkStar]
    have h := mem_pow_mul_kstar (L := (sub t).language) (m := 1) (w := w)
    rw [pow_one] at h
    exact h
  | optional t =>
    rw [tree, Tree.language_mkRepeated _ (Nat.zero_le 1), mem_powers_iff]
    constructor
    · rintro ⟨k, _, hk, hw⟩
      obtain rfl | rfl := Nat.le_one_iff_eq_zero_or_eq_one.1 hk
      · left
        simpa using hw
      · right
        simpa using hw
    · rintro (rfl | hw)
      · exact ⟨0, Nat.le_refl 0, Nat.zero_le 1, by simp⟩
      · exact ⟨1, Nat.zero_le 1, Nat.le_refl 1, by simpa using hw⟩
  | repeated t min max =>
    rw [tree, Tree.language_mkRepeated _ hop]
    rfl
  | atLeast t min =>
    rw [tree, Tree.language_mkConcat, Tree.language_mkStar,
      Tree.language_mkRepeated _ (Nat.le_refl min), powers_self]
    exact mem_pow_mul_kstar

end Language

section Apply

variable {s : Store}

theorem builds_apply (hs : s.WellFormed) {op : Operation} (hargs : ∀ t ∈ op.args, t < s.size)
    (hop : op.InOrder) : ∃ r, op.apply s = (.ok r.1, r.2) ∧ s.Builds r (op.tree s.tree) := by
  cases op with
  | empty => exact ⟨_, rfl, Store.builds_empty hs⟩
  | epsilon => exact ⟨_, rfl, Store.builds_epsilon hs⟩
  | full => exact ⟨_, rfl, Store.builds_full hs⟩
  | literal set => exact ⟨_, rfl, Store.builds_literal hs set⟩
  | symbol c => exact ⟨_, rfl, Store.builds_literal hs _⟩
  | oneOf symbols => exact ⟨_, rfl, Store.builds_literal hs _⟩
  | anyOf a => exact ⟨_, rfl, Store.builds_literal hs _⟩
  | noneOf set a => exact ⟨_, rfl, Store.builds_literal hs _⟩
  | word w => exact ⟨_, rfl, Store.builds_word hs w⟩
  | concat left right =>
    refine ⟨_, rfl, Store.builds_concat hs ?_ ?_⟩ <;> apply hargs <;> simp [args]
  | concatList ts => exact ⟨_, rfl, Store.builds_concatList hs hargs⟩
  | union t u => refine ⟨_, rfl, Store.builds_union hs ?_ ?_⟩ <;> apply hargs <;> simp [args]
  | unionList ts => exact ⟨_, rfl, Store.builds_unionList hs hargs⟩
  | inter t u => refine ⟨_, rfl, Store.builds_inter hs ?_ ?_⟩ <;> apply hargs <;> simp [args]
  | interList ts => exact ⟨_, rfl, Store.builds_interList hs hargs⟩
  | negation t =>
    refine ⟨_, rfl, Store.builds_negation hs ?_⟩
    apply hargs t (List.mem_singleton_self t)
  | difference t u =>
    refine ⟨_, rfl, Store.builds_difference hs ?_ ?_⟩ <;> apply hargs <;> simp [args]
  | star t =>
    refine ⟨_, rfl, Store.builds_star hs ?_⟩
    apply hargs t (List.mem_singleton_self t)
  | plus t =>
    refine ⟨_, rfl, Store.builds_plus hs ?_⟩
    apply hargs t (List.mem_singleton_self t)
  | optional t =>
    refine ⟨_, rfl, Store.builds_between hs ?_ (Nat.zero_le 1)⟩
    apply hargs t (List.mem_singleton_self t)
  | repeated t min max =>
    refine ⟨s.between t min max, ?_, Store.builds_between hs ?_ hop⟩
    · rw [apply, Store.repeated, if_neg (Nat.not_lt_of_le hop)]
    · apply hargs t (List.mem_singleton_self t)
  | atLeast t min =>
    refine ⟨_, rfl, Store.builds_atLeast hs ?_ min⟩
    apply hargs t (List.mem_singleton_self t)

theorem apply_of_not_inOrder {op : Operation} (hop : ¬op.InOrder) (s : Store) :
    ∃ e, op.apply s = (.error e, s) := by
  cases op with
  | repeated t min max =>
    refine ⟨.invalidBounds min max, ?_⟩
    rw [apply, Store.repeated, if_pos (Nat.lt_of_not_le hop)]
  | _ => exact absurd True.intro hop

theorem replays_apply (hs : s.WellFormed) {op : Operation} (hargs : ∀ t ∈ op.args, t < s.size) :
    s.Replays op.apply := by
  have hissue : ∀ f : Store → TermId × Store, s.Replays f →
      s.Replays fun s => ((.ok (f s).1 : Except Error TermId), (f s).2) :=
    fun _ hf => hf.map Except.ok
  cases op with
  | empty => exact hissue _ (s.replays_pure Store.empty)
  | epsilon => exact hissue _ (s.replays_pure Store.epsilon)
  | full => exact hissue _ (s.replays_pure Store.full)
  | literal set => exact hissue _ (s.replays_literal set)
  | symbol c => exact hissue _ (s.replays_literal (.singleton c))
  | oneOf symbols => exact hissue _ (s.replays_literal (.ofList symbols))
  | anyOf a => exact hissue _ (s.replays_literal a.set)
  | noneOf set a => exact hissue _ (s.replays_literal (a.set.difference set))
  | word w => exact hissue _ (Store.replays_word hs w)
  | concat t u =>
    have ht := hargs t (by simp [args])
    have hu := hargs u (by simp [args])
    exact hissue _ (Store.replays_concat hs ht hu)
  | concatList ts => exact hissue _ (Store.replays_concatList hs hargs)
  | union t u =>
    have ht := hargs t (by simp [args])
    have hu := hargs u (by simp [args])
    exact hissue _ (Store.replays_union ht hu)
  | unionList ts => exact hissue _ (Store.replays_unionList hargs)
  | inter t u =>
    have ht := hargs t (by simp [args])
    have hu := hargs u (by simp [args])
    exact hissue _ (Store.replays_inter ht hu)
  | interList ts => exact hissue _ (Store.replays_interList hargs)
  | negation t => exact hissue _ (Store.replays_negation (hargs t (List.mem_singleton_self t)))
  | difference t u =>
    have ht := hargs t (by simp [args])
    have hu := hargs u (by simp [args])
    exact hissue _ (Store.replays_difference hs ht hu)
  | star t => exact hissue _ (Store.replays_star (hargs t (List.mem_singleton_self t)))
  | plus t => exact hissue _ (Store.replays_plus hs (hargs t (List.mem_singleton_self t)))
  | optional t => exact hissue _ (Store.replays_between (hargs t (List.mem_singleton_self t)) 0 1)
  | repeated t min max =>
    exact Store.replays_repeated (hargs t (List.mem_singleton_self t)) min max
  | atLeast t min =>
    exact hissue _ (Store.replays_atLeast hs (hargs t (List.mem_singleton_self t)) min)

end Apply

end Operation

end Residual
