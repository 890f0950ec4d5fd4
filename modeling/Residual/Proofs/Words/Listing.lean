import Residual.Proofs.Words.Counts

/-!
This module contains the correctness of listings. A turn of a walk does not change the words that are
still to come, except that it takes away the first of them when it has found it.
-/

namespace Residual

namespace Automaton

variable {a : Automaton} {s : StateId} {k : Nat}

theorem edge?_eq_getElem? (a : Automaton) (s : StateId) (k : Nat) :
    a.edge? s k = (a.edges s)[k]? := by
  apply Option.ext
  rintro ⟨c, d⟩
  rw [edges, List.getElem?_zip_eq_some, ← successor?_eq_getElem?, edge?]
  have hc : a.alphabet.symbol? k = a.alphabet.symbols[k]? := Array.getElem?_toList.symm
  rw [← hc]
  cases a.alphabet.symbol? k <;> cases a.successor? s k <;> simp

theorem drop_edges_of_none (h : a.edge? s k = none) : (a.edges s).drop k = [] := by
  rw [edge?_eq_getElem?, List.getElem?_eq_none_iff] at h
  exact List.drop_of_length_le h

theorem drop_edges_of_some {e : Char × StateId} (h : a.edge? s k = some e) :
    (a.edges s).drop k = e :: (a.edges s).drop (k + 1) := by
  rw [edge?_eq_getElem?] at h
  obtain ⟨hk, rfl⟩ := List.getElem?_eq_some_iff.1 h
  exact List.drop_eq_getElem_cons hk

end Automaton

def Visit.words (a : Automaton) (v : Visit) : List (List Char) :=
  match v.rest with
  | 0 => [[]]
  | n + 1 => ((a.edges v.state).drop v.index).flatMap fun e => (a.words n e.2).map (e.1 :: ·)

theorem Visit.words_of_ne_nil {a : Automaton} {s : StateId} {n : Nat} (h : a.words n s ≠ []) :
    Visit.words a ⟨s, 0, n⟩ = a.words n s := by
  cases n with
  | succ n => rfl
  | zero =>
    rw [Automaton.words] at h ⊢
    split at h
    next haccepting => rw [if_pos haccepting]; rfl
    · contradiction

namespace Listing

def pathWords (a : Automaton) : List Visit → List Char → List (List Char)
  | [], _ => []
  | v :: path, stem => (v.words a).map (stem.reverse ++ ·) ++ pathWords a path stem.tail

def laterWords (l : Listing) : List (List Char) :=
  (List.range' l.nextLength (l.maxLength + 1 - l.nextLength)).flatMap fun n =>
    l.counts.automaton.words n Automaton.initial

def walkWords (l : Listing) : List (List Char) :=
  pathWords l.counts.automaton l.path l.stem ++ l.laterWords

def coming (l : Listing) : List (List Char) :=
  if l.counts.bound = .empty then [] else l.walkWords

variable {l l' : Listing} {v : Visit} {path : List Visit}

theorem words_ne_nil_iff {n : Nat} (hn : n ≤ l.counts.maxLength) {s : StateId} :
    l.counts.automaton.words n s ≠ [] ↔ l.counts.lookup n s ≠ 0 := by
  rw [Counts.lookup_eq_length hn, Ne, Ne, List.length_eq_zero_iff]

section Moves

theorem walkWords_of_path_nil (hpath : l.path = []) (hle : l.length ≤ l.maxLength) :
    l.walkWords = l.counts.automaton.words l.length Automaton.initial ++ l.skipLength.walkWords := by
  have hleft : l.maxLength + 1 - l.length = l.maxLength + 1 - (l.length + 1) + 1 := by omega
  simp only [walkWords, laterWords, nextLength, skipLength, hpath, hleft, pathWords,
    List.range'_succ, List.flatMap_cons, List.nil_append]

theorem walkWords_start (hpath : l.path = []) (hle : l.length ≤ l.maxLength)
    (hne : l.counts.automaton.words l.length Automaton.initial ≠ []) :
    (l.start hle).walkWords = l.walkWords := by
  rw [walkWords_of_path_nil hpath hle]
  simp only [walkWords, laterWords, nextLength, start, skipLength, hpath, pathWords,
    Visit.words_of_ne_nil hne, List.reverse_nil, List.nil_append, List.map_id', List.append_nil]

theorem walkWords_of_path_cons (hpath : l.path = v :: path)
    (h : ∀ u ∈ path, u.rest ≤ l.counts.maxLength) :
    l.walkWords = (v.words l.counts.automaton).map (l.stem.reverse ++ ·) ++
      (l.backtrack path h).walkWords := by
  cases path with
  | nil => simp only [walkWords, laterWords, nextLength, backtrack, hpath, pathWords,
      List.append_assoc]
  | cons u path => simp only [walkWords, laterWords, nextLength, backtrack, hpath, pathWords,
      List.append_assoc]

theorem walkWords_of_edge {n : Nat} {e : Char × StateId} (hpath : l.path = v :: path)
    (hrest : v.rest = n + 1) (hedge : l.counts.automaton.edge? v.state v.index = some e) (h) :
    l.walkWords = (l.counts.automaton.words n e.2).map (l.stem.reverse ++ e.1 :: ·) ++
      (l.advance v path h).walkWords := by
  have hwords : v.words l.counts.automaton =
      (l.counts.automaton.words n e.2).map (e.1 :: ·) ++
        Visit.words l.counts.automaton { v with index := v.index + 1 } := by
    simp only [Visit.words, hrest]
    rw [Automaton.drop_edges_of_some hedge, List.flatMap_cons]
  simp only [walkWords, laterWords, nextLength, advance, hpath, pathWords, hwords, List.map_append,
    List.map_map, Function.comp_def, List.append_assoc]

theorem walkWords_enter {n : Nat} (e : Char × StateId) (hpath : l.path = v :: path)
    (hn : n ≤ l.counts.maxLength) (hne : l.counts.automaton.words n e.2 ≠ []) :
    (l.enter e n hn).walkWords =
      (l.counts.automaton.words n e.2).map (l.stem.reverse ++ e.1 :: ·) ++ l.walkWords := by
  simp only [walkWords, laterWords, nextLength, enter, hpath, pathWords, Visit.words_of_ne_nil hne,
    List.tail_cons, List.reverse_cons, List.append_assoc, List.singleton_append]

end Moves

section Turns

def Leaves (l : Listing) : Turn → Prop
  | .finished => l.walkWords = []
  | .found word l' => l.walkWords = word :: l'.walkWords
  | .more l' => l.walkWords = l'.walkWords

theorem Takes.leaves {t : Turn} (h : l.Takes t) : l.Leaves t := by
  cases h with
  | finish hpath hlt =>
    have hleft : l.maxLength + 1 - l.length = 0 := by omega
    simp only [Leaves, walkWords, laterWords, nextLength, hpath, hleft, pathWords]
    rfl
  | skip hpath hle hzero =>
    have hnil := mt (words_ne_nil_iff (Nat.le_trans hle l.maxLength_le)).1 (not_not.2 hzero)
    rw [Leaves, walkWords_of_path_nil hpath hle, not_not.1 hnil, List.nil_append]
  | start hpath hle hne =>
    have hne' := (words_ne_nil_iff (Nat.le_trans hle l.maxLength_le)).2 hne
    exact (walkWords_start hpath hle hne').symm
  | find hpath hrest h =>
    rw [Leaves, walkWords_of_path_cons hpath h]
    simp only [Visit.words, hrest, List.map_cons, List.append_nil, List.map_nil,
      List.singleton_append]
  | leave hpath hrest hedge h =>
    rw [Leaves, walkWords_of_path_cons hpath h]
    simp only [Visit.words, hrest, Automaton.drop_edges_of_none hedge, List.flatMap_nil,
      List.map_nil, List.nil_append]
  | pass hpath hrest hedge h hzero =>
    have hn := l.rest_le _ (hpath ▸ List.mem_cons_self)
    have hnil := mt (words_ne_nil_iff (by omega)).1 (not_not.2 hzero)
    rw [Leaves, walkWords_of_edge hpath hrest hedge h, not_not.1 hnil, List.map_nil,
      List.nil_append]
  | enter hpath hrest hedge h hn hne =>
    have hne' := (words_ne_nil_iff hn).2 hne
    rw [Leaves, walkWords_of_edge hpath hrest hedge h, walkWords_enter _ rfl hn hne']
    rfl

theorem reset_of_more (h : l.turn = .more l') : l'.reset = l.reset := by
  have htakes := l.takes_turn
  rw [h] at htakes
  cases htakes <;> rfl

theorem reset_of_found {word : List Char} (h : l.turn = .found word l') : l'.reset = l.reset := by
  have htakes := l.takes_turn
  rw [h] at htakes
  cases htakes
  rfl

end Turns

section Calls

theorem walk_spec (l : Listing) :
    l.walk.1 = l.walkWords.head? ∧ l.walk.2.walkWords = l.walkWords.tail ∧
      l.walk.2.reset = l.reset := by
  fun_induction walk l with
  | case1 l hturn =>
    have hleaves := l.takes_turn.leaves
    rw [hturn, Leaves] at hleaves
    rw [hleaves]
    exact ⟨rfl, rfl, rfl⟩
  | case2 l word l' hturn =>
    have hleaves := l.takes_turn.leaves
    rw [hturn, Leaves] at hleaves
    rw [hleaves]
    exact ⟨rfl, rfl, reset_of_found hturn⟩
  | case3 l l' hturn ih =>
    have hleaves := l.takes_turn.leaves
    rw [hturn, Leaves] at hleaves
    rw [hleaves, ← reset_of_more hturn]
    exact ih

theorem counts_eq_of_reset_eq (h : l'.reset = l.reset) : l'.counts = l.counts := by
  have hcounts : l'.reset.counts = l.reset.counts := by rw [h]
  exact hcounts

theorem next_spec (l : Listing) :
    l.next.1 = l.coming.head? ∧ l.next.2.coming = l.coming.tail ∧ l.next.2.reset = l.reset := by
  unfold next
  split
  next hbound =>
    have hcoming : l.coming = [] := if_pos hbound
    rw [hcoming]
    exact ⟨rfl, rfl, rfl⟩
  next hbound =>
    obtain ⟨hhead, htail, hreset⟩ := l.walk_spec
    have hcoming : l.coming = l.walkWords := if_neg hbound
    have hcoming' : l.walk.2.coming = l.walk.2.walkWords := by
      rw [coming, counts_eq_of_reset_eq hreset, if_neg hbound]
    rw [hcoming, hcoming']
    exact ⟨hhead, htail, hreset⟩

def after (l : Listing) : Nat → Listing
  | 0 => l
  | k + 1 => (l.after k).next.2

def answer (l : Listing) (k : Nat) : Option (List Char) := (l.after k).next.1

theorem next?_eq_none_iff : l.next? = none ↔ l.coming = [] := by
  rw [← List.head?_eq_none_iff, ← l.next_spec.1]
  unfold next?
  split
  next h => simp [h]
  next h => simp [h]

theorem remaining_go_eq (l : Listing) (n : Nat) : remaining.go l n = n + l.coming.length := by
  fun_induction remaining.go l n with
  | case1 l n word l' h ih =>
    have hnext : l.next = (some word, l') := by
      unfold next? at h
      split at h
      next hnext =>
        cases h
        exact hnext
      · contradiction
    obtain ⟨hhead, htail, _⟩ := l.next_spec
    rw [hnext] at hhead htail
    rw [ih, htail, List.eq_cons_of_mem_head? hhead.symm]
    simp only [List.tail_cons, List.length_cons]
    omega
  | case2 l n h => rw [next?_eq_none_iff.1 h, List.length_nil, Nat.add_zero]

theorem remaining_eq_length (l : Listing) : l.remaining = l.coming.length := by
  rw [remaining, remaining_go_eq, Nat.zero_add]

end Calls

section Copies

inductive Use where
  | next (i : Nat)
  | reset (i : Nat)
  | copy (i : Nat)

def Use.perform {α : Type} (next reset : α → α) (ls : List α) : Use → List α
  | .next i => ls.modify i next
  | .reset i => ls.modify i reset
  | .copy i => ls ++ ls[i]?.toList

def left (words : List (List Char)) (uses : List Use) : List (List (List Char)) :=
  uses.foldl (Use.perform List.tail fun _ => words) [words]

section Relation

variable {α β : Type} {R : α → β → Prop} {xs : List α} {ys : List β}

end Relation

end Copies

end Listing

namespace Counts

end Counts

end Residual
