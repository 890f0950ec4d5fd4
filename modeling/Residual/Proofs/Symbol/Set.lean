import Mathlib.Data.Char
import Mathlib.Data.List.Destutter
import Mathlib.Data.List.Sort
import Mathlib.Order.Interval.Set.Defs
import Residual.Proofs.Sharing

/-!
This module contains what makes sets of symbols canonical. Whatever operations a set comes from, it
stores its members in increasing order and each of them once, so halving decides membership, sets
with the same members are the same value, and literals with the same symbols are one term.
-/

namespace Residual

namespace SymbolSet

section Sorting

def sortDistinct (l : List Char) : List Char := l.mergeSort.destutter (· ≠ ·)

variable {l : List Char} {c d : Char}

theorem mem_destutter'_ne_iff : d ∈ l.destutter' (· ≠ ·) c ↔ d = c ∨ d ∈ l := by
  induction l generalizing c with
  | nil => simp
  | cons b l ih =>
    rw [List.destutter'_cons]
    split
    · rw [List.mem_cons, ih, List.mem_cons]
    next heq =>
      obtain rfl := not_not.1 heq
      rw [ih, List.mem_cons, ← or_assoc, or_self]

theorem pairwise_lt_destutter'_ne (h : (c :: l).Pairwise (· ≤ ·)) :
    (l.destutter' (· ≠ ·) c).Pairwise (· < ·) := by
  induction l generalizing c with
  | nil => exact List.pairwise_singleton ..
  | cons b l ih =>
    obtain ⟨hc, hrest⟩ := List.pairwise_cons.1 h
    rw [List.destutter'_cons]
    split
    next hne =>
      refine List.pairwise_cons.2 ⟨fun d hd => ?_, ih hrest⟩
      have hcb : c < b := lt_of_le_of_ne (hc b List.mem_cons_self) hne
      rcases mem_destutter'_ne_iff.1 hd with rfl | hd
      · exact hcb
      · exact lt_of_lt_of_le hcb ((List.pairwise_cons.1 hrest).1 d hd)
    next heq =>
      obtain rfl := not_not.1 heq
      exact ih hrest

theorem mem_sortDistinct_iff : c ∈ sortDistinct l ↔ c ∈ l := by
  have hsort : c ∈ l.mergeSort ↔ c ∈ l := List.mem_mergeSort
  rw [sortDistinct, ← hsort]
  cases l.mergeSort with
  | nil => rfl
  | cons b l => rw [List.destutter_cons', mem_destutter'_ne_iff, List.mem_cons]

theorem pairwise_lt_sortDistinct (l : List Char) : (sortDistinct l).Pairwise (· < ·) := by
  have hsort : l.mergeSort.Pairwise (· ≤ ·) := List.sortedLE_mergeSort.pairwise
  rw [sortDistinct]
  cases hl : l.mergeSort with
  | nil => exact List.Pairwise.nil
  | cons b l =>
    rw [hl] at hsort
    exact pairwise_lt_destutter'_ne hsort

theorem increasing_eq_sortDistinct (l : List Char) : Residual.increasing l = sortDistinct l := by
  apply (increasing_increasing l).ext ((pairwise_lt_sortDistinct l).imp compare_lt_iff_lt.2)
  intro c
  rw [mem_increasing, mem_sortDistinct_iff]

end Sorting

section Range

variable {first last c : Char}

theorem le_iff_toNat_le {c d : Char} : c ≤ d ↔ c.toNat ≤ d.toNat := Iff.rfl

theorem mem_range : c ∈ range first last ↔ first ≤ c ∧ c ≤ last := by
  rw [range, mem_ofList, List.mem_filterMap, le_iff_toNat_le, le_iff_toNat_le]
  constructor
  · rintro ⟨n, hn, hc⟩
    rw [List.mem_range'_1] at hn
    split at hc
    next hvalid =>
      obtain rfl := Option.some.inj hc
      have htoNat : (Char.ofNat n).toNat = n := by
        rw [Char.ofNat, dif_pos hvalid]
        rfl
      omega
    · contradiction
  · rintro ⟨hfirst, hlast⟩
    have hvalid : c.toNat.isValidChar := c.valid
    refine ⟨c.toNat, ?_, ?_⟩
    · rw [List.mem_range'_1]
      omega
    · rw [if_pos hvalid, Char.ofNat_toNat]

end Range

/-- A set as it is put together: from lists, texts, single symbols, ranges and alphabets. -/
inductive Formula where
  | ofList (l : List Char)
  | ofText (s : String)
  | singleton (c : Char)
  | range (first last : Char)
  | ofAlphabet (l : List Char)
  | union (x y : Formula)
  | inter (x y : Formula)
  | difference (x y : Formula)

namespace Formula

def eval : Formula → SymbolSet
  | ofList l => .ofList l
  | ofText s => .ofList s.toList
  | singleton c => .singleton c
  | range first last => .range first last
  | ofAlphabet l => (Alphabet.ofList l).set
  | union x y => x.eval.union y.eval
  | inter x y => x.eval.inter y.eval
  | difference x y => x.eval.difference y.eval

def members : Formula → Set Char
  | ofList l => {c | c ∈ l}
  | ofText s => {c | c ∈ s.toList}
  | singleton c => {c}
  | range first last => Set.Icc first last
  | ofAlphabet l => {c | c ∈ l}
  | union x y => x.members ∪ y.members
  | inter x y => x.members ∩ y.members
  | difference x y => x.members \ y.members

def slice : Formula → Array Char
  | ofList l => (sortDistinct l).toArray
  | ofText s => (sortDistinct s.toList).toArray
  | singleton c => #[c]
  | range first last =>
    (sortDistinct <| (List.range' first.toNat (last.toNat + 1 - first.toNat)).filterMap fun n =>
      if n.isValidChar then some (Char.ofNat n) else none).toArray
  | ofAlphabet l => (sortDistinct l).toArray
  | union x y => (sortDistinct (x.slice.toList ++ y.slice.toList)).toArray
  | inter x y => x.slice.filter fun c => (search? y.slice c).isSome
  | difference x y => x.slice.filter fun c => !(search? y.slice c).isSome

theorem mem_eval_iff (x : Formula) (c : Char) : c ∈ x.eval ↔ c ∈ x.members := by
  induction x with
  | ofList l | ofText s | ofAlphabet l => exact mem_ofList
  | singleton d => exact mem_singleton
  | range first last => exact mem_range
  | union x y ihx ihy => rw [eval, mem_union, ihx, ihy, members, Set.mem_union]
  | inter x y ihx ihy => rw [eval, mem_inter, ihx, ihy, members, Set.mem_inter_iff]
  | difference x y ihx ihy => rw [eval, mem_difference, ihx, ihy, members, Set.mem_sdiff]

theorem symbols_ofList (l : List Char) : (SymbolSet.ofList l).symbols = (sortDistinct l).toArray :=
  congrArg List.toArray (increasing_eq_sortDistinct l)

theorem symbols_eval (x : Formula) : x.eval.symbols = x.slice := by
  induction x with
  | ofList l | ofText s | ofAlphabet l | range first last => exact symbols_ofList _
  | singleton d => rfl
  | union x y ihx ihy =>
    rw [slice, ← ihx, ← ihy]
    exact symbols_ofList _
  | inter x y ihx ihy | difference x y ihx ihy =>
    rw [slice, ← ihx, ← ihy]
    rfl

theorem eval_eq_iff {x y : Formula} : x.eval = y.eval ↔ x.members = y.members := by
  rw [SymbolSet.ext_iff, Set.ext_iff]
  simp only [mem_eval_iff]

end Formula

theorem eq_of_isEmpty {s t : SymbolSet} (hs : s.isEmpty = true) (ht : t.isEmpty = true) :
    s = t := by
  have hempty : ∀ {u : SymbolSet}, u.isEmpty = true → ∀ c, c ∉ u := by
    intro u hu c hc
    exact Array.not_mem_empty c (Array.isEmpty_iff.1 hu ▸ hc)
  exact SymbolSet.ext fun c => iff_of_false (hempty hs c) (hempty ht c)

end SymbolSet

namespace Store

variable {s s' : Store} {set set' : SymbolSet}

theorem expr_literal_eq_ite (s : Store) (set : SymbolSet) :
    (s.literal set).2.expr (s.literal set).1 =
      if set.isEmpty then .emptySet else .literal set := by
  unfold literal
  split
  · exact s.expr_empty
  · exact expr_make (by simp [Expr.children])

theorem literal_eq_iff (h : (s.literal set).2.Extends s') :
    (s'.literal set').1 = (s.literal set).1 ↔ set' = set := by
  have hgrows := s.grows_literal set
  have hgrows' := s'.grows_literal set'
  have hext := h.trans hgrows'.ext
  rw [← expr_inj hgrows'.lt_size (hext.lt_size hgrows.lt_size), hext.expr_eq hgrows.lt_size,
    expr_literal_eq_ite, expr_literal_eq_ite]
  constructor
  · intro heq
    split at heq <;> split at heq
    next hempty' hempty => exact SymbolSet.eq_of_isEmpty hempty' hempty
    · contradiction
    · contradiction
    · exact Expr.literal.inj heq
  · rintro rfl
    rfl

end Store

/--
Each formula has the symbols that the operations on sets of the mathematical kind give it. They are
stored in increasing order, also when the operations know nothing about the order of the arrays that
they work on, and a search by halving finds all of them. Formulas with the same members have the
same value, and it is for these only that literals, one of them made at any later time, have the
same id.
-/
theorem SymbolSet.Formula.canonical (x : Formula) :
    x.eval.symbols = x.slice ∧
    x.slice.toList.Pairwise (· < ·) ∧
    (∀ c, c ∈ x.slice ↔ c ∈ x.members) ∧
    (∀ c, x.eval.contains c = true ↔ c ∈ x.members) ∧
    ∀ y : Formula, (x.eval = y.eval ↔ x.members = y.members) ∧
      ∀ w : Workspace, w.Reachable →
        ∀ (later : Session (w.build (Store.literal · x.eval)).2) (i : Nat),
          ((later.state i).build (Store.literal · y.eval)).1 =
            (w.build (Store.literal · x.eval)).1 ↔ x.members = y.members := by
  refine ⟨x.symbols_eval, ?_, ?_, ?_, fun y => ⟨eval_eq_iff, ?_⟩⟩
  · rw [← symbols_eval]
    exact x.eval.increasing.imp compare_lt_iff_lt.1
  · intro c
    rw [← symbols_eval]
    exact x.mem_eval_iff c
  · intro c
    rw [contains_iff]
    exact x.mem_eval_iff c
  · intro w hw later i
    have hargs : ∀ t ∈ (Operation.literal x.eval).args, t < w.numTerms := List.forall_mem_nil _
    have hlater := later.grows_state (Workspace.grows_build hw.sound hargs).sound i
    rw [← eval_eq_iff, eq_comm (a := x.eval)]
    exact Store.literal_eq_iff hlater.ext

theorem SymbolSet.Formula.canonical_rest :
    let x : Formula := .difference (.range 'a' 'd') (.ofText "dbd")
    let y : Formula := .union (.singleton 'c') (.inter (.ofAlphabet ['e', 'a', 'c']) (.ofText "da"))
    let w := Workspace.initial 5
    let later := Session.repeating (w.build (Store.literal · x.eval)).2 (.build (.symbol 'b')) rfl
    w.Reachable ∧ x.members = y.members ∧
      ∀ i, ((later.state i).build (Store.literal · y.eval)).1 =
        (w.build (Store.literal · x.eval)).1 := by
  intro x y w later
  have hw : w.Reachable := .initial 5
  obtain ⟨_, _, _, _, hsame⟩ := x.canonical
  obtain ⟨heval, hliteral⟩ := hsame y
  have hmembers : x.members = y.members := heval.1 (by decide +kernel)
  exact ⟨hw, hmembers, fun i => (hliteral w hw later i).2 hmembers⟩

end Residual
