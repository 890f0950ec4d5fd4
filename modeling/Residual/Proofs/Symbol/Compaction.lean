import Mathlib.Data.List.Chain
import Residual.Proofs.Symbol.Range

/-!
This module contains what makes the compact form of a list of symbols the only one: its ranges give
the list back, and no two neighbours among them could be one range.
-/

namespace Residual

namespace SymbolRange

def codePoints (r : SymbolRange) : List Nat :=
  List.range' r.first.toNat (r.last.toNat + 1 - r.first.toNat)

def Apart (r q : SymbolRange) : Prop := r.last.toNat + 1 ≠ q.first.toNat

/--
Whether ranges stand for a list of symbols: expanded one after the other they give the list, and all
neighbours are apart.
-/
structure Compacts (rs : List SymbolRange) (symbols : List Char) : Prop where
  ordered : ∀ r ∈ rs, r.first.toNat ≤ r.last.toNat
  expanded : rs.flatMap codePoints = symbols.map Char.toNat
  apart : rs.IsChain Apart

variable {r q : SymbolRange} {rs : List SymbolRange} {symbols : List Char} {c : Char}

section CodePoints

theorem codePoints_eq_cons (h : r.first.toNat ≤ r.last.toNat) :
    r.codePoints = r.first.toNat ::
      List.range' (r.first.toNat + 1) (r.last.toNat - r.first.toNat) := by
  have hsize : r.last.toNat + 1 - r.first.toNat = r.last.toNat - r.first.toNat + 1 := by omega
  rw [codePoints, hsize, List.range'_succ]

theorem mem_codePoints_iff {n : Nat} :
    n ∈ r.codePoints ↔ r.first.toNat ≤ n ∧ n ≤ r.last.toNat := by
  rw [codePoints, List.mem_range'_1]
  omega

theorem codePoints_singleton (c : Char) : (singleton c).codePoints = [c.toNat] := by
  rw [codePoints_eq_cons (Nat.le_refl _), singleton, Nat.sub_self, List.range'_zero]

theorem codePoints_of_next (hnext : c.toNat + 1 = r.first.toNat)
    (h : r.first.toNat ≤ r.last.toNat) : codePoints ⟨c, r.last⟩ = c.toNat :: r.codePoints := by
  have hle : c.toNat ≤ r.last.toNat := by omega
  have hsize : r.last.toNat + 1 - r.first.toNat = r.last.toNat - c.toNat := by omega
  rw [codePoints_eq_cons hle, codePoints, hsize, hnext]

theorem codePoints_of_previous (hnext : r.last.toNat + 1 = c.toNat)
    (h : r.first.toNat ≤ r.last.toNat) : codePoints ⟨r.first, c⟩ = r.codePoints ++ [c.toNat] := by
  have hsize : c.toNat + 1 - r.first.toNat = r.last.toNat + 1 - r.first.toNat + 1 := by omega
  have hlast : r.first.toNat + (r.last.toNat + 1 - r.first.toNat) = c.toNat := by omega
  rw [codePoints, codePoints, hsize, List.range'_1_concat, hlast]

end CodePoints

section Front

theorem Compacts.first_eq (h : Compacts (r :: rs) (c :: symbols)) : r.first = c := by
  have hexpanded := h.expanded
  rw [List.flatMap_cons, codePoints_eq_cons (h.ordered r List.mem_cons_self), List.cons_append,
    List.map_cons] at hexpanded
  exact Char.toNat_inj.1 (List.cons.inj hexpanded).1

theorem isChain_of_last_eq (heq : q.last = r.last) (h : (r :: rs).IsChain Apart) :
    (q :: rs).IsChain Apart := by
  obtain ⟨hapart, hrest⟩ := List.isChain_cons.1 h
  refine List.isChain_cons.2 ⟨fun s hs => ?_, hrest⟩
  rw [Apart, heq]
  exact hapart s hs

theorem Compacts.exists_symbol {n : Nat} (h : Compacts rs symbols) (hr : r ∈ rs)
    (hn : n ∈ r.codePoints) : ∃ c ∈ symbols, c.toNat = n := by
  have hmem : n ∈ rs.flatMap codePoints := List.mem_flatMap.2 ⟨r, hr, hn⟩
  rw [h.expanded] at hmem
  exact List.mem_map.1 hmem

theorem compacts_singleton_cons_iff : Compacts (singleton c :: rs) (c :: symbols) ↔
    Compacts rs symbols ∧ ∀ r ∈ rs.head?, (singleton c).Apart r := by
  have hcons : (singleton c :: rs).flatMap codePoints = c.toNat :: rs.flatMap codePoints := by
    rw [List.flatMap_cons, codePoints_singleton, List.singleton_append]
  constructor
  · rintro ⟨hordered, hexpanded, hchain⟩
    obtain ⟨hapart, hchain⟩ := List.isChain_cons.1 hchain
    rw [hcons, List.map_cons] at hexpanded
    exact ⟨⟨(List.forall_mem_cons.1 hordered).2, (List.cons.inj hexpanded).2, hchain⟩, hapart⟩
  · rintro ⟨⟨hordered, hexpanded, hchain⟩, hapart⟩
    refine ⟨List.forall_mem_cons.2 ⟨Nat.le_refl _, hordered⟩, ?_,
      List.isChain_cons.2 ⟨hapart, hchain⟩⟩
    rw [hcons, hexpanded, List.map_cons]

theorem compacts_longer_iff (hnext : c.toNat + 1 = r.first.toNat)
    (hr : r.first.toNat ≤ r.last.toNat) :
    Compacts (⟨c, r.last⟩ :: rs) (c :: symbols) ↔ Compacts (r :: rs) symbols := by
  have hcons : (⟨c, r.last⟩ :: rs).flatMap codePoints =
      c.toNat :: (r :: rs).flatMap codePoints := by
    rw [List.flatMap_cons, codePoints_of_next hnext hr, List.flatMap_cons, List.cons_append]
  constructor
  · rintro ⟨hordered, hexpanded, hchain⟩
    rw [hcons, List.map_cons] at hexpanded
    refine ⟨List.forall_mem_cons.2 ⟨hr, (List.forall_mem_cons.1 hordered).2⟩,
      (List.cons.inj hexpanded).2, ?_⟩
    exact isChain_of_last_eq (r := ⟨c, r.last⟩) rfl hchain
  · rintro ⟨hordered, hexpanded, hchain⟩
    have hle : c.toNat ≤ r.last.toNat := by omega
    refine ⟨List.forall_mem_cons.2 ⟨hle, (List.forall_mem_cons.1 hordered).2⟩, ?_,
      isChain_of_last_eq (r := r) rfl hchain⟩
    rw [hcons, hexpanded, List.map_cons]

end Front

section Lossless

theorem Compacts.consSymbol (h : Compacts rs symbols) (c : Char) :
    Compacts (consSymbol c rs) (c :: symbols) := by
  cases rs with
  | nil => exact compacts_singleton_cons_iff.2 ⟨h, fun _ h => absurd h (Option.not_mem_none _)⟩
  | cons r rs =>
    rw [consSymbol_cons]
    split
    next hnext => exact (compacts_longer_iff hnext (h.ordered r List.mem_cons_self)).2 h
    next hne =>
      refine compacts_singleton_cons_iff.2 ⟨h, fun q hq => ?_⟩
      obtain rfl := Option.some.inj hq
      exact hne

theorem compacts_compact (symbols : List Char) : Compacts (compact symbols) symbols := by
  induction symbols with
  | nil => exact ⟨fun _ h => absurd h List.not_mem_nil, rfl, .nil⟩
  | cons c symbols ih => exact ih.consSymbol c

end Lossless

section Unique

theorem Compacts.eq_nil (h : Compacts rs []) : rs = [] := by
  cases rs with
  | nil => rfl
  | cons r rs =>
    have hfirst : r.first.toNat ∈ r.codePoints :=
      mem_codePoints_iff.2 ⟨Nat.le_refl _, h.ordered r List.mem_cons_self⟩
    obtain ⟨c, hc, _⟩ := h.exists_symbol List.mem_cons_self hfirst
    exact absurd hc List.not_mem_nil

theorem Compacts.of_cons (h : Compacts rs (c :: symbols)) :
    ∃ qs, Compacts qs symbols ∧ rs = SymbolRange.consSymbol c qs := by
  cases rs with
  | nil => nomatch h.expanded
  | cons r rs =>
    obtain ⟨x, e⟩ := r
    obtain rfl : x = c := h.first_eq
    have hle : x.toNat ≤ e.toNat := h.ordered _ List.mem_cons_self
    rcases Nat.eq_or_lt_of_le hle with heq | hlt
    · obtain rfl := Char.toNat_inj.1 heq
      obtain ⟨hrs, hapart⟩ := compacts_singleton_cons_iff.1 h
      refine ⟨rs, hrs, ?_⟩
      cases rs with
      | nil => rfl
      | cons s rs =>
        have hne : x.toNat + 1 ≠ s.first.toNat := hapart s rfl
        rw [consSymbol_cons, if_neg hne]
        rfl
    · -- the range goes on, so the next code point is that of a symbol
      have hmem : x.toNat + 1 ∈ codePoints ⟨x, e⟩ := mem_codePoints_iff.2 (by dsimp only; omega)
      obtain ⟨d, _, hd⟩ := h.exists_symbol List.mem_cons_self hmem
      have hde : d.toNat ≤ e.toNat := hd ▸ hlt
      refine ⟨⟨d, e⟩ :: rs, (compacts_longer_iff (r := ⟨d, e⟩) hd.symm hde).1 h, ?_⟩
      rw [consSymbol_cons, if_pos hd.symm]

theorem Compacts.eq_compact (h : Compacts rs symbols) : rs = compact symbols := by
  induction symbols generalizing rs with
  | nil => exact h.eq_nil
  | cons c symbols ih =>
    obtain ⟨qs, hqs, rfl⟩ := h.of_cons
    rw [ih hqs]
    rfl

end Unique

section Accumulating

def snocSymbol (rs : List SymbolRange) (c : Char) : List SymbolRange :=
  match rs.getLast? with
  | none => [singleton c]
  | some r =>
    if r.last.toNat + 1 = c.toNat then rs.dropLast ++ [⟨r.first, c⟩] else rs ++ [singleton c]

theorem snocSymbol_concat (rs : List SymbolRange) (r : SymbolRange) (c : Char) :
    snocSymbol (rs ++ [r]) c =
      if r.last.toNat + 1 = c.toNat then rs ++ [⟨r.first, c⟩] else rs ++ [r] ++ [singleton c] := by
  rw [snocSymbol, List.getLast?_concat, List.dropLast_concat]

theorem compacts_concat_iff : Compacts (rs ++ [r]) symbols ↔
    (∀ q ∈ rs, q.first.toNat ≤ q.last.toNat) ∧ r.first.toNat ≤ r.last.toNat ∧
      rs.flatMap codePoints ++ r.codePoints = symbols.map Char.toNat ∧
      rs.IsChain Apart ∧ ∀ q ∈ rs.getLast?, q.Apart r := by
  have hordered : (∀ q ∈ rs ++ [r], q.first.toNat ≤ q.last.toNat) ↔
      (∀ q ∈ rs, q.first.toNat ≤ q.last.toNat) ∧ r.first.toNat ≤ r.last.toNat := by
    rw [List.forall_mem_append, List.forall_mem_singleton]
  have hexpanded : (rs ++ [r]).flatMap codePoints = rs.flatMap codePoints ++ r.codePoints := by
    rw [List.flatMap_append, List.flatMap_singleton]
  have hapart : (rs ++ [r]).IsChain Apart ↔ rs.IsChain Apart ∧ ∀ q ∈ rs.getLast?, q.Apart r := by
    rw [List.isChain_append]
    simp
  rw [← hexpanded, ← hapart, ← and_assoc, ← hordered]
  exact ⟨fun h => ⟨h.ordered, h.expanded, h.apart⟩, fun h => ⟨h.1, h.2.1, h.2.2⟩⟩

theorem Compacts.snocSymbol (h : Compacts rs symbols) (c : Char) :
    Compacts (snocSymbol rs c) (symbols ++ [c]) := by
  rcases rs.eq_nil_or_concat' with rfl | ⟨rs, r, rfl⟩
  · obtain rfl := List.map_eq_nil_iff.1 h.expanded.symm
    exact (compacts_compact []).consSymbol c
  · obtain ⟨hrs, hr, hexpanded, hchain, hlast⟩ := compacts_concat_iff.1 h
    rw [snocSymbol_concat]
    split
    next hnext =>
      refine compacts_concat_iff.2 ⟨hrs, by dsimp only; omega, ?_, hchain, hlast⟩
      rw [codePoints_of_previous hnext hr, ← List.append_assoc, hexpanded, List.map_append]
      rfl
    next hne =>
      refine compacts_concat_iff.2 ⟨h.ordered, Nat.le_refl _, ?_, h.apart, ?_⟩
      · rw [codePoints_singleton, h.expanded, List.map_append]
        rfl
      · rw [List.getLast?_concat]
        intro q hq
        obtain rfl := Option.some.inj hq
        exact hne

theorem foldl_snocSymbol (symbols : List Char) :
    symbols.foldl snocSymbol [] = compact symbols := by
  apply Compacts.eq_compact
  induction symbols using List.reverseRecOn with
  | nil => exact compacts_compact []
  | append_singleton symbols c ih =>
    rw [List.foldl_concat]
    exact ih.snocSymbol c

end Accumulating

/--
The ranges of the compact form of a list are the only ones that give the list back, one after the
other, without neighbours that could be one range. It makes no difference whether the symbols are
put in front of the ranges or behind them. All that lies between the first and the last symbol of a
range is a symbol of the list, and so a symbol is in a range if and only if it is in the list.
-/
theorem compact_exact (symbols : List Char) :
    (∀ rs, Compacts rs symbols ↔ rs = compact symbols) ∧
    symbols.foldl snocSymbol [] = compact symbols ∧
    (∀ r ∈ compact symbols, r.first ≤ r.last ∧ ∀ n ∈ r.codePoints, ∃ c ∈ symbols, c.toNat = n) ∧
    ∀ c, (∃ r ∈ compact symbols, r.contains c = true) ↔ c ∈ symbols := by
  refine ⟨?_, foldl_snocSymbol symbols, ?_, ?_⟩
  · intro rs
    constructor
    · exact Compacts.eq_compact
    · rintro rfl
      exact compacts_compact symbols
  · intro r hr
    exact ⟨ordered_compact symbols r hr, fun n hn => (compacts_compact symbols).exists_symbol hr hn⟩
  · intro c
    rw [← any_contains_compact, List.any_eq_true]

-- no symbols have the code points between the last two, which are not consecutive
example : compact ['\ud7fe', '\ud7ff', '\ue000'] = [⟨'\ud7fe', '\ud7ff'⟩, singleton '\ue000'] := by
  decide

end SymbolRange

end Residual
