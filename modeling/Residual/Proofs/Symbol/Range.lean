import Residual.Symbol.Range

/-!
This module contains what the compact form of a list of symbols says about the list: its ranges have
the same symbols and no others, also next to code points that are no symbols.
-/

namespace Residual

namespace SymbolRange

variable {r : SymbolRange} {rs : List SymbolRange} {symbols : List Char} {c d : Char}

theorem contains_iff :
    r.contains c = true ↔ r.first.toNat ≤ c.toNat ∧ c.toNat ≤ r.last.toNat := by
  rw [contains, Bool.and_eq_true, decide_eq_true_eq, decide_eq_true_eq]
  rfl

theorem contains_singleton_iff : (singleton c).contains d = true ↔ d = c := by
  rw [contains_iff, ← Char.toNat_inj]
  simp only [singleton]
  omega

theorem consSymbol_cons (c : Char) (r : SymbolRange) (rs : List SymbolRange) :
    consSymbol c (r :: rs) =
      if c.toNat + 1 = r.first.toNat then ⟨c, r.last⟩ :: rs else singleton c :: r :: rs := rfl

theorem ordered_consSymbol (h : ∀ r ∈ rs, r.first.toNat ≤ r.last.toNat) :
    ∀ r ∈ consSymbol c rs, r.first.toNat ≤ r.last.toNat := by
  cases rs with
  | nil =>
    intro r hr
    rw [List.mem_singleton.1 hr]
    exact Nat.le_refl _
  | cons s rs =>
    obtain ⟨hs, hrs⟩ := List.forall_mem_cons.1 h
    rw [consSymbol_cons]
    split
    next hnext => exact List.forall_mem_cons.2 ⟨by dsimp only; omega, hrs⟩
    · exact List.forall_mem_cons.2 ⟨Nat.le_refl _, h⟩

theorem ordered_compact (symbols : List Char) :
    ∀ r ∈ compact symbols, r.first.toNat ≤ r.last.toNat := by
  induction symbols with
  | nil =>
    intro r hr
    exact absurd hr List.not_mem_nil
  | cons c symbols ih => exact ordered_consSymbol ih

theorem any_contains_consSymbol (h : ∀ r ∈ rs, r.first.toNat ≤ r.last.toNat) :
    (consSymbol c rs).any (fun r => r.contains d) = true ↔
      d = c ∨ rs.any (fun r => r.contains d) = true := by
  cases rs with
  | nil => simp [consSymbol, contains_singleton_iff]
  | cons s rs =>
    rw [consSymbol_cons]
    split
    next hnext =>
      -- the longer range has one more symbol, the code point before its first one
      have hs := h s List.mem_cons_self
      have hlonger : (⟨c, s.last⟩ : SymbolRange).contains d = true ↔
          d = c ∨ s.contains d = true := by
        rw [contains_iff, contains_iff, ← Char.toNat_inj]
        dsimp only
        omega
      rw [List.any_cons, List.any_cons, Bool.or_eq_true, Bool.or_eq_true, hlonger, or_assoc]
    · rw [List.any_cons, Bool.or_eq_true, contains_singleton_iff]

theorem any_contains_compact :
    (compact symbols).any (fun r => r.contains d) = true ↔ d ∈ symbols := by
  induction symbols with
  | nil => simp [compact]
  | cons c symbols ih =>
    rw [List.mem_cons, ← ih]
    exact any_contains_consSymbol (ordered_compact symbols)

end SymbolRange

end Residual
