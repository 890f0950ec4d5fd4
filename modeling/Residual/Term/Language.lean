import Mathlib.Computability.Language
import Residual.Term.Growth

/-!
This module contains the languages of terms: the words that a term stands for, read off its syntax
without simplification or derivatives. A word may use any symbol, so the complement of a language is
taken within the words over all symbols.
-/

namespace Residual

open Computability

namespace Expr

def language (sub : TermId → Language Char) : Expr → Language Char
  | emptySet => 0
  | emptyString => 1
  | literal symbols => {w | ∃ c ∈ symbols, w = [c]}
  | concat left right => sub left * sub right
  | union args => {w | ∃ t ∈ args, w ∈ sub t}
  | inter args => {w | ∀ t ∈ args, w ∈ sub t}
  | negation arg => (sub arg)ᶜ
  | star arg => (sub arg)∗
  | repeated arg min max => {w | ∃ k, min ≤ k ∧ k ≤ max ∧ w ∈ sub arg ^ k}

theorem language_congr {e : Expr} {f g : TermId → Language Char}
    (h : ∀ c ∈ e.children, f c = g c) : e.language f = e.language g := by
  cases e with
  | union args =>
    ext w
    exact exists_congr fun c => and_congr_right fun hc => by rw [h c hc]
  | inter args =>
    ext w
    exact forall_congr' fun c => imp_congr_right fun hc => by rw [h c hc]
  | literal => rfl
  | repeated arg min max => rw [language, language, h arg (List.mem_singleton_self arg)]
  | _ => simp_all [language, children]

end Expr

namespace Store

def language (s : Store) (t : TermId) : Language Char :=
  (s.expr t).language fun c => if c < t then s.language c else 0
termination_by t

theorem language_eq (s : Store) (t : TermId) : s.language t = (s.expr t).language s.language := by
  rw [language]
  exact Expr.language_congr fun c hc => if_pos (child_lt rfl hc)

theorem Extends.language_eq {s s' : Store} (h : s.Extends s') {t : TermId} (ht : t < s.size) :
    s'.language t = s.language t := by
  rw [Store.language_eq, Store.language_eq s, h.expr_eq ht]
  refine Expr.language_congr fun c hc => ?_
  have : c < t := child_lt rfl hc
  exact h.language_eq (Nat.lt_trans this ht)
termination_by t

section Basic

variable (s : Store)

theorem expr_empty : s.expr empty = .emptySet := by simp [expr, s.get?_empty]

theorem expr_epsilon : s.expr epsilon = .emptyString := by simp [expr, s.get?_epsilon]

theorem expr_full : s.expr full = .negation empty := by simp [expr, s.get?_full]

@[simp]
theorem language_empty : s.language empty = 0 := by rw [language_eq, expr_empty]; rfl

@[simp]
theorem language_epsilon : s.language epsilon = 1 := by rw [language_eq, expr_epsilon]; rfl

@[simp]
theorem mem_language_full (w : List Char) : w ∈ s.language full := by
  rw [language_eq, expr_full]
  show w ∉ s.language empty
  simp

end Basic

end Store

end Residual
