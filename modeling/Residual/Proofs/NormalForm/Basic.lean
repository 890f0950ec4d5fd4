import Residual.Term.Language

/-!
This module contains the normal form of terms. A term in normal form is simplified as far as a look
at its direct sub-terms allows.
-/

namespace Residual

namespace Store

def IsProper (s : Store) (t : TermId) : Prop := s.expr t ≠ .emptySet ∧ s.expr t ≠ .emptyString

def IsFactor (s : Store) (t : TermId) : Prop := s.IsProper t ∧ ∀ x y, s.expr t ≠ .concat x y

def IsBase (s : Store) (t : TermId) : Prop := s.IsProper t ∧ ∀ x, s.expr t ≠ .star x

def IsLiteral (s : Store) (t : TermId) : Prop := ∃ set, s.expr t = .literal set

structure Simplified (s : Store) (args : List TermId) : Prop where
  two_le_length : 2 ≤ args.length
  increasing : args.Pairwise (· < ·)
  ne_emptySet : ∀ t ∈ args, s.expr t ≠ .emptySet
  ne_full : ∀ t ∈ args, s.expr t ≠ .negation empty
  literal_unique : ∀ t ∈ args, ∀ u ∈ args, s.IsLiteral t → s.IsLiteral u → t = u
  no_complements : ∀ t ∈ args, ∀ u ∈ args, s.expr t ≠ .negation u

end Store

def Expr.Normal (s : Store) : Expr → Prop
  | emptySet | emptyString => True
  | literal set => ∃ c, c ∈ set
  | concat left right => s.IsFactor left ∧ s.IsProper right
  | union args =>
    s.Simplified args ∧ (∀ t ∈ args, ∀ us, s.expr t ≠ .union us) ∧
      ∀ t ∈ args, s.expr t = .emptyString → ∀ u ∈ args, u ≠ t → s.nullable u = false
  | inter args =>
    s.Simplified args ∧ (∀ t ∈ args, ∀ us, s.expr t ≠ .inter us) ∧
      ∀ t ∈ args, s.expr t ≠ .emptyString
  | negation arg => ∀ t, s.expr arg ≠ .negation t
  | star arg => s.IsBase arg
  | repeated arg min max =>
    s.IsBase arg ∧ min ≤ max ∧ 1 ≤ max ∧ (min, max) ≠ (1, 1) ∧
      (s.nullable arg = true → min = 0 ∧ 2 ≤ max)

namespace Store

def Normal (s : Store) : Prop := ∀ t, (s.expr t).Normal s

section Growth

variable {s s' : Store} {t : TermId} {args : List TermId}

theorem IsProper.mono (h : s.IsProper t) (hexpr : s'.expr t = s.expr t) : s'.IsProper t := by
  rw [IsProper, hexpr]
  exact h

theorem IsFactor.mono (h : s.IsFactor t) (hexpr : s'.expr t = s.expr t) : s'.IsFactor t := by
  rw [IsFactor, hexpr]
  exact ⟨h.1.mono hexpr, h.2⟩

theorem IsBase.mono (h : s.IsBase t) (hexpr : s'.expr t = s.expr t) : s'.IsBase t := by
  rw [IsBase, hexpr]
  exact ⟨h.1.mono hexpr, h.2⟩

theorem Simplified.mono (h : s.Simplified args) (hexpr : ∀ t ∈ args, s'.expr t = s.expr t) :
    s'.Simplified args where
  two_le_length := h.two_le_length
  increasing := h.increasing
  ne_emptySet t ht := hexpr t ht ▸ h.ne_emptySet t ht
  ne_full t ht := hexpr t ht ▸ h.ne_full t ht
  literal_unique t ht u hu := by
    rw [IsLiteral, IsLiteral, hexpr t ht, hexpr u hu]
    exact h.literal_unique t ht u hu
  no_complements t ht := hexpr t ht ▸ h.no_complements t ht

end Growth

end Store

theorem Expr.Normal.mono {s s' : Store} {e : Expr} (he : e.Normal s) (h : s.Extends s')
    (hc : ∀ c ∈ e.children, c < s.size) : e.Normal s' := by
  have hexpr : ∀ c ∈ e.children, s'.expr c = s.expr c := fun c hmem => h.expr_eq (hc c hmem)
  have hnullable : ∀ c ∈ e.children, s'.nullable c = s.nullable c :=
    fun c hmem => h.nullable_eq (hc c hmem)
  cases e with
  | emptySet | emptyString | literal set => exact he
  | concat left right =>
    simp only [children, List.forall_mem_cons] at hexpr
    exact ⟨he.1.mono hexpr.1, he.2.mono hexpr.2.1⟩
  | union args =>
    obtain ⟨hsimplified, hkind, hepsilon⟩ := he
    refine ⟨hsimplified.mono hexpr, ?_, ?_⟩
    · intro t ht
      rw [hexpr t ht]
      exact hkind t ht
    · intro t ht heps u hu hne
      rw [hexpr t ht] at heps
      rw [hnullable u hu]
      exact hepsilon t ht heps u hu hne
  | inter args =>
    obtain ⟨hsimplified, hkind, hepsilon⟩ := he
    refine ⟨hsimplified.mono hexpr, ?_, ?_⟩
    · intro t ht
      rw [hexpr t ht]
      exact hkind t ht
    · intro t ht
      rw [hexpr t ht]
      exact hepsilon t ht
  | negation arg =>
    simp only [children, List.forall_mem_singleton] at hexpr
    intro t
    rw [hexpr]
    exact he t
  | star arg =>
    simp only [children, List.forall_mem_singleton] at hexpr
    exact Store.IsBase.mono he hexpr
  | repeated arg min max =>
    simp only [children, List.forall_mem_singleton] at hexpr hnullable
    obtain ⟨hbase, hle, hpos, hne, hnull⟩ := he
    refine ⟨hbase.mono hexpr, hle, hpos, hne, ?_⟩
    rw [hnullable]
    exact hnull

namespace Store

variable {s s' : Store} {t : TermId}

structure Keeps (s : Store) (r : TermId × Store) : Prop where
  grows : s.Grows r
  normal : r.2.Normal

theorem Keeps.of_lt (hs : s.Normal) (ht : t < s.size) : s.Keeps (t, s) := ⟨.of_lt ht, hs⟩

theorem Keeps.mono {r : TermId × Store} (h : s'.Keeps r) (hs : s.Extends s') : s.Keeps r :=
  ⟨h.grows.mono hs, h.normal⟩

section Basic

theorem normal_initial : initial.Normal := by
  intro t
  match t with
  | 0 | 1 | _ + 3 => exact True.intro
  | 2 =>
    rw [expr_full]
    intro t
    rw [expr_empty]
    exact Expr.noConfusion

theorem isProper_of_ne (ht : t < s.size) (hempty : t ≠ empty) (hepsilon : t ≠ epsilon) :
    s.IsProper t := by
  rw [IsProper, ← s.expr_empty, ← s.expr_epsilon]
  rw [Ne, Ne, expr_inj ht s.empty_lt_size, expr_inj ht s.epsilon_lt_size]
  exact ⟨hempty, hepsilon⟩

end Basic

section Make

variable {e : Expr}

theorem normal_push (hs : s.Normal) (hc : ∀ c ∈ e.children, c < s.size)
    (hnew : s.exprs.find? e = none) (he : e.Normal s) : (s.push e hc hnew).Normal := by
  intro t
  have hext := extends_push hc hnew
  have hget : (s.push e hc hnew).exprs.get? t = if t = s.exprs.size then some e else s.exprs.get? t :=
    Numbering.get?_push s.exprs e hnew t
  rw [expr, hget]
  split
  · exact he.mono hext hc
  · exact (hs t).mono hext fun c => lt_size_of_mem_children

theorem keeps_make (hs : s.Normal) (hc : ∀ c ∈ e.children, c < s.size) (he : e.Normal s) :
    s.Keeps (s.make e) := by
  refine ⟨grows_make hc, ?_⟩
  unfold make
  rw [dif_pos hc]
  split
  · exact hs
  next hnew => exact normal_push hs hc hnew he

end Make

end Store

end Residual
