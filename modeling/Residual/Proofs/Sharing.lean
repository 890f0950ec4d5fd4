import Residual.Proofs.Session

/-!
This module contains the correctness of sharing. The terms, the ids that they carry, the index that
finds them again and the table of nullable terms stay in step during all sessions.
-/

namespace Residual

namespace Store

variable {s s' : Store} {t : TermId} {e : Expr}

section Terms

theorem term?_eq (ht : t < s.size) : s.term? t = some ⟨s.expr t, t⟩ := by
  have hid : t < s.ids.size := by
    rw [s.size_ids]
    exact ht
  rw [term?, get?_expr ht, Array.getElem?_eq_getElem hid, s.ids_eq t hid]

theorem find?_expr (ht : t < s.size) : s.exprs.find? (s.expr t) = some t :=
  Numbering.find?_eq_some_iff.2 (get?_expr ht)

theorem nullables_getElem? (ht : t < s.size) : s.nullables[t]? = some (s.nullable t) := by
  have hlt : t < s.nullables.size := by
    rw [s.size_nullables]
    exact ht
  rw [nullable, Array.getD_eq_getD_getElem?, Array.getElem?_eq_getElem hlt, Option.getD_some]

end Terms

/-- Each term is stored once, and everything that is kept about it is kept under its id. -/
structure Shares (s : Store) : Prop where
  expr_inj : ∀ t < s.size, ∀ u < s.size, s.expr t = s.expr u ↔ t = u
  child_lt : ∀ t < s.size, ∀ c ∈ (s.expr t).children, c < t
  carries_id : ∀ t < s.size, s.term? t = some ⟨s.expr t, t⟩
  make_again : ∀ t < s.size, s.make (s.expr t) = (t, s)
  size_nullables : s.nullables.size = s.size
  nullables : ∀ t < s.size, ∃ b, s.nullables[t]? = some b ∧ (b = true ↔ [] ∈ s.language t)

structure Appends (s s' : Store) : Prop where
  size_le : s.size ≤ s'.size
  terms : ∀ t < s.size, s'.term? t = s.term? t
  nullables : ∀ t < s.size, s'.nullables[t]? = s.nullables[t]?

theorem WellFormed.shares (hs : s.WellFormed) : s.Shares where
  expr_inj _ ht _ hu := Store.expr_inj ht hu
  child_lt _ _ _ hc := Store.child_lt rfl hc
  carries_id _ ht := term?_eq ht
  make_again _ ht := make_of_find? (fun _ => lt_size_of_mem_children) (find?_expr ht)
  size_nullables := s.size_nullables
  nullables t ht := ⟨s.nullable t, nullables_getElem? ht, hs.nullable_iff ht⟩

theorem Extends.appends (h : s.Extends s') : s.Appends s' where
  size_le := by
    apply Nat.le_of_not_lt
    intro hlt
    exact Nat.lt_irrefl _ (h.lt_size hlt)
  terms t ht := by rw [term?_eq ht, term?_eq (h.lt_size ht), h.expr_eq ht]
  nullables t ht := by
    rw [nullables_getElem? ht, nullables_getElem? (h.lt_size ht), h.nullable_eq ht]

end Store

def Session.repeating (w : Workspace) (command : Command) (h : command.args = []) : Session w where
  state i := (fun w => w.perform command)^[i] w
  state_zero := rfl
  step := by
    intro i
    refine ⟨command, ?_, ?_⟩
    · rw [h]
      exact List.forall_mem_nil _
    · exact Function.iterate_succ_apply' (fun w => w.perform command) i w

namespace Workspace

/--
At every point of every session the terms are shared, and whatever comes later only appends to what
is stored.
-/
theorem Reachable.sharing_exact {w : Workspace} (hw : w.Reachable) (session : Session w) (i : Nat) :
    (session.state i).store.Shares ∧
      ∀ j ≥ i, (session.state i).store.Appends (session.state j).store := by
  refine ⟨(session.sound_state hw.sound i).wellFormed.shares, ?_⟩
  intro j hij
  exact (session.extends_state hw.sound hij).appends

theorem sharing_exact_symbol :
    let session := Session.repeating (initial 5) (.build (.symbol 'a')) rfl
    (initial 5).Reachable ∧
      ∀ j ≥ 1, (session.state j).store.term? 3 = some ⟨.literal (.singleton 'a'), 3⟩ := by
  intro session
  have hw : (initial 5).Reachable := .initial 5
  have hsize : 3 < (session.state 1).store.size := by decide +kernel
  have hterm : (session.state 1).store.term? 3 = some ⟨.literal (.singleton 'a'), 3⟩ := by
    decide +kernel
  refine ⟨hw, ?_⟩
  intro j hj
  rw [← hterm]
  exact ((hw.sharing_exact session 1).2 j hj).terms 3 hsize

end Workspace

end Residual
