import Mathlib.Data.List.Basic
import Residual.Text.Escape

/-!
This module contains the unique reading of written symbols and numbers: what is written first can be
told from the text that begins with it.
-/

namespace Residual.Text

theorem append_cons_cancel {α : Type} {l m r r' : List α} {x y : α} (hl : y ∉ l) (hm : x ∉ m)
    (h : l ++ x :: r = m ++ y :: r') : l = m ∧ x = y ∧ r = r' := by
  induction l generalizing m with
  | nil =>
    cases m with
    | nil =>
      obtain ⟨hxy, hr⟩ := List.cons.inj h
      exact ⟨rfl, hxy, hr⟩
    | cons z m =>
      obtain rfl := (List.cons.inj h).1
      exact absurd List.mem_cons_self hm
  | cons z l ih =>
    cases m with
    | nil =>
      obtain rfl := (List.cons.inj h).1
      exact absurd List.mem_cons_self hl
    | cons z' m =>
      obtain ⟨hz, htail⟩ := List.cons.inj h
      obtain ⟨hlm, hxy⟩ :=
        ih (List.not_mem_of_not_mem_cons hl) (List.not_mem_of_not_mem_cons hm) htail
      rw [hz, hlm]
      exact ⟨rfl, hxy⟩

section Digits

variable {b m n : Nat}

def hexDigits : List Char := (List.range 16).map Nat.digitChar

theorem digitChar_mem (h : n < 16) : Nat.digitChar n ∈ hexDigits :=
  List.mem_map_of_mem (List.mem_range.2 h)

theorem digitChar_inj (hm : m < 16) (hn : n < 16) (h : Nat.digitChar m = Nat.digitChar n) :
    m = n := by
  have hinj : ∀ i ∈ List.range 16, ∀ j ∈ List.range 16,
      Nat.digitChar i = Nat.digitChar j → i = j := by decide
  exact hinj m (List.mem_range.2 hm) n (List.mem_range.2 hn) h

theorem toDigits_subset (hb : 1 < b) (hle : b ≤ 16) : ∀ x ∈ Nat.toDigits b n, x ∈ hexDigits := by
  induction n using Nat.strongRecOn with
  | ind n ih =>
    rw [Nat.toDigits_eq_if hb]
    split
    next h =>
      intro x hx
      rw [List.mem_singleton.1 hx]
      exact digitChar_mem (by omega)
    next h =>
      intro x hx
      rw [List.mem_append, List.mem_singleton] at hx
      rcases hx with hx | rfl
      · exact ih (n / b) (Nat.div_lt_self (by omega) hb) x hx
      · have := Nat.mod_lt n (Nat.zero_lt_of_lt hb)
        exact digitChar_mem (by omega)

theorem toDigits_inj (hb : 1 < b) (hle : b ≤ 16) (h : Nat.toDigits b m = Nat.toDigits b n) :
    m = n := by
  induction m using Nat.strongRecOn generalizing n with
  | ind m ih =>
    have hpos : 0 < b := Nat.zero_lt_of_lt hb
    rw [Nat.toDigits_eq_if hb, Nat.toDigits_eq_if (n := n) hb] at h
    split at h
    next hm =>
      split at h
      next hn => exact digitChar_inj (by omega) (by omega) (List.singleton_inj.1 h)
      next hn =>
        have := congrArg List.length h
        have := Nat.length_toDigits_pos (b := b) (n := n / b)
        simp only [List.length_append, List.length_singleton] at *
        omega
    next hm =>
      split at h
      next hn =>
        have := congrArg List.length h
        have := Nat.length_toDigits_pos (b := b) (n := m / b)
        simp only [List.length_append, List.length_singleton] at *
        omega
      next hn =>
        obtain ⟨hdigits, hlast⟩ := List.append_inj' h rfl
        have hmod := digitChar_inj (Nat.lt_of_lt_of_le (Nat.mod_lt m hpos) hle)
          (Nat.lt_of_lt_of_le (Nat.mod_lt n hpos) hle) (List.singleton_inj.1 hlast)
        have hdiv := ih (m / b) (Nat.div_lt_self (by omega) hb) hdigits
        rw [← Nat.div_add_mod m b, ← Nat.div_add_mod n b, hdiv, hmod]

end Digits

section Escape

variable {c d : Char} {l m r r' : List Char}

def shortEscapes : List (Char × Char) :=
  [('\x00', '0'), ('\x09', 't'), ('\x0a', 'n'), ('\x0d', 'r'), ('\x22', '\x22'), ('\x27', '\x27'),
  ('\x5c', '\x5c')]

inductive Escapes (c : Char) : List Char → Prop where
  | plain (h : c ≠ '\x5c') : Escapes c [c]
  | short {x : Char} (h : (c, x) ∈ shortEscapes) : Escapes c ['\x5c', x]
  | code : Escapes c ('\x5c' :: 'u' :: '\x7b' :: (Nat.toDigits 16 c.toNat ++ ['\x7d']))

theorem escapes_escape (c : Char) : Escapes c (escape c).toList := by
  unfold escape
  split
  next h =>
    subst h
    exact .short (by decide)
  split
  next h =>
    subst h
    exact .short (by decide)
  split
  next h =>
    subst h
    exact .short (by decide)
  split
  next h =>
    subst h
    exact .short (by decide)
  split
  next h =>
    rw [String.toList_append, String.toList_singleton]
    apply Escapes.short
    rcases h with rfl | rfl | rfl
    · decide
    · decide
    · decide
  next h =>
    split
    · simp only [codePoint, String.toList_append, String.toList_ofList, List.append_assoc]
      exact .code
    · rw [String.toList_singleton]
      exact .plain fun hc => h (Or.inr (Or.inr hc))

theorem not_mem_shortEscapes (c : Char) : (c, 'u') ∉ shortEscapes := by
  intro h
  have hne : ∀ p ∈ shortEscapes, p.2 ≠ 'u' := by decide
  exact hne _ h rfl

theorem Escapes.cancel (hc : Escapes c l) (hd : Escapes d m) (h : l ++ r = m ++ r') :
    c = d ∧ r = r' := by
  cases hc with
  | plain hne =>
    cases hd with
    | plain => exact List.cons.inj h
    | short | code => exact absurd (List.cons.inj h).1 hne
  | @short x hx =>
    cases hd with
    | plain hne => exact absurd (List.cons.inj h).1.symm hne
    | @short y hy =>
      have hinj : ∀ p ∈ shortEscapes, ∀ q ∈ shortEscapes, p.2 = q.2 → p.1 = q.1 := by decide
      obtain ⟨hxy, hr⟩ := List.cons.inj (List.cons.inj h).2
      exact ⟨hinj _ hx _ hy hxy, hr⟩
    | code =>
      obtain rfl := (List.cons.inj (List.cons.inj h).2).1
      exact absurd hx (not_mem_shortEscapes c)
  | code =>
    cases hd with
    | plain hne => exact absurd (List.cons.inj h).1.symm hne
    | @short y hy =>
      obtain rfl := (List.cons.inj (List.cons.inj h).2).1
      exact absurd hy (not_mem_shortEscapes d)
    | code =>
      simp only [List.cons_append, List.append_assoc, List.cons.injEq, true_and] at h
      have hmark : ∀ n, '\x7d' ∉ Nat.toDigits 16 n := by
        intro n hmem
        exact absurd (toDigits_subset (by decide) (by decide) _ hmem) (by decide)
      obtain ⟨hdigits, _, hr⟩ := append_cons_cancel (hmark _) (hmark _) h
      exact ⟨Char.toNat_inj.1 (toDigits_inj (by decide) (by decide) hdigits), hr⟩

theorem escape_cancel (h : (escape c).toList ++ r = (escape d).toList ++ r') : c = d ∧ r = r' :=
  (escapes_escape c).cancel (escapes_escape d) h

theorem escape_ne_nil (c : Char) : (escape c).toList ≠ [] := by
  have h := escapes_escape c
  generalize (escape c).toList = l at h
  cases h with
  | plain | short | code => exact List.cons_ne_nil _ _

def written (l : List Char) : List Char := l.flatMap fun c => (escape c).toList

theorem written_cons (c : Char) (l : List Char) :
    written (c :: l) = (escape c).toList ++ written l :=
  List.flatMap_cons

theorem written_append (l m : List Char) : written (l ++ m) = written l ++ written m :=
  List.flatMap_append

theorem written_inj (h : written l = written m) : l = m := by
  induction l generalizing m with
  | nil =>
    cases m with
    | nil => rfl
    | cons d m =>
      rw [written_cons] at h
      exact absurd (List.append_eq_nil_iff.1 h.symm).1 (escape_ne_nil d)
  | cons c l ih =>
    cases m with
    | nil =>
      rw [written_cons] at h
      exact absurd (List.append_eq_nil_iff.1 h).1 (escape_ne_nil c)
    | cons d m =>
      rw [written_cons, written_cons] at h
      obtain ⟨hcd, hlm⟩ := escape_cancel h
      rw [hcd, ih hlm]

theorem written_cancel {x : Char} (hl : x ∉ l) (hm : x ∉ m)
    (h : written (l ++ [x]) ++ r = written (m ++ [x]) ++ r') : l = m ∧ r = r' := by
  induction l generalizing m with
  | nil =>
    cases m with
    | nil => exact ⟨rfl, List.append_cancel_left h⟩
    | cons d m =>
      rw [List.nil_append, List.cons_append, written_cons, written_cons, List.append_assoc,
        List.append_assoc] at h
      obtain rfl := (escape_cancel h).1
      exact absurd List.mem_cons_self hm
  | cons c l ih =>
    rw [List.cons_append, written_cons, List.append_assoc] at h
    cases m with
    | nil =>
      rw [List.nil_append, written_cons, List.append_assoc] at h
      obtain rfl := (escape_cancel h).1
      exact absurd List.mem_cons_self hl
    | cons d m =>
      rw [List.cons_append, written_cons, List.append_assoc] at h
      obtain ⟨hcd, hrest⟩ := escape_cancel h
      obtain ⟨hlm, hr⟩ :=
        ih (List.not_mem_of_not_mem_cons hl) (List.not_mem_of_not_mem_cons hm) hrest
      rw [hcd, hlm]
      exact ⟨rfl, hr⟩

theorem exists_head_escape (c : Char) :
    ∃ x l, (escape c).toList = x :: l ∧ (x = c ∨ x = '\x5c') := by
  have h := escapes_escape c
  generalize (escape c).toList = l at h
  cases h with
  | plain => exact ⟨_, _, rfl, Or.inl rfl⟩
  | short | code => exact ⟨_, _, rfl, Or.inr rfl⟩

end Escape

end Residual.Text
