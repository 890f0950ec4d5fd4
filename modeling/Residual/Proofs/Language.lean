import Mathlib.Computability.MyhillNerode

/-!
This module contains the empty word and the first symbol of a word in products, powers and closures
of languages.
-/

namespace Residual

open Computability Language

variable {α : Type} {l m : Language α}

theorem nil_mem_mul_iff : [] ∈ l * m ↔ [] ∈ l ∧ [] ∈ m := by
  rw [mem_mul]
  constructor
  · rintro ⟨a, ha, b, hb, hab⟩
    obtain ⟨rfl, rfl⟩ := List.append_eq_nil_iff.1 hab
    exact ⟨ha, hb⟩
  · rintro ⟨hl, hm⟩
    exact ⟨[], hl, [], hm, rfl⟩

theorem nil_mem_pow_iff {k : Nat} : [] ∈ l ^ k ↔ k = 0 ∨ [] ∈ l := by
  induction k with
  | zero => simp
  | succ k ih =>
    rw [pow_succ, nil_mem_mul_iff, ih]
    simp only [Nat.add_one_ne_zero, false_or]
    tauto

theorem mem_pow_of_nil_mem (h : [] ∈ l) {j k : Nat} (hjk : j ≤ k) {w : List α} (hw : w ∈ l ^ j) :
    w ∈ l ^ k := by
  obtain ⟨d, rfl⟩ := Nat.exists_eq_add_of_le hjk
  rw [pow_add]
  have hnil : [] ∈ l ^ d := nil_mem_pow_iff.2 (Or.inr h)
  simpa using append_mem_mul hw hnil

theorem cons_mem_mul_iff {c : α} {w : List α} :
    c :: w ∈ l * m ↔ w ∈ l.leftQuotient [c] * m ∨ [] ∈ l ∧ c :: w ∈ m := by
  simp only [mem_mul]
  constructor
  · rintro ⟨a, ha, b, hb, hab⟩
    cases a with
    | nil =>
      right
      exact ⟨ha, hab ▸ hb⟩
    | cons d a =>
      left
      obtain ⟨rfl, rfl⟩ := List.cons_eq_cons.1 hab
      exact ⟨a, ha, b, hb, rfl⟩
  · rintro (⟨a, ha, b, hb, rfl⟩ | ⟨hl, hm⟩)
    · exact ⟨c :: a, ha, b, hb, rfl⟩
    · exact ⟨[], hl, c :: w, hm, rfl⟩

theorem cons_mem_pow_succ_iff {c : α} {w : List α} {k : Nat} :
    c :: w ∈ l ^ (k + 1) ↔ w ∈ l.leftQuotient [c] * l ^ k := by
  induction k with
  | zero => simp
  | succ k ih =>
    rw [pow_succ', cons_mem_mul_iff]
    constructor
    · rintro (h | ⟨hnil, h⟩)
      · exact h
      · -- the first factor is empty, so the others come with one factor to spare
        obtain ⟨a, ha, b, hb, rfl⟩ := mem_mul.1 (ih.1 h)
        exact append_mem_mul ha (mem_pow_of_nil_mem hnil (Nat.le_succ k) hb)
    · exact Or.inl

def powers (l : Language α) (min max : Nat) : Language α :=
  {w | ∃ k, min ≤ k ∧ k ≤ max ∧ w ∈ l ^ k}

theorem mem_powers_iff {min max : Nat} {w : List α} :
    w ∈ powers l min max ↔ ∃ k, min ≤ k ∧ k ≤ max ∧ w ∈ l ^ k :=
  Iff.rfl

theorem powers_self (k : Nat) : powers l k k = l ^ k := by
  apply ext
  intro w
  rw [mem_powers_iff]
  constructor
  · rintro ⟨j, hkj, hjk, hj⟩
    rw [Nat.le_antisymm hkj hjk]
    exact hj
  · intro hk
    exact ⟨k, Nat.le_refl k, Nat.le_refl k, hk⟩

theorem powers_of_nil_mem (h : [] ∈ l) {min max : Nat} (hle : min ≤ max) :
    powers l min max = l ^ max := by
  apply ext
  intro w
  rw [mem_powers_iff]
  constructor
  · rintro ⟨k, _, hk, hw⟩
    exact mem_pow_of_nil_mem h hk hw
  · intro hw
    exact ⟨max, hle, Nat.le_refl max, hw⟩

theorem cons_mem_powers_iff {c : α} {w : List α} {min max : Nat} (hmax : 0 < max) :
    c :: w ∈ powers l min max ↔ w ∈ l.leftQuotient [c] * powers l (min - 1) (max - 1) := by
  constructor
  · rintro ⟨k, hmin, hkmax, hk⟩
    cases k with
    | zero => simp at hk
    | succ k =>
      obtain ⟨a, ha, b, hb, rfl⟩ := mem_mul.1 (cons_mem_pow_succ_iff.1 hk)
      apply append_mem_mul ha
      exact ⟨k, by omega, by omega, hb⟩
  · intro h
    obtain ⟨a, ha, b, ⟨k, hmin, hkmax, hk⟩, rfl⟩ := mem_mul.1 h
    refine ⟨k + 1, by omega, by omega, ?_⟩
    exact cons_mem_pow_succ_iff.2 (append_mem_mul ha hk)

theorem kstar_pow_succ (k : Nat) : l∗ ^ (k + 1) = l∗ := by
  induction k with
  | zero => rw [pow_one]
  | succ k ih => rw [pow_succ, ih, kstar_mul_kstar]

theorem mem_kstar_iff_exists_pow {w : List α} : w ∈ l∗ ↔ ∃ k : Nat, w ∈ l ^ k := by
  rw [kstar_eq_iSup_pow, mem_iSup]

theorem cons_mem_kstar_iff {c : α} {w : List α} :
    c :: w ∈ l∗ ↔ w ∈ l.leftQuotient [c] * l∗ := by
  rw [mem_kstar_iff_exists_pow]
  constructor
  · rintro ⟨k, h⟩
    cases k with
    | zero => simp at h
    | succ k =>
      obtain ⟨a, ha, b, hb, rfl⟩ := mem_mul.1 (cons_mem_pow_succ_iff.1 h)
      exact append_mem_mul ha (mem_kstar_iff_exists_pow.2 ⟨k, hb⟩)
  · intro h
    obtain ⟨a, ha, b, hb, rfl⟩ := mem_mul.1 h
    obtain ⟨k, hk⟩ := mem_kstar_iff_exists_pow.1 hb
    exact ⟨k + 1, cons_mem_pow_succ_iff.2 (append_mem_mul ha hk)⟩

end Residual
