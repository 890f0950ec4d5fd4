import Std.Data.TreeSet

/-!
This module contains the strictly increasing form of a list, in which two lists agree as soon as
they have the same elements, and binary search in an increasing array.
-/

namespace Residual

open Std

variable {α : Type} [Ord α]

abbrev Increasing (l : List α) : Prop := l.Pairwise fun x y => compare x y = .lt

def increasing (l : List α) : List α := (TreeSet.ofList l).toList

section Lemmas

variable [TransOrd α]

theorem increasing_increasing (l : List α) : Increasing (increasing l) :=
  TreeSet.ordered_toList

variable [LawfulEqOrd α]

theorem mem_increasing [DecidableEq α] {l : List α} {x : α} : x ∈ increasing l ↔ x ∈ l := by
  rw [increasing, TreeSet.mem_toList, TreeSet.mem_ofList, List.contains_iff_mem]

theorem Increasing.ext {l m : List α} (hl : Increasing l) (hm : Increasing m)
    (h : ∀ x, x ∈ l ↔ x ∈ m) : l = m := by
  induction l generalizing m with
  | nil =>
    cases m with
    | nil => rfl
    | cons y m => simpa using h y
  | cons x l ih =>
    cases m with
    | nil => simpa using h x
    | cons y m =>
      obtain ⟨hxl, hl'⟩ := List.pairwise_cons.1 hl
      obtain ⟨hym, hm'⟩ := List.pairwise_cons.1 hm
      have hxy : x = y := by
        rcases List.mem_cons.1 ((h x).1 List.mem_cons_self) with hx | hx
        · exact hx
        rcases List.mem_cons.1 ((h y).2 List.mem_cons_self) with hy | hy
        · exact hy.symm
        exact absurd (hxl y hy) (OrientedCmp.not_lt_of_lt (hym x hx))
      subst hxy
      have hirrefl : ∀ z, compare x z = .lt → z ≠ x := by
        rintro z hz rfl
        simp at hz
      rw [ih hl' hm']
      intro z
      have hz := h z
      rw [List.mem_cons, List.mem_cons] at hz
      constructor
      · exact fun hzl => (hz.1 (Or.inr hzl)).resolve_left (hirrefl z (hxl z hzl))
      · exact fun hzm => (hz.2 (Or.inr hzm)).resolve_left (hirrefl z (hym z hzm))

end Lemmas

def searchBetween [LawfulEqOrd α] (a : Array α) (x : α) (lo hi : Nat) (h : hi ≤ a.size) :
    Option Nat :=
  if hlt : lo < hi then
    let mid := (lo + hi) / 2
    match compare a[mid] x with
    | .lt => searchBetween a x (mid + 1) hi h
    | .eq => some mid
    | .gt => searchBetween a x lo mid (by omega)
  else
    none
termination_by hi - lo

def search? [LawfulEqOrd α] (a : Array α) (x : α) : Option Nat :=
  searchBetween a x 0 a.size (Nat.le_refl _)

section Search

variable [TransOrd α] [LawfulEqOrd α]

theorem searchBetween_eq_some_iff {a : Array α} (ha : Increasing a.toList) {x : α} {lo hi i : Nat}
    (h : hi ≤ a.size) :
    searchBetween a x lo hi h = some i ↔ lo ≤ i ∧ i < hi ∧ a[i]? = some x := by
  have hlt : ∀ {j k : Nat} (hj : j < a.size) (hk : k < a.size), j < k →
      compare a[j] a[k] = .lt := by
    intro j k hj hk hjk
    have := List.pairwise_iff_getElem.1 ha j k hj hk hjk
    simpa using this
  have hget : ∀ {j : Nat}, a[j]? = some x ↔ ∃ hj : j < a.size, a[j] = x :=
    Array.getElem?_eq_some_iff
  fun_induction searchBetween a x lo hi h with
  | case1 lo hi h hlo mid hcmp ih =>
    -- no position up to the middle holds `x`
    refine ih.trans ⟨fun hi => ⟨by omega, hi.2⟩, fun ⟨_, hhi, hi⟩ => ⟨?_, hhi, hi⟩⟩
    obtain ⟨hia, rfl⟩ := hget.1 hi
    apply Nat.lt_of_not_le
    intro hle
    rcases Nat.eq_or_lt_of_le hle with rfl | hlt'
    · simp at hcmp
    · exact OrientedCmp.not_lt_of_lt hcmp (hlt hia (by omega) hlt')
  | case2 lo hi h hlo mid hcmp =>
    have hmid : a[mid] = x := by simpa using hcmp
    constructor
    · intro hi
      obtain rfl := Option.some.inj hi
      exact ⟨by omega, by omega, hget.2 ⟨by omega, hmid⟩⟩
    · rintro ⟨_, _, hi⟩
      obtain ⟨hia, hix⟩ := hget.1 hi
      rcases Nat.lt_trichotomy mid i with hlt' | rfl | hlt'
      · have := hlt (by omega) hia hlt'
        simp [hmid, hix] at this
      · rfl
      · have := hlt hia (by omega) hlt'
        simp [hmid, hix] at this
  | case3 lo hi h hlo mid hcmp ih =>
    -- no position from the middle on holds `x`
    refine ih.trans ⟨fun hi => ⟨hi.1, by omega, hi.2.2⟩, fun ⟨hlo, _, hi⟩ => ⟨hlo, ?_, hi⟩⟩
    obtain ⟨hia, rfl⟩ := hget.1 hi
    apply Nat.lt_of_not_le
    intro hle
    rcases Nat.eq_or_lt_of_le hle with rfl | hlt'
    · simp at hcmp
    · have := hlt (by omega) hia hlt'
      rw [hcmp] at this
      contradiction
  | case4 lo hi h hlo =>
    constructor
    · rintro ⟨⟩
    · omega

theorem search?_eq_some_iff {a : Array α} (ha : Increasing a.toList) {x : α} {i : Nat} :
    search? a x = some i ↔ a[i]? = some x := by
  rw [search?, searchBetween_eq_some_iff ha]
  constructor
  · exact fun h => h.2.2
  · intro h
    obtain ⟨hi, _⟩ := Array.getElem?_eq_some_iff.1 h
    exact ⟨Nat.zero_le _, hi, h⟩

theorem isSome_search?_iff {a : Array α} (ha : Increasing a.toList) {x : α} :
    (search? a x).isSome ↔ x ∈ a := by
  rw [Option.isSome_iff_exists, Array.mem_iff_getElem?]
  simp only [search?_eq_some_iff ha]

end Search

end Residual
