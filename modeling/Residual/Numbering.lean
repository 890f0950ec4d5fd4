import Std.Data.TreeMap

/-!
This module contains numberings: collections of distinct elements, each known by its position in the
order in which the elements were first mentioned. The same structure gives stored terms their ids,
automaton states their numbers and searches their visited set.
-/

namespace Residual

open Std

theorem eraseDups_snoc {α : Type} [DecidableEq α] (l : List α) (x : α) :
    (l ++ [x]).eraseDups = if x ∈ l then l.eraseDups else l.eraseDups ++ [x] := by
  rw [List.eraseDups_append, List.removeAll]
  split
  next h => simp [h]
  next h =>
    have hsingleton : [x].eraseDups = [x] := rfl
    simp [h, hsingleton]

/--
Distinct elements in order of first mention. `index` finds the position of an element and agrees
with `toArray`, so no element occurs twice.
-/
structure Numbering (α : Type) [Ord α] where
  toArray : Array α
  index : TreeMap α Nat
  index_eq_some_iff : ∀ (x : α) (i : Nat), index[x]? = some i ↔ toArray[i]? = some x

namespace Numbering

section Basic

variable {α : Type} [Ord α]

def size (n : Numbering α) : Nat := n.toArray.size

def find? (n : Numbering α) (x : α) : Option Nat := n.index[x]?

def get? (n : Numbering α) (i : Nat) : Option α := n.toArray[i]?

instance : Membership α (Numbering α) := ⟨fun n x => x ∈ n.toArray⟩

theorem find?_eq_some_iff {n : Numbering α} {x : α} {i : Nat} :
    n.find? x = some i ↔ n.get? i = some x :=
  n.index_eq_some_iff x i

theorem lt_size_of_get? {n : Numbering α} {i : Nat} {x : α} (h : n.get? i = some x) :
    i < n.size := by
  obtain ⟨hi, _⟩ := Array.getElem?_eq_some_iff.1 h
  exact hi

theorem get?_of_lt {n : Numbering α} {i : Nat} (h : i < n.size) : ∃ x, n.get? i = some x :=
  ⟨_, Array.getElem?_eq_getElem h⟩

theorem lt_size_of_find? {n : Numbering α} {i : Nat} {x : α} (h : n.find? x = some i) :
    i < n.size :=
  lt_size_of_get? (find?_eq_some_iff.1 h)

theorem mem_iff_exists_get? {n : Numbering α} {x : α} : x ∈ n ↔ ∃ i, n.get? i = some x :=
  Array.mem_iff_getElem?

theorem mem_of_get? {n : Numbering α} {i : Nat} {x : α} (h : n.get? i = some x) : x ∈ n :=
  mem_iff_exists_get?.2 ⟨i, h⟩

theorem get?_inj {n : Numbering α} {i j : Nat} {x : α} (hi : n.get? i = some x)
    (hj : n.get? j = some x) : i = j := by
  rw [← find?_eq_some_iff] at hi hj
  exact Option.some.inj (hi.symm.trans hj)

theorem find?_eq_none_iff {n : Numbering α} {x : α} : n.find? x = none ↔ x ∉ n := by
  rw [mem_iff_exists_get?, Option.eq_none_iff_forall_ne_some]
  simp [find?_eq_some_iff]

theorem nodup_toList (n : Numbering α) : n.toArray.toList.Nodup := by
  rw [List.Nodup, List.pairwise_iff_getElem]
  intro i j hi hj hij heq
  have hi' : n.get? i = some n.toArray.toList[i] := by simp [get?]
  have hj' : n.get? j = some n.toArray.toList[i] := by rw [heq]; simp [get?]
  exact absurd (get?_inj hi' hj') (Nat.ne_of_lt hij)

end Basic

section Empty

variable {α : Type} [Ord α] [TransOrd α]

def empty : Numbering α where
  toArray := #[]
  index := {}
  index_eq_some_iff := by simp

@[simp]
theorem size_empty : (empty : Numbering α).size = 0 := rfl

@[simp]
theorem get?_empty (i : Nat) : (empty : Numbering α).get? i = none := rfl

@[simp]
theorem not_mem_empty (x : α) : x ∉ (empty : Numbering α) := by
  simp [mem_iff_exists_get?]

end Empty

section Insert

variable {α : Type} [Ord α] [TransOrd α] [LawfulEqOrd α]

theorem index_push (n : Numbering α) (x : α) (h : n.find? x = none) (y : α) (i : Nat) :
    (n.index.insert x n.toArray.size)[y]? = some i ↔ (n.toArray.push x)[i]? = some y := by
  have hn := n.index_eq_some_iff
  rw [TreeMap.getElem?_insert, Array.getElem?_push]
  by_cases hxy : x = y
  · subst hxy
    have hx : ∀ j : Nat, n.toArray[j]? ≠ some x := by
      intro j hj
      rw [← hn] at hj
      simp [find?, hj] at h
    have := hx i
    simp only [compare_self, if_true, Option.some.injEq]
    grind
  · have : compare x y ≠ .eq := by simpa using hxy
    simp only [this, if_false, hn]
    grind

def push (n : Numbering α) (x : α) (h : n.find? x = none) : Numbering α :=
  let index := n.index.insert x n.toArray.size
  { toArray := n.toArray.push x, index, index_eq_some_iff := index_push n x h }

def number (n : Numbering α) (x : α) : Nat × Numbering α :=
  match h : n.find? x with
  | some i => (i, n)
  | none => (n.size, n.push x h)

@[simp]
theorem size_push (n : Numbering α) (x : α) (h) : (n.push x h).size = n.size + 1 := by
  simp [size, push]

theorem get?_push (n : Numbering α) (x : α) (h) (i : Nat) :
    (n.push x h).get? i = if i = n.size then some x else n.get? i := by
  unfold get? push size
  exact Array.getElem?_push

theorem get?_push_of_get? {n : Numbering α} {x y : α} {i : Nat} (h : n.find? x = none)
    (hi : n.get? i = some y) : (n.push x h).get? i = some y := by
  rw [get?_push, if_neg (Nat.ne_of_lt (lt_size_of_get? hi)), hi]

theorem mem_push {n : Numbering α} {x y : α} {h} : y ∈ n.push x h ↔ y ∈ n ∨ y = x :=
  Array.mem_push

end Insert

end Numbering

end Residual
