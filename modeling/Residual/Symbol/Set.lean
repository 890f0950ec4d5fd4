import Residual.Increasing
import Residual.Symbol.Range

/-!
This module contains finite sets of symbols. A set keeps its symbols in increasing order, so sets
with the same symbols are the same value.
-/

namespace Residual

structure SymbolSet where
  symbols : Array Char
  increasing : Increasing symbols.toList
deriving DecidableEq

namespace SymbolSet

instance : Membership Char SymbolSet := ⟨fun s c => c ∈ s.symbols⟩

def ofList (l : List Char) : SymbolSet where
  symbols := (Residual.increasing l).toArray
  increasing := increasing_increasing l

def empty : SymbolSet := ⟨#[], List.Pairwise.nil⟩

def singleton (c : Char) : SymbolSet := ⟨#[c], List.pairwise_singleton ..⟩

def range (first last : Char) : SymbolSet :=
  ofList <| (List.range' first.toNat (last.toNat + 1 - first.toNat)).filterMap fun n =>
    if n.isValidChar then some (Char.ofNat n) else none

def toList (s : SymbolSet) : List Char := s.symbols.toList

def size (s : SymbolSet) : Nat := s.symbols.size

def isEmpty (s : SymbolSet) : Bool := s.symbols.isEmpty

def isSingleton (s : SymbolSet) : Bool := s.size = 1

def indexOf? (s : SymbolSet) (c : Char) : Option Nat := search? s.symbols c

def contains (s : SymbolSet) (c : Char) : Bool := (s.indexOf? c).isSome

def union (s t : SymbolSet) : SymbolSet := ofList (s.toList ++ t.toList)

def filter (s : SymbolSet) (p : Char → Bool) : SymbolSet where
  symbols := s.symbols.filter p
  increasing := by simpa using s.increasing.filter p

def inter (s t : SymbolSet) : SymbolSet := s.filter t.contains

def difference (s t : SymbolSet) : SymbolSet := s.filter fun c => !t.contains c

instance : Ord SymbolSet := ⟨fun s t => compare s.symbols t.symbols⟩

def ranges (s : SymbolSet) : List SymbolRange := SymbolRange.compact s.toList

def text (s : SymbolSet) : String :=
  match s.toList with
  | [c] => Text.escape c
  | _ => s.ranges.foldl (fun acc r => acc ++ r.bracketText) "[" ++ "]"

section Lemmas

@[simp]
theorem mem_toList {s : SymbolSet} {c : Char} : c ∈ s.toList ↔ c ∈ s := Array.mem_def.symm

@[ext]
theorem ext {s t : SymbolSet} (h : ∀ c, c ∈ s ↔ c ∈ t) : s = t := by
  have : s.toList = t.toList := s.increasing.ext t.increasing fun c =>
    mem_toList.trans ((h c).trans mem_toList.symm)
  cases s
  cases t
  simpa [toList] using this

theorem indexOf?_eq_some_iff {s : SymbolSet} {c : Char} {i : Nat} :
    s.indexOf? c = some i ↔ s.symbols[i]? = some c :=
  search?_eq_some_iff s.increasing

@[simp]
theorem contains_iff {s : SymbolSet} {c : Char} : s.contains c ↔ c ∈ s :=
  isSome_search?_iff s.increasing

@[simp]
theorem mem_ofList {l : List Char} {c : Char} : c ∈ ofList l ↔ c ∈ l := by
  rw [← mem_toList]
  exact mem_increasing

@[simp]
theorem not_mem_empty (c : Char) : c ∉ empty := Array.not_mem_empty c

@[simp]
theorem mem_singleton {c d : Char} : d ∈ singleton c ↔ d = c := by
  rw [← mem_toList]
  simp [singleton, toList]

@[simp]
theorem mem_union {s t : SymbolSet} {c : Char} : c ∈ s.union t ↔ c ∈ s ∨ c ∈ t := by
  simp [union]

theorem mem_filter {s : SymbolSet} {p : Char → Bool} {c : Char} :
    c ∈ s.filter p ↔ c ∈ s ∧ p c :=
  Array.mem_filter

@[simp]
theorem mem_inter {s t : SymbolSet} {c : Char} : c ∈ s.inter t ↔ c ∈ s ∧ c ∈ t := by
  simp [inter, mem_filter]

@[simp]
theorem mem_difference {s t : SymbolSet} {c : Char} : c ∈ s.difference t ↔ c ∈ s ∧ c ∉ t := by
  rw [difference, mem_filter, ← contains_iff (s := t), Bool.not_eq_true', Bool.not_eq_true]

end Lemmas

end SymbolSet

end Residual
