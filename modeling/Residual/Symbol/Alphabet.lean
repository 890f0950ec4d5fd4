import Residual.Error
import Residual.Symbol.Set

/-!
This module contains alphabets. An alphabet numbers its symbols in increasing order; transition
tables, counts and listings of words all follow this numbering.
-/

namespace Residual

structure Alphabet where
  set : SymbolSet
deriving DecidableEq

namespace Alphabet

def ofList (l : List Char) : Alphabet := ⟨.ofList l⟩

def empty : Alphabet := ⟨.empty⟩

instance : Membership Char Alphabet := ⟨fun a c => c ∈ a.set⟩

def size (a : Alphabet) : Nat := a.set.size

def isEmpty (a : Alphabet) : Bool := a.set.isEmpty

def symbols (a : Alphabet) : List Char := a.set.toList

def symbol? (a : Alphabet) (i : Nat) : Option Char := a.set.symbols[i]?

def indexOf? (a : Alphabet) (c : Char) : Option Nat := a.set.indexOf? c

def index (a : Alphabet) (c : Char) : Except Error Nat :=
  match a.indexOf? c with
  | some i => .ok i
  | none => .error (.symbolOutside c)

def contains (a : Alphabet) (c : Char) : Bool := (a.indexOf? c).isSome

def checkCovers (a : Alphabet) (s : SymbolSet) : Except Error Unit :=
  match s.toList.find? fun c => !a.contains c with
  | some c => .error (.symbolOutside c)
  | none => .ok ()

def encode (a : Alphabet) (w : List Char) : Except Error (List Nat) := w.mapM a.index

def union (a b : Alphabet) : Alphabet := ⟨a.set.union b.set⟩

def text (a : Alphabet) : String :=
  "\x7b" ++ ", ".intercalate (a.symbols.map Text.escape) ++ "\x7d"

section Lemmas

theorem indexOf?_eq_some_iff {a : Alphabet} {c : Char} {i : Nat} :
    a.indexOf? c = some i ↔ a.symbol? i = some c :=
  SymbolSet.indexOf?_eq_some_iff

@[simp]
theorem contains_iff {a : Alphabet} {c : Char} : a.contains c ↔ c ∈ a :=
  SymbolSet.contains_iff

@[simp]
theorem mem_symbols {a : Alphabet} {c : Char} : c ∈ a.symbols ↔ c ∈ a :=
  SymbolSet.mem_toList

end Lemmas

end Alphabet

end Residual
