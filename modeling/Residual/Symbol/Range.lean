import Residual.Text.Escape

/-!
This module contains ranges of consecutive symbols and the compact form of a list of symbols.
-/

namespace Residual

structure SymbolRange where
  first : Char
  last : Char
deriving DecidableEq, Repr

namespace SymbolRange

def singleton (c : Char) : SymbolRange := ⟨c, c⟩

def contains (r : SymbolRange) (c : Char) : Bool := r.first ≤ c && c ≤ r.last

def isSingleton (r : SymbolRange) : Bool := r.first = r.last

def text (r : SymbolRange) : String :=
  if r.isSingleton then Text.escape r.first
  else Text.escape r.first ++ "-" ++ Text.escape r.last

def consSymbol (c : Char) : List SymbolRange → List SymbolRange
  | [] => [singleton c]
  | r :: rs => if c.toNat + 1 = r.first.toNat then ⟨c, r.last⟩ :: rs else singleton c :: r :: rs

/--
Splits a list of symbols, in the order given, into maximal ranges of consecutive code points.
-/
def compact (symbols : List Char) : List SymbolRange := symbols.foldr consSymbol []

def bracketText (r : SymbolRange) : String :=
  if r.first.toNat + 1 = r.last.toNat then Text.escape r.first ++ Text.escape r.last else r.text

end SymbolRange

end Residual
