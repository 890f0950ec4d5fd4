import Residual.Text.GraphemeExtend
import Residual.Text.Unprintable

/-!
This module contains the written form of a single symbol. Symbols that would be invisible, combine
with their neighbours or be mistaken for punctuation of the surrounding text are escaped.
-/

namespace Residual.Text

def inRanges (code : Nat) : List (Nat × Nat) → Bool
  | [] => false
  | (first, last) :: rest =>
    -- the ranges are in increasing order
    if code < first then false else if code ≤ last then true else inRanges code rest

def needsCode (c : Char) : Bool :=
  inRanges c.toNat unprintable || inRanges c.toNat graphemeExtend

def codePoint (c : Char) : String :=
  "\\u\x7b" ++ String.ofList (Nat.toDigits 16 c.toNat) ++ "\x7d"

def escape (c : Char) : String :=
  if c = '\x00' then "\\0"
  else if c = '\x09' then "\\t"
  else if c = '\x0a' then "\\n"
  else if c = '\x0d' then "\\r"
  else if c = '\x22' ∨ c = '\x27' ∨ c = '\x5c' then "\\" ++ String.singleton c
  else if needsCode c then codePoint c
  else String.singleton c

def quoted (c : Char) : String :=
  "\x27" ++ (if c = '\x22' then String.singleton c else escape c) ++ "\x27"

end Residual.Text
