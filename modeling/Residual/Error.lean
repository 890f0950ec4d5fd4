import Residual.Text.Escape

/-!
This module contains the reasons for which an operation can fail, and their wording.
-/

namespace Residual

inductive Error where
  | invalidBounds (min max : Nat)
  | tooManyStates (limit : Nat)
  | symbolOutside (symbol : Char)
  | alphabetMismatch
  | missingTransition (state : Nat)
deriving DecidableEq, Repr

namespace Error

def message : Error → String
  | invalidBounds min max =>
    "invalid repetition bounds \x7b" ++ toString min ++ "," ++ toString max ++ "\x7d"
  | tooManyStates limit => "automaton construction exceeded " ++ toString limit ++ " states"
  | symbolOutside symbol => "symbol " ++ Text.quoted symbol ++ " is not in the alphabet"
  | alphabetMismatch => "automata are defined over different alphabets"
  | missingTransition state =>
    "state " ++ toString state ++ " does not have a transition for every symbol"

end Error

end Residual
