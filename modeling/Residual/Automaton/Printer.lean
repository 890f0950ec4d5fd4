import Residual.Automaton.Basic

/-!
This module contains the written form of automata, which lists every transition.
-/

namespace Residual

namespace Automaton

def transitionsText (a : Automaton) (s : StateId) : String :=
  String.join <| (a.edges s).map fun (c, d) =>
    "  δ(" ++ s.text ++ ", " ++ Text.escape c ++ ") = " ++ d.text ++ "\n"

def text (a : Automaton) : String :=
  Nat.repr a.numStates ++ " states\n" ++
    "alphabet: " ++ a.alphabet.text ++ "\n" ++
    "initial state: " ++ StateId.text initial ++ "\n" ++
    "final state" ++ (if a.numFinals = 1 then "" else "s") ++ ":" ++
    String.join (a.finals.map fun s => " " ++ s.text) ++ "\n" ++
    "transitions:\n" ++
    String.join ((List.range a.numStates).map a.transitionsText)

end Automaton

end Residual
