import Residual.Automaton.Reachability
import Residual.Symbol.Range

/-!
This module contains the picture of an automaton: a graph with one edge for all the symbols that
lead from one state to another.
-/

namespace Residual

structure ViewNode where
  state : StateId
  accepting : Bool
  initial : Bool
  term : Option TermId
deriving DecidableEq, Repr

structure ViewEdge where
  source : StateId
  target : StateId
  symbols : List SymbolRange
deriving DecidableEq, Repr

def ViewEdge.contains (e : ViewEdge) (c : Char) : Bool := e.symbols.any fun r => r.contains c

structure View where
  nodes : List ViewNode
  edges : List ViewEdge
deriving DecidableEq, Repr

namespace Automaton

def viewEdges (a : Automaton) (keep : StateId → Bool) (s : StateId) : List ViewEdge :=
  let edges := (a.edges s).filter fun e => keep e.2
  (increasing (edges.map Prod.snd)).map fun d =>
    ⟨s, d, SymbolRange.compact ((edges.filter fun e => e.2 = d).map Prod.fst)⟩

def viewOf (a : Automaton) (keep : StateId → Bool) : View :=
  let states := (List.range a.numStates).filter keep
  { nodes := states.map fun s =>
      ⟨s, a.accepting s, s = initial, (a.state? s).bind State.term⟩
    edges := states.flatMap (a.viewEdges keep) }

def fullView (a : Automaton) : View := a.viewOf fun _ => true

/--
The picture of the states that matter: those on the way of an accepted word, and the initial state
in any case.
-/
def liveView (a : Automaton) : View :=
  let live := a.liveStates
  let reachable := a.reachableStates
  a.viewOf fun s => s = initial || (live.getD s false && reachable.getD s false)

end Automaton

namespace View

def node? (v : View) (s : StateId) : Option ViewNode := v.nodes.find? fun n => n.state = s

def outEdges (v : View) (s : StateId) : List ViewEdge := v.edges.filter fun e => e.source = s

end View

namespace ViewNode

def text (n : ViewNode) : String :=
  n.state.text ++ (if n.initial then " (initial)" else "") ++
    (if n.accepting then " (accepting)" else "") ++ "\n"

end ViewNode

namespace ViewEdge

def text (e : ViewEdge) : String :=
  "  " ++ e.source.text ++ " -> " ++ e.target.text ++ " [" ++
    ", ".intercalate (e.symbols.map SymbolRange.text) ++ "]\n"

end ViewEdge

def View.text (v : View) : String :=
  String.join (v.nodes.map ViewNode.text ++ v.edges.map ViewEdge.text)

end Residual
