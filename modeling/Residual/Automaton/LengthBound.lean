import Residual.Automaton.Postorder

/-!
This module contains the length of the longest word that an automaton accepts. It is that of the
longest path of live states, which is worked out from the end of the path backwards.
-/

namespace Residual

inductive LengthBound where
  | empty
  | bounded (n : Nat)
  | unbounded
deriving DecidableEq, Repr

namespace LengthBound

def excludes : LengthBound → Nat → Bool
  | .empty, _ => true
  | .bounded m, n => m < n
  | .unbounded, _ => false

end LengthBound

namespace Automaton

def isFinite (a : Automaton) : Bool := (a.livePostorder a.liveStates).isSome

def longestFrom (a : Automaton) (live : Array Bool) (longest : Array Nat) (s : StateId) : Nat :=
  ((a.liveSuccessors live s).map fun d => longest.getD d 0 + 1).max?.getD 0

def longestPaths (a : Automaton) (live : Array Bool) (order : Array StateId) : Array Nat :=
  order.foldl (fun longest s => longest.setIfInBounds s (a.longestFrom live longest s))
    (Array.replicate a.numStates 0)

def lengthBound (a : Automaton) : LengthBound :=
  let live := a.liveStates
  if live.getD initial false then
    match a.livePostorder live with
    | none => .unbounded
    | some order => .bounded ((a.longestPaths live order).getD initial 0)
  else .empty

end Automaton

end Residual
