import Residual.Automaton.Reachability

/-!
This module contains the depth-first search for a post-order of the live states. It keeps its path on
a stack and gives up when it meets a state of the path again, because such a state lies on a cycle.
-/

namespace Residual

inductive Color where
  | white
  | gray
  | black
deriving DecidableEq, Repr

/-- A state on the path of a search and the index of its next successor to visit. -/
structure Branch where
  state : StateId
  next : Nat

structure DepthFirst where
  colors : Array Color
  path : List Branch
  order : Array StateId

namespace DepthFirst

variable (t : DepthFirst)

def color (s : StateId) : Color := t.colors.getD s .black

section Moves

def enter (s : StateId) : DepthFirst where
  colors := t.colors.setIfInBounds s .gray
  path := ⟨s, 0⟩ :: t.path
  order := t.order

def advance (f : Branch) (path : List Branch) : DepthFirst where
  colors := t.colors
  path := { f with next := f.next + 1 } :: path
  order := t.order

def leave (s : StateId) (path : List Branch) : DepthFirst where
  colors := t.colors.setIfInBounds s .black
  path := path
  order := t.order.push s

end Moves

def start (n : Nat) (s : StateId) : DepthFirst :=
  enter { colors := Array.replicate n .white, path := [], order := #[] } s

def pathTurns (width : Nat) : List Branch → Nat
  | [] => 0
  | f :: path => width - f.next + 1 + pathTurns width path

/-- The number of turns that are left at most if no state has more than `width` successors. -/
def turns (width : Nat) : Nat := t.colors.count .white * (width + 2) + pathTurns width t.path

theorem count_white_add (s : StateId) {c : Color} (hc : c ≠ .white) :
    (t.colors.setIfInBounds s c).count .white + (if t.color s = .white then 1 else 0) =
      t.colors.count .white := by
  by_cases hs : s < t.colors.size
  · have hpos : t.colors[s] = .white → 0 < t.colors.count .white := by
      intro hwhite
      exact Array.count_pos_iff.2 (hwhite ▸ Array.getElem_mem hs)
    rw [Array.setIfInBounds, dif_pos hs, Array.count_set, color, Array.getD_eq_getD_getElem?,
      Array.getElem?_eq_getElem hs, Option.getD_some]
    simp only [beq_iff_eq, hc, if_false]
    split
    next hwhite => exact Nat.sub_add_cancel (hpos hwhite)
    · rfl
  · rw [Array.setIfInBounds_eq_of_size_le (Nat.le_of_not_lt hs), color, Array.getD, dif_neg hs]
    rfl

end DepthFirst

namespace Automaton

variable (a : Automaton) (live : Array Bool)

def liveSuccessors (s : StateId) : List StateId := (a.successors s).filter fun d => live.getD d false

def turn (t : DepthFirst) (f : Branch) (path : List Branch) : Option DepthFirst :=
  match a.successor? f.state f.next with
  | none => some (t.leave f.state path)
  | some d =>
    if live.getD d false then
      match t.color d with
      | .white => some ((t.advance f path).enter d)
      | .gray => none
      | .black => some (t.advance f path)
    else some (t.advance f path)

inductive Turns (t : DepthFirst) (f : Branch) (path : List Branch) : Option DepthFirst → Prop where
  | leave (hend : a.successor? f.state f.next = none) :
    Turns t f path (some (t.leave f.state path))
  | pass {d : StateId} (hd : a.successor? f.state f.next = some d)
      (hblack : live.getD d false = true → t.color d = .black) :
    Turns t f path (some (t.advance f path))
  | enter {d : StateId} (hd : a.successor? f.state f.next = some d)
      (hlive : live.getD d false = true) (hwhite : t.color d = .white) :
    Turns t f path (some ((t.advance f path).enter d))
  | close {d : StateId} (hd : a.successor? f.state f.next = some d)
      (hlive : live.getD d false = true) (hgray : t.color d = .gray) : Turns t f path none

theorem turns_turn (t : DepthFirst) (f : Branch) (path : List Branch) :
    a.Turns live t f path (a.turn live t f path) := by
  unfold turn
  split
  next hend => exact .leave hend
  next d hd =>
    split
    next hlive =>
      split
      next hwhite => exact .enter hd hlive hwhite
      next hgray => exact .close hd hlive hgray
      next hblack => exact .pass hd fun _ => hblack
    next hdead => exact .pass hd fun hlive => absurd hlive hdead

variable {a live} {t t' : DepthFirst} {f : Branch} {path : List Branch}

theorem turns_lt_of_turn (hpath : t.path = f :: path) (h : a.turn live t f path = some t') :
    t'.turns a.alphabet.size < t.turns a.alphabet.size := by
  have hturns := a.turns_turn live t f path
  rw [h] at hturns
  cases hturns with
  | leave _ =>
    have hle := Nat.le.intro (t.count_white_add f.state (c := .black) nofun)
    have := Nat.mul_le_mul_right (a.alphabet.size + 2) hle
    simp only [DepthFirst.turns, DepthFirst.leave, hpath, DepthFirst.pathTurns]
    omega
  | pass hd _ =>
    have := (lt_of_successor? hd).2
    simp only [DepthFirst.turns, DepthFirst.advance, hpath, DepthFirst.pathTurns]
    omega
  | @enter d hd _ hwhite =>
    have hcount := t.count_white_add d (c := .gray) nofun
    rw [if_pos hwhite] at hcount
    simp only [DepthFirst.turns, DepthFirst.enter, DepthFirst.advance, hpath,
      DepthFirst.pathTurns, ← hcount, Nat.succ_mul]
    omega

variable (a live)

def depthFirst (t : DepthFirst) : Option (Array StateId) :=
  match _hpath : t.path with
  | [] => some t.order
  | f :: path =>
    match _h : a.turn live t f path with
    | none => none
    | some t' => depthFirst t'
termination_by t.turns a.alphabet.size
decreasing_by exact turns_lt_of_turn _hpath _h

/--
The live states on the paths of live states that begin in the initial one, each after its live
successors. There is no such order if some of these states lie on a cycle.
-/
def livePostorder : Option (Array StateId) :=
  if live.getD initial false then a.depthFirst live (.start a.numStates initial) else some #[]

end Automaton

end Residual
