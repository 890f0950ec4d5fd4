import Residual.Workspace
import Mathlib.Data.Multiset.DershowitzManna

/-!
This module contains derivations: the computation of a derivative with an explicit stack, which deep
terms do not exhaust. What would abort a derivation is an error here, so that a derivation without
errors is one in which every look-up succeeds and all bounds of repetitions are in order.
-/

namespace Residual

inductive Fault where
  | unknownDerivative (key : DerivativeKey)
  | noRepetition
  | boundsOutOfOrder (min max : Nat)
deriving DecidableEq

namespace Store

def lowered (max : Nat) : Except Fault Nat :=
  if max = 0 then .error .noRepetition else .ok (max - 1)

def betweenChecked (s : Store) (t : TermId) (min max : Nat) : Except Fault (TermId × Store) :=
  if min ≤ max then .ok (s.between t min max) else .error (.boundsOutOfOrder min max)

def deriveChecked (s : Store) (c : Char) (t : TermId) (sub : TermId → Except Fault TermId) :
    Except Fault (TermId × Store) :=
  match s.expr t with
  | .emptySet | .emptyString => .ok (empty, s)
  | .literal set => .ok (if set.contains c then epsilon else empty, s)
  | .concat left right => do
    let (u, s) := s.concat (← sub left) right
    if s.nullable left then return s.union u (← sub right)
    else return (u, s)
  | .union args => return s.unionList (← args.mapM sub)
  | .inter args => return s.interList (← args.mapM sub)
  | .negation arg => return s.negation (← sub arg)
  | .star arg => return s.concat (← sub arg) t
  | .repeated arg min max => do
    let u ← sub arg
    let (rest, s) ← s.betweenChecked arg (min - 1) (← lowered max)
    return s.concat u rest

end Store

/-- A term on the stack of a derivation. Once it is expanded, its dependencies are above it. -/
structure Frame where
  term : TermId
  expanded : Bool

namespace Frame

def rank (f : Frame) : Nat := 2 * f.term + if f.expanded then 0 else 1

def ranks (stack : List Frame) : Multiset Nat := stack.map rank

theorem ranks_append (stack stack' : List Frame) : ranks (stack ++ stack') =
    ranks stack + ranks stack' := by
  rw [ranks, List.map_append]
  rfl

theorem ranks_lt {f : Frame} {above rest : List Frame} (h : ∀ g ∈ above, g.rank < f.rank) :
    (ranks (above ++ rest)).IsDershowitzMannaLT (ranks (f :: rest)) := by
  refine ⟨ranks rest, ranks above, {f.rank}, Multiset.singleton_ne_zero f.rank, ?_, ?_, ?_⟩
  · rw [ranks_append, add_comm]
  · rw [← List.singleton_append, ranks_append, add_comm]
    rfl
  · intro r hr
    obtain ⟨g, hg, rfl⟩ := List.mem_map.1 hr
    exact ⟨f.rank, Multiset.mem_singleton_self f.rank, h g hg⟩

end Frame

namespace Workspace

def lookup (w : Workspace) (c : Char) (t : TermId) : Except Fault TermId :=
  match w.derivatives[(⟨t, c⟩ : DerivativeKey)]? with
  | some d => .ok d
  | none => .error (.unknownDerivative ⟨t, c⟩)

def combineChecked (w : Workspace) (c : Char) (t : TermId) : Except Fault Workspace := do
  let (d, store) ← w.store.deriveChecked c t (w.lookup c)
  return ⟨store, w.derivatives.insert ⟨t, c⟩ d, w.maxStates⟩

def request (w : Workspace) (c : Char) (ts : List TermId) (stack : List Frame) : List Frame :=
  ts.foldl (fun stack t =>
    if w.derivatives.contains ⟨t, c⟩ then stack else ⟨t, false⟩ :: stack) stack

def turn (w : Workspace) (c : Char) (f : Frame) (rest : List Frame) :
    Except Fault (Workspace × List Frame) :=
  if w.derivatives.contains ⟨f.term, c⟩ then .ok (w, rest)
  else if f.expanded then do return (← w.combineChecked c f.term, rest)
  else .ok (w, w.request c (w.store.dependencies f.term) (⟨f.term, true⟩ :: rest))

theorem request_eq (w : Workspace) (c : Char) (ts : List TermId) (stack : List Frame) :
    w.request c ts stack = (ts.filter fun t => !w.derivatives.contains ⟨t, c⟩).reverse.map
      (⟨·, false⟩) ++ stack := by
  induction ts generalizing stack with
  | nil => rfl
  | cons t ts ih =>
    rw [request, List.foldl_cons, ← request, ih]
    cases h : w.derivatives.contains ⟨t, c⟩ <;> simp [h]

theorem ranks_turn {w w' : Workspace} {c : Char} {f : Frame} {rest stack : List Frame}
    (h : w.turn c f rest = .ok (w', stack)) :
    (Frame.ranks stack).IsDershowitzMannaLT (Frame.ranks (f :: rest)) := by
  suffices ∃ above, stack = above ++ rest ∧ ∀ g ∈ above, g.rank < f.rank by
    obtain ⟨above, rfl, habove⟩ := this
    exact Frame.ranks_lt habove
  obtain ⟨t, expanded⟩ := f
  unfold turn at h
  dsimp only at h
  split at h
  · cases h
    exact ⟨[], rfl, nofun⟩
  · cases expanded with
    | true =>
      rw [if_pos rfl] at h
      cases hcombine : w.combineChecked c t with
      | error e =>
        rw [hcombine] at h
        contradiction
      | ok w'' =>
        rw [hcombine] at h
        cases h
        exact ⟨[], rfl, nofun⟩
    | false =>
      rw [if_neg Bool.false_ne_true, request_eq] at h
      cases h
      refine ⟨_, List.append_cons _ ⟨t, true⟩ rest, ?_⟩
      intro g hg
      rcases List.mem_append.1 hg with hg | hg
      · obtain ⟨u, hu, rfl⟩ := List.mem_map.1 hg
        have hlt : u < t :=
          Store.lt_of_mem_dependencies (List.mem_of_mem_filter (List.mem_reverse.1 hu))
        show 2 * u + 1 < 2 * t + 1
        exact Nat.succ_lt_succ (Nat.mul_lt_mul_of_pos_left hlt (Nat.succ_pos 1))
      · rw [List.mem_singleton.1 hg]
        simp [Frame.rank]

def Turns (c : Char) (x y : Workspace × List Frame) : Prop :=
  ∃ f rest, x.2 = f :: rest ∧ x.1.turn c f rest = .ok y

def drain (w : Workspace) (c : Char) : List Frame → Except Fault Workspace
  | [] => .ok w
  | f :: rest =>
    match _h : w.turn c f rest with
    | .error e => .error e
    | .ok (w, stack) => w.drain c stack
termination_by stack => Frame.ranks stack
decreasing_by exact ranks_turn _h

def derivativeChecked (w : Workspace) (t : TermId) (c : Char) :
    Except Fault (TermId × Workspace) :=
  match w.derivatives[(⟨t, c⟩ : DerivativeKey)]? with
  | some d => .ok (d, w)
  | none => do
    let w ← w.drain c [⟨t, false⟩]
    return (← w.lookup c t, w)

end Workspace

end Residual
