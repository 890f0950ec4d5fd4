import Residual.Automaton.Builder
import Residual.Workspace

/-!
This module contains the construction of automata from terms. The states are the residuals of the
term, explored breadth-first with the symbols in the order of the alphabet, so the numbering of the
states depends on the term and the alphabet alone.
-/

namespace Residual

/--
A construction under way: the residuals met so far, of which there may be at most `room`, and a
builder that knows the transitions of those that have left the worklist.
-/
structure Construction (room : Nat) where
  workspace : Workspace
  residuals : Worklist TermId
  builder : Builder TermId
  log : Array LogEntry
  numSeen_le : residuals.numSeen ≤ room

namespace Construction

variable {room : Nat}

def start (w : Workspace) (t : TermId) (a : Alphabet) (h : 0 < room) : Construction room where
  workspace := w
  residuals := (Worklist.empty.push t).2
  builder := .start t a
  log := #[]
  numSeen_le := h

def enter (x : Construction room) (t : TermId) : Except (Construction room) (Construction room) :=
  match x with
  | ⟨workspace, residuals, builder, log, numSeen_le⟩ =>
    match h : residuals.seen.find? t with
    | some _ => .ok ⟨workspace, residuals, builder, log, numSeen_le⟩
    | none =>
      -- a state is announced even if there is no room for it
      let log := log.push (.newState residuals.numSeen t)
      if hi : residuals.numSeen < room then
        .ok {
          workspace, builder, log
          residuals := residuals.pushNew t h
          numSeen_le := by rw [Worklist.numSeen_pushNew]; exact hi }
      else .error ⟨workspace, residuals, builder, log, numSeen_le⟩

def connect (x : Construction room) (t : TermId) (k : Nat) (d : TermId) : Construction room :=
  match x with
  | ⟨workspace, residuals, builder, log, numSeen_le⟩ =>
    ⟨workspace, residuals, builder.connect t k d, log, numSeen_le⟩

def follow (x : Construction room) (t : TermId) (k : Nat) :
    List Char → Except (Construction room) (Construction room)
  | [] => .ok x
  | c :: symbols =>
    match x with
    | ⟨workspace, residuals, builder, log, numSeen_le⟩ =>
      let (d, workspace) := workspace.derivative t c
      match enter ⟨workspace, residuals, builder, log, numSeen_le⟩ d with
      | .error x => .error x
      | .ok x => (x.connect t k d).follow t (k + 1) symbols

def finish (x : Construction room) (t : TermId) (residuals : Worklist TermId)
    (hle : residuals.numSeen ≤ room) (symbols : List Char) :
    Except (Construction room) (Construction room) :=
  match x with
  | ⟨workspace, _, builder, log, _⟩ =>
    let builder := if workspace.store.nullable t then builder.markFinal t else builder
    follow ⟨workspace, residuals, builder, log, hle⟩ t 0 symbols

section Lemmas

theorem cursor_enter {x y : Construction room} {t : TermId} (h : x.enter t = .ok y) :
    y.residuals.cursor = x.residuals.cursor := by
  obtain ⟨workspace, residuals, builder, log, hle⟩ := x
  simp only [enter] at h
  split at h
  · cases h
    rfl
  · split at h
    · cases h
      rfl
    · contradiction

theorem cursor_follow {x y : Construction room} {t : TermId} {k : Nat} {symbols : List Char}
    (h : x.follow t k symbols = .ok y) : y.residuals.cursor = x.residuals.cursor := by
  induction symbols generalizing x k with
  | nil =>
    cases h
    rfl
  | cons c symbols ih =>
    simp only [follow] at h
    split at h
    · contradiction
    next henter =>
      have hcursor := cursor_enter henter
      exact (ih h).trans hcursor

theorem cursor_finish {x y : Construction room} {t : TermId} {residuals : Worklist TermId} {hle}
    {symbols : List Char} (h : x.finish t residuals hle symbols = .ok y) :
    y.residuals.cursor = residuals.cursor :=
  cursor_follow h

theorem numSeen_le_of_pop (x : Construction room) {t : TermId} {residuals : Worklist TermId}
    (hp : x.residuals.pop = some (t, residuals)) : residuals.numSeen ≤ room := by
  have hseen := Worklist.seen_of_pop hp
  rw [Worklist.numSeen, hseen]
  exact x.numSeen_le

end Lemmas

def run (x : Construction room) (symbols : List Char) :
    Except (Construction room) (Construction room) :=
  match hp : x.residuals.pop with
  | none => .ok x
  | some (t, residuals) =>
    match _hf : x.finish t residuals (x.numSeen_le_of_pop hp) symbols with
    | .error y => .error y
    | .ok y => y.run symbols
termination_by room - x.residuals.cursor
decreasing_by
  have hcursor := cursor_finish _hf
  have hlt := Worklist.cursor_lt_of_pop hp
  have hle := x.numSeen_le
  rw [Worklist.cursor_of_pop hp] at hcursor
  omega

end Construction

namespace Workspace

def compile (w : Workspace) (t : TermId) (a : Alphabet) :
    Logged (Except Error Automaton × Workspace) :=
  match a.checkCovers (w.store.symbolsOf t) with
  | .error e => pure (.error e, w)
  | .ok () =>
    let limit := w.maxStates
    let start : Construction (max 1 limit) := .start w t a (by omega)
    match start.run a.symbols with
    | .error x => ⟨(.error (.tooManyStates limit), x.workspace), x.log.push (.aborted t limit)⟩
    | .ok x =>
      match x.builder.build with
      | .error e => ⟨(.error e, x.workspace), x.log⟩
      | .ok automaton =>
        let automaton := automaton.attachTerms x.builder.keys.toArray
        let entry := .compiled t a automaton.numStates automaton.numFinals x.workspace.numTerms
        ⟨(.ok automaton, x.workspace), x.log.push entry⟩

def compileInferred (w : Workspace) (t : TermId) : Logged (Except Error Automaton × Workspace) :=
  w.compile t (w.store.alphabetOf t)

end Workspace

end Residual
